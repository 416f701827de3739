import LicenseAudit.Proofs.Check
import LicenseAudit.Proofs.Expr.Occurrences
import LicenseAudit.Proofs.Expr.Polarity
import Mathlib.Algebra.Ring.Parity

/-!
# Decisions that change

A change of decisions on a name acts on a license in the direction that the negations above the name
tell. Decisions that change in the right direction everywhere keep an allowed license allowed. Where
no text of a listing has a `!`, the right direction is from disallowed to allowed, so a listing that
passes still passes when disallowed names become allowed, whatever unknown licenses mean.

Results:
1. `verdict_mono`: an allowed license stays allowed if the new decisions favour it.
2. `Relaxes.offends`: without negations no license starts to offend when names become allowed.
3. `verdict_and_review_mono`: the two directions for a license, and the one for a listing.
-/

namespace LicenseAudit.Decisions

/-- Some disallowed names become allowed, and nothing else changes. -/
def Relaxes (d d' : Decisions) : Prop :=
  ∀ name, d'.find? name = d.find? name ∨ d.find? name = some false ∧ d'.find? name = some true

variable {d d' : Decisions} {license : String} {e : Expr}

/-! ## One license -/

theorem verdict_mono (hparse : Expr.parse license = .ok e)
    (hall : ∀ name ∈ e.names, d'.decides name = true)
    (hfavours : e.Favours d.assignment d'.assignment) (h : d.verdict license = .ok true) :
    d'.verdict license = .ok true :=
  (verdict_eq_ok_iff hparse).2 ⟨hall, Expr.truth_mono hfavours ((verdict_eq_ok_iff hparse).1 h).2⟩

theorem find?_eq_assignment {name : String} (h : d.decides name = true) :
    d.find? name = some (d.assignment name) := by
  obtain ⟨b, hb⟩ := Option.isSome_iff_exists.1 h
  rw [assignment, hb, Option.getD_some]

/-- Decisions favour an expression if its names change in the direction of their occurrences. -/
theorem favours_of_occursOnly
    (hall : ∀ name ∈ e.names, d.decides name = true ∧ d'.decides name = true)
    (hup : ∀ name ∈ e.names, d.find? name = some false → d'.find? name = some true →
      e.OccursOnly Even name)
    (hdown : ∀ name ∈ e.names, d.find? name = some true → d'.find? name = some false →
      e.OccursOnly Odd name) :
    e.Favours d.assignment d'.assignment := by
  intro p name hat hspelling hne
  have hmem : name ∈ e.names :=
    Expr.mem_names_iff.2 ⟨Expr.mem_literals_iff.2 ⟨p, hat⟩, hspelling⟩
  have hold := find?_eq_assignment (hall name hmem).1
  have hnew := find?_eq_assignment (hall name hmem).2
  rw [Bool.eq_not.2 hne] at hold
  cases hvalue : d'.assignment name with
  | true =>
    rw [hvalue] at hold hnew
    exact iff_of_true rfl (hup name hmem hold hnew p name hat rfl)
  | false =>
    rw [hvalue] at hold hnew
    have hodd := hdown name hmem hold hnew p name hat rfl
    exact iff_of_false Bool.false_ne_true (Nat.not_even_iff_odd.2 hodd)

/-! ## Texts without negations -/

theorem relaxes_record {name : String} (h : d.find? name = some false) :
    Relaxes d (d.record name true) := by
  intro other
  rcases eq_or_ne other name with rfl | hne
  · exact .inr ⟨h, d.find?_record_self other true⟩
  · exact .inl (d.find?_record_of_ne hne true)

section

variable (h : Relaxes d d') (hno : '!' ∉ license.toList)
include h

theorem Relaxes.find?_eq_none_iff (name : String) : d'.find? name = none ↔ d.find? name = none := by
  rcases h name with heq | ⟨hold, hnew⟩
  · rw [heq]
  · rw [hold, hnew]
    exact iff_of_false nofun nofun

include hno

theorem Relaxes.favours (hparse : Expr.parse license = .ok e) :
    e.Favours d.assignment d'.assignment := by
  refine ((Expr.reads_of_parseAt hparse).allLiterals_zero hno).imp fun name n hzero _ hne => ?_
  subst hzero
  rcases h name with heq | ⟨-, hnew⟩
  · exact absurd (by rw [assignment, assignment, heq]) hne
  · exact iff_of_true (by rw [assignment, hnew]; rfl) Even.zero

/-- Without negations a license that offends has offended before. -/
theorem Relaxes.offends {policy : UnknownPolicy} (hoffends : d'.Offends policy license) :
    d.Offends policy license := by
  obtain ⟨e, hparse, hdisallowed | ⟨hdeny, name, hname, hnone⟩⟩ := hoffends
  · have hnew : d'.verdict license = .ok false := (eval_eq_ok_iff hparse).1 hdisallowed
    obtain ⟨hall', -⟩ := (verdict_eq_ok_iff hparse).1 hnew
    have hall : ∀ name ∈ e.names, d.decides name = true := by
      intro name hname
      have hsome := hall' name hname
      unfold decides at hsome ⊢
      rw [Option.isSome_iff_ne_none] at hsome ⊢
      exact mt (h.find?_eq_none_iff name).2 hsome
    have hold : e.truth d.assignment = false := by
      refine Bool.eq_false_iff.2 fun htrue => ?_
      have := verdict_mono hparse hall' (h.favours hno hparse)
        ((verdict_eq_ok_iff hparse).2 ⟨hall, htrue⟩)
      rw [hnew] at this
      cases this
    exact ⟨e, hparse, .inl ((eval_eq_ok_iff hparse).2 ((verdict_eq_ok_iff hparse).2 ⟨hall, hold⟩))⟩
  · exact ⟨e, hparse, .inr ⟨hdeny, name, hname, (h.find?_eq_none_iff name).1 hnone⟩⟩

end

/-! ## Licenses and listings -/

/-- If all names of a license are decided before and after a change of decisions, an allowed license
stays allowed when the names that become allowed occur under an even number of negations only, and
those that become disallowed under an odd number only. In a listing whose licenses have no `!`,
disallowed names that become allowed never make a check fail that did not fail before. -/
theorem verdict_and_review_mono :
    (∀ (d d' : Decisions) license e, Expr.parse license = .ok e →
        (∀ name ∈ e.names, d.decides name = true ∧ d'.decides name = true) →
        (∀ name ∈ e.names, d.find? name = some false → d'.find? name = some true →
          e.OccursOnly Even name) →
        (∀ name ∈ e.names, d.find? name = some true → d'.find? name = some false →
          e.OccursOnly Odd name) →
        d.verdict license = .ok true → d'.verdict license = .ok true) ∧
      ∀ (d d' : Decisions) (listing : Listing) policy r,
        (∀ p ∈ listing.pairs, '!' ∉ p.2.toList) → Relaxes d d' →
        d.review listing = .ok r → r.fails policy = false →
        ∃ r', d'.review listing = .ok r' ∧ r'.fails policy = false := by
  constructor
  · intro d d' license e hparse hall hup hdown
    exact verdict_mono hparse (fun name hname => (hall name hname).2)
      (favours_of_occursOnly hall hup hdown)
  · intro d d' listing policy r hno hrelaxes hreview hpasses
    have hread := readable_of_review hreview
    have hbefore := (reviewed_of_review hreview).fails_iff hread policy
    obtain ⟨r', hr', hreviewed⟩ := d'.exists_review hread
    refine ⟨r', hr', Bool.eq_false_iff.2 fun hfails => ?_⟩
    obtain ⟨p, hp, hoffends⟩ := (hreviewed.fails_iff hread policy).1 hfails
    rw [hbefore.2 ⟨p, hp, hrelaxes.offends (hno p hp) hoffends⟩] at hpasses
    cases hpasses

/-- A name under two negations becomes allowed, and one under a single negation disallowed. -/
theorem verdict_and_review_mono_nested :
    let license := "MIT && !(GPL && !(BSD || T))"
    let d := ofPairs [("MIT", true), ("GPL", true), ("BSD", false)]
    let d' := ofPairs [("MIT", true), ("GPL", false), ("BSD", true)]
    let listing : Listing := ⟨[("serde", "MIT || BSD"), ("rand", "Zlib")], by decide⟩
    (d.verdict license = .ok true ∧ d'.verdict license = .ok true) ∧
      ∃ r, (d.record "BSD" true).review listing = .ok r ∧ r.fails .report = false := by
  intro license d d' listing
  constructor
  · have hparse : Expr.parse "MIT && !(GPL && !(BSD || T))" =
        .ok (.and (.literal "MIT") (.not (.and (.literal "GPL")
          (.not (.or (.literal "BSD") (.literal "T")))))) := by decide
    have hold : d.verdict license = .ok true := by decide
    refine ⟨hold, verdict_and_review_mono.1 d d' license _ hparse (by decide) ?_ ?_ hold⟩
    · intro name hname hfalse _
      obtain rfl : name = "BSD" := by
        revert name
        decide
      simp [Expr.OccursOnly]
    · intro name hname _ hfalse
      obtain rfl : name = "GPL" := by
        revert name
        decide
      simp [Expr.OccursOnly]
  · have hrelaxes : Relaxes d (d.record "BSD" true) := relaxes_record (by decide)
    exact verdict_and_review_mono.2 d _ listing .report _ (by decide) hrelaxes rfl rfl

end LicenseAudit.Decisions
