import LicenseAudit.Proofs.Expr.Names
import LicenseAudit.Proofs.Review

/-!
# Recorded decisions

A verdict looks up the names of its license and nothing else. So two sets of decisions that agree on
these names give the same verdict and the same undecided names, and a decision on any other name is
without effect. A decision on an undecided name takes this name from the undecided ones and leaves
the others as they are; when none is left, there is a verdict.

Results:
1. `decides_recordAll`, `find?_recordAll_of_notMem`: what is decided after some decisions were
   recorded.
2. `verdict_congr`, `undecided_congr`, `review_congr`: decisions that agree on the names of a
   license, or of all licenses of a listing, cannot be told apart by it.
3. `verdict_depends_on_names`: what evaluations, verdicts and reviews depend on.
4. `undecided_recordAll`: the undecided names after some decisions were recorded.
5. `undecided_exact`: the undecided names are the ones that have to be decided, and no others.
-/

namespace LicenseAudit.Decisions

/-- Two sets of decisions have the same decisions on the names of a license. A text that cannot be
read has no names. -/
def AgreeOn (license : String) (d d' : Decisions) : Prop :=
  ∀ e, Expr.parse license = .ok e → ∀ name ∈ e.names, d.find? name = d'.find? name

/-! ## Decisions after a record -/

theorem decides_record (d : Decisions) (name other : String) (allowed : Bool) :
    (d.record name allowed).decides other = true ↔ d.decides other = true ∨ other = name := by
  by_cases h : other = name
  · subst h
    simp [decides, find?_record_self]
  · simp [decides, d.find?_record_of_ne h, h]

theorem recordAll_cons (d : Decisions) (p : String × Bool) (ps : List (String × Bool)) :
    d.recordAll (p :: ps) = (d.record p.1 p.2).recordAll ps := rfl

theorem recordAll_append (d : Decisions) (ps qs : List (String × Bool)) :
    d.recordAll (ps ++ qs) = (d.recordAll ps).recordAll qs :=
  List.foldl_append

theorem decides_recordAll (d : Decisions) (ps : List (String × Bool)) (name : String) :
    (d.recordAll ps).decides name = true ↔ d.decides name = true ∨ name ∈ ps.map Prod.fst := by
  induction ps generalizing d with
  | nil => simp [recordAll]
  | cons p ps ih =>
    rw [recordAll_cons, ih, decides_record, List.map_cons, List.mem_cons, or_assoc]

theorem find?_recordAll_of_notMem (d : Decisions) {ps : List (String × Bool)} {name : String}
    (h : name ∉ ps.map Prod.fst) : (d.recordAll ps).find? name = d.find? name := by
  induction ps generalizing d with
  | nil => rfl
  | cons p ps ih =>
    rw [List.map_cons, List.mem_cons, not_or] at h
    rw [recordAll_cons, ih _ h.2, d.find?_record_of_ne h.1]

/-! ## Agreement on names -/

section

variable {d d' : Decisions}

theorem verdict_congr {license : String} (h : AgreeOn license d d') :
    d.verdict license = d'.verdict license := by
  cases hp : Expr.parse license with
  | error source => rw [d.verdict_of_parse_error hp, d'.verdict_of_parse_error hp]
  | ok e =>
    unfold verdict
    rw [parseLicense_of_parse hp]
    simp only [Expr.eval_congr (h e hp)]

theorem undecided_congr {license : String} (h : AgreeOn license d d') :
    d.undecided license = d'.undecided license := by
  cases hp : Expr.parse license with
  | error source => rw [d.undecided_of_parse_error hp, d'.undecided_of_parse_error hp]
  | ok e =>
    have hfilter : (e.names.filter fun name => !d.decides name) =
        e.names.filter fun name => !d'.decides name := by
      refine List.filter_congr fun name hname => ?_
      unfold decides
      rw [h e hp name hname]
    rw [d.undecided_of_parse hp, d'.undecided_of_parse hp, hfilter]

theorem reviewFrom_congr {ps : List (String × String)} (h : ∀ p ∈ ps, AgreeOn p.2 d d')
    (r : Report) : d.reviewFrom r ps = d'.reviewFrom r ps := by
  induction ps generalizing r with
  | nil => rfl
  | cons p ps ih =>
    obtain ⟨hp, hps⟩ := List.forall_mem_cons.1 h
    obtain ⟨dependency, license⟩ := p
    have hrest : ∀ r, d.reviewFrom r ps = d'.reviewFrom r ps := ih hps
    simp only [reviewFrom, verdict_congr hp, hrest]

theorem review_congr {listing : Listing} (h : ∀ p ∈ listing.pairs, AgreeOn p.2 d d') :
    d.review listing = d'.review listing :=
  reviewFrom_congr h .empty

end

/-- Recording a decision that is on no name of a license leaves the names as they were decided. -/
theorem agreeOn_record (d : Decisions) {license name : String}
    (h : ∀ e, Expr.parse license = .ok e → name ∉ e.names) (allowed : Bool) :
    AgreeOn license (d.record name allowed) d := by
  intro e he other hother
  refine d.find?_record_of_ne ?_ allowed
  rintro rfl
  exact h e he hother

/-! ## What a verdict depends on -/

/-- A license with a verdict has no undecided name, so decisions on names without one are on none of
its names. -/
theorem agreeOn_recordAll {d : Decisions} {license : String} {b : Bool}
    (hv : d.verdict license = .ok b) {ps : List (String × Bool)}
    (h : ∀ p ∈ ps, d.find? p.1 = none) : AgreeOn license (d.recordAll ps) d := by
  intro e he name hname
  refine d.find?_recordAll_of_notMem fun hm => ?_
  obtain ⟨p, hp, rfl⟩ := List.mem_map.1 hm
  have hdecided := ((verdict_eq_ok_iff he).1 hv).1 p.1 hname
  unfold decides at hdecided
  rw [h p hp] at hdecided
  cases hdecided

/-- The value of an expression depends on the values of its names. So a decision on another name or
on the spelling of a constant changes neither the verdict on a license nor its undecided names,
reviews of a listing do not differ if the decisions agree on all names in it, and new decisions on
undecided names leave every verdict as it was. -/
theorem verdict_depends_on_names :
    (∀ (e : Expr) v w, (∀ name ∈ e.names, v name = w name) → e.eval v = e.eval w) ∧
      (∀ (d : Decisions) license name allowed,
        (boolSpelling? name ≠ none ∨ ∀ e, Expr.parse license = .ok e → name ∉ e.names) →
          (d.record name allowed).verdict license = d.verdict license ∧
            (d.record name allowed).undecided license = d.undecided license) ∧
      (∀ (d d' : Decisions) (listing : Listing), (∀ p ∈ listing.pairs, AgreeOn p.2 d d') →
        d.review listing = d'.review listing) ∧
      ∀ (d : Decisions) license b ps, d.verdict license = .ok b →
        (∀ p ∈ ps, d.find? p.1 = none) → (d.recordAll ps).verdict license = .ok b := by
  refine ⟨fun e v w => Expr.eval_congr, fun d license name allowed hname => ?_,
    fun d d' listing => review_congr, fun d license b ps hv hps => ?_⟩
  · have hno : ∀ e, Expr.parse license = .ok e → name ∉ e.names := by
      rcases hname with hspelling | hno
      · exact fun e _ => Expr.notMem_names_of_spelling hspelling
      · exact hno
    have hagree := d.agreeOn_record hno allowed
    exact ⟨verdict_congr hagree, undecided_congr hagree⟩
  · rw [verdict_congr (agreeOn_recordAll hv hps), hv]

/-! ## What has to be decided -/

/-- The undecided names are those from before on which nothing was recorded, in the same order. -/
theorem undecided_recordAll {d : Decisions} {license : String} {names : List String}
    (h : d.undecided license = .ok names) (ps : List (String × Bool)) :
    (d.recordAll ps).undecided license =
      .ok (names.filter fun name => name ∉ ps.map Prod.fst) := by
  obtain ⟨e, he, rfl⟩ := exists_parse_of_undecided h
  rw [undecided_of_parse _ he, List.filter_filter]
  refine congrArg Except.ok (List.filter_congr fun name _ => ?_)
  rw [Bool.eq_iff_iff]
  simp [← Bool.not_eq_true, decides_recordAll, and_comm]

/-- Decisions on all undecided names give a verdict, with whatever else is recorded. If some of
these names are left out, the license stays unknown, and what was left out is undecided then. -/
theorem undecided_exact {d : Decisions} {license : String} {names : List String}
    (h : d.undecided license = .ok names) (ps : List (String × Bool)) :
    ((∀ name ∈ names, name ∈ ps.map Prod.fst) →
        (∃ b, (d.recordAll ps).verdict license = .ok b) ∧
          (d.recordAll ps).undecided license = .ok []) ∧
      ((∃ name ∈ names, name ∉ ps.map Prod.fst) →
        ∃ first rest, (names.filter fun name => name ∉ ps.map Prod.fst) = first :: rest ∧
          (d.recordAll ps).verdict license = .error (.unknownLicense license first) ∧
          (d.recordAll ps).undecided license = .ok (first :: rest)) := by
  have hafter := undecided_recordAll h ps
  constructor
  · intro hall
    have hnil : (names.filter fun name => name ∉ ps.map Prod.fst) = [] :=
      List.filter_eq_nil_iff.2 fun name hname hno => of_decide_eq_true hno (hall name hname)
    rw [hnil] at hafter
    exact ⟨verdict_of_undecided_nil hafter, hafter⟩
  · rintro ⟨name, hname, hno⟩
    have hmem : name ∈ names.filter fun name => name ∉ ps.map Prod.fst :=
      List.mem_filter.2 ⟨hname, decide_eq_true hno⟩
    obtain ⟨first, rest, hcons⟩ := List.exists_cons_of_ne_nil (List.ne_nil_of_mem hmem)
    rw [hcons] at hafter
    exact ⟨first, rest, hcons, verdict_of_undecided_cons hafter, hafter⟩

/-- Constants and names decided before need no decision, and a name that occurs twice needs one. -/
theorem undecided_exact_compound :
    let license := "MIT && (ISC || !BSD) && T && ISC"
    let d := empty.record "MIT" true
    let full := [("BSD", true), ("Zlib", false), ("ISC", false)]
    let part := [("ISC", true), ("MIT", false)]
    d.undecided license = .ok ["ISC", "BSD"] ∧
      ((∃ b, (d.recordAll full).verdict license = .ok b) ∧
        (d.recordAll full).undecided license = .ok []) ∧
      (d.recordAll part).verdict license = .error (.unknownLicense license "BSD") ∧
        (d.recordAll part).undecided license = .ok ["BSD"] := by
  intro license d full part
  have h : d.undecided license = .ok ["ISC", "BSD"] := by decide
  obtain ⟨first, rest, hcons, hverdict, hundecided⟩ :=
    (undecided_exact h part).2 ⟨"BSD", by decide, by decide⟩
  obtain ⟨rfl, rfl⟩ := List.cons.inj hcons
  exact ⟨h, (undecided_exact h full).1 (by decide), hverdict, hundecided⟩

end LicenseAudit.Decisions
