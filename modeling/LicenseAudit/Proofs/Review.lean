import LicenseAudit.Proofs.Report.Grouping
import LicenseAudit.Proofs.Verdict
import Mathlib.Data.List.Nodup

/-!
# Reviews

A review goes through a listing and records every dependency with its fate, until it comes to a
license that cannot be read. Up to there the report is known exactly: every class holds the
dependencies with that fate, grouped by license, and all classes together hold every dependency the
review has seen. This is the invariant `Reviewed`; a record keeps it, and so does a whole review.

Results:
1. `fate?_eq_unknown_iff`, `fate?_eq_decided_iff`: the fate of a license by its expression.
2. `Reviewed.record`: a step of the review keeps the invariant.
3. `reviewFrom_append`: a review of readable licenses keeps it and goes on with the rest.
4. `Reviewed.mem_keys_iff`, `Reviewed.classified`: what the invariant says about the report on a
   listing.
5. `review_classifies`: a review ends at the first license that cannot be read, and if there is none
   it classifies every dependency exactly once.
-/

namespace LicenseAudit.Decisions

/-! ## Definitions -/

/-- What becomes of a dependency with this license. A check that meets a license without a fate
ends there. -/
def fate? (d : Decisions) (license : String) : Option Fate :=
  match d.verdict license with
  | .ok true => some .allowed
  | .ok false => some .disallowed
  | .error (.unknownLicense _ _) => some .unknown
  | .error _ => none

/-- The pairs of a dependency and its license that have this fate. -/
def withFate (d : Decisions) (fate : Fate) (ps : List (String × String)) :
    List (String × String) :=
  ps.filter fun p => d.fate? p.2 = some fate

/-- The report after a review of the given pairs. -/
structure Reviewed (d : Decisions) (ps : List (String × String)) (r : Report) : Prop where
  grouped : ∀ fate, (r.groups fate).pairs = Groups.grouped (d.withFate fate ps)
  dependencies : r.dependencies.Perm (ps.map Prod.fst)

/-- The report classifies the dependencies of the listing. -/
structure Classified (d : Decisions) (listing : Listing) (r : Report) : Prop where
  /-- A dependency of the listing occurs once in the three classes, and no other occurs. -/
  once : ∀ dependency,
    r.dependencies.count dependency = if dependency ∈ listing.keys then 1 else 0
  /-- It stands under its license, in the class that the verdict on the license tells. -/
  placed : ∀ p ∈ listing.pairs, ∃ fate ds, d.fate? p.2 = some fate ∧
    (r.groups fate).find? p.2 = some ds ∧ p.1 ∈ ds
  /-- No license is in two classes. -/
  apart : ∀ fate other license, license ∈ (r.groups fate).keys →
    license ∈ (r.groups other).keys → fate = other
  /-- No license is without dependencies. -/
  inhabited : ∀ fate, [] ∉ (r.groups fate).values
  /-- The licenses of a class stand in the order of their first appearance. -/
  keys_eq : ∀ fate,
    (r.groups fate).keys = ((d.withFate fate listing.pairs).map Prod.snd).eraseDups
  /-- The dependencies of a license stand in the order of the listing. -/
  list_eq : ∀ fate license ds, (r.groups fate).find? license = some ds →
    ds = Groups.dependenciesOf license listing.pairs
  /-- The summary counts every dependency in its class. -/
  total : r.summary.total = listing.size ∧
    r.summary.total = r.summary.allowed + r.summary.disallowed + r.summary.unknown

/-! ## Fates -/

theorem fate?_of_parse (d : Decisions) {license : String} {e : Expr}
    (h : Expr.parse license = .ok e) :
    d.fate? license =
      match (e.names.filter fun name => !d.decides name).head? with
      | none => if e.truth d.assignment then some .allowed else some .disallowed
      | some _ => some .unknown := by
  rw [fate?, d.verdict_of_parse h]
  cases (e.names.filter fun name => !d.decides name).head? with
  | none => cases e.truth d.assignment <;> rfl
  | some _ => rfl

/-- A license is unknown as long as one of its names is undecided. -/
theorem fate?_eq_unknown_iff (d : Decisions) {license : String} {e : Expr}
    (h : Expr.parse license = .ok e) :
    d.fate? license = some .unknown ↔ ∃ name ∈ e.names, ¬ d.decides name = true := by
  rw [d.fate?_of_parse h]
  cases hn : e.names.filter fun name => !d.decides name with
  | nil =>
    have hall : ∀ name ∈ e.names, d.decides name = true := by
      simpa using List.filter_eq_nil_iff.1 hn
    constructor
    · intro heq
      simp only [List.head?_nil] at heq
      split at heq <;> cases heq
    · rintro ⟨name, hname, hno⟩
      exact absurd (hall name hname) hno
  | cons name rest =>
    have hmem : name ∈ e.names.filter fun name => !d.decides name := hn ▸ List.mem_cons_self
    obtain ⟨hname, hno⟩ := List.mem_filter.1 hmem
    exact ⟨fun _ => ⟨name, hname, by simpa using hno⟩, fun _ => rfl⟩

theorem fate?_unknown_iff_undecided {d : Decisions} {license : String} {names : List String}
    (h : d.undecided license = .ok names) :
    d.fate? license = some .unknown ↔ ∃ name, name ∈ names := by
  obtain ⟨e, he, rfl⟩ := exists_parse_of_undecided h
  simp [d.fate?_eq_unknown_iff he, List.mem_filter]

/-- A license is allowed or disallowed as its expression evaluates. -/
theorem fate?_eq_decided_iff (d : Decisions) {license : String} {e : Expr}
    (h : Expr.parse license = .ok e) (b : Bool) :
    d.fate? license = some (if b then .allowed else .disallowed) ↔ e.eval d.find? = .ok b := by
  rw [fate?, verdict, parseLicense_of_parse h]
  simp only
  cases e.eval d.find? with
  | ok a => cases a <;> cases b <;> simp [Except.mapError]
  | error source =>
    simp only [Except.mapError, checkErrorOf, reduceCtorEq, iff_false]
    cases source.unknownVariable? <;> cases b <;> simp

/-! ## One step -/

theorem exists_fate (d : Decisions) {license : String} {e : Expr}
    (h : Expr.parse license = .ok e) : ∃ fate, d.fate? license = some fate := by
  rcases d.verdict_cases license with
    ⟨source, hp, -⟩ | ⟨_, b, -, hv, -⟩ | ⟨_, name, rest, -, hv, -⟩
  · rw [h] at hp
    cases hp
  · rw [fate?, hv]
    cases b
    · exact ⟨.disallowed, rfl⟩
    · exact ⟨.allowed, rfl⟩
  · exact ⟨.unknown, by rw [fate?, hv]⟩

theorem reviewFrom_cons {d : Decisions} {license : String} {fate : Fate}
    (h : d.fate? license = some fate) (r : Report) (dependency : String)
    (rest : List (String × String)) :
    d.reviewFrom r ((dependency, license) :: rest) =
      d.reviewFrom (r.record fate license dependency) rest := by
  rw [fate?] at h
  rw [reviewFrom]
  split at h
  case h_4 => cases h
  all_goals
    next hv =>
      obtain rfl := Option.some.inj h
      rw [hv]
      rfl

theorem reviewFrom_cons_of_parse_error (d : Decisions) {license : String} {source : ParseError}
    (h : Expr.parse license = .error source) (r : Report) (dependency : String)
    (rest : List (String × String)) :
    d.reviewFrom r ((dependency, license) :: rest) = .error (.parse license source) := by
  rw [reviewFrom, d.verdict_of_parse_error h]

theorem withFate_append (d : Decisions) (fate : Fate) (ps qs : List (String × String)) :
    d.withFate fate (ps ++ qs) = d.withFate fate ps ++ d.withFate fate qs :=
  List.filter_append ..

theorem Reviewed.empty (d : Decisions) : Reviewed d [] .empty := by
  constructor
  · intro fate
    cases fate <;> rfl
  · exact List.Perm.refl _

/-- Recording a dependency in the class of its fate keeps the invariant. -/
theorem Reviewed.record {d : Decisions} {ps : List (String × String)} {r : Report}
    (h : Reviewed d ps r) {license : String} {fate : Fate} (hf : d.fate? license = some fate)
    (dependency : String) :
    Reviewed d (ps ++ [(dependency, license)]) (r.record fate license dependency) := by
  constructor
  · intro other
    rw [Report.groups_record, withFate_append]
    by_cases heq : other = fate
    · subst heq
      have hself : d.withFate other [(dependency, license)] = [(dependency, license)] := by
        simp [withFate, hf]
      rw [if_pos rfl, hself]
      exact Groups.pairs_add (h.grouped other) dependency license
    · have hnil : d.withFate other [(dependency, license)] = [] := by
        simp [withFate, hf, Ne.symm heq]
      rw [if_neg heq, hnil, List.append_nil]
      exact h.grouped other
  · rw [List.map_append, List.map_singleton]
    exact (r.dependencies_record fate license dependency).trans
      ((h.dependencies.cons _).trans (List.perm_append_singleton _ _).symm)

/-! ## A whole review -/

theorem reviewFrom_append {d : Decisions} {before ps : List (String × String)} {r : Report}
    (h : Reviewed d before r) (hps : ∀ p ∈ ps, ∃ e, Expr.parse p.2 = .ok e) :
    ∃ after, Reviewed d (before ++ ps) after ∧
      ∀ rest, d.reviewFrom r (ps ++ rest) = d.reviewFrom after rest := by
  induction ps generalizing before r with
  | nil => exact ⟨r, by rwa [List.append_nil], fun _ => rfl⟩
  | cons p ps ih =>
    obtain ⟨dependency, license⟩ := p
    obtain ⟨e, he⟩ := hps _ List.mem_cons_self
    obtain ⟨fate, hf⟩ := d.exists_fate he
    obtain ⟨after, hafter, hrun⟩ :=
      ih (h.record hf dependency) fun p hp => hps p (List.mem_cons_of_mem _ hp)
    rw [List.append_assoc] at hafter
    refine ⟨after, hafter, fun rest => ?_⟩
    rw [List.cons_append, reviewFrom_cons hf, hrun]

theorem readable_or_first_unreadable (ps : List (String × String)) :
    (∀ p ∈ ps, ∃ e, Expr.parse p.2 = .ok e) ∨
      ∃ before p after source, ps = before ++ p :: after ∧
        (∀ q ∈ before, ∃ e, Expr.parse q.2 = .ok e) ∧ Expr.parse p.2 = .error source := by
  induction ps with
  | nil => exact .inl fun p hp => absurd hp List.not_mem_nil
  | cons p ps ih =>
    cases hp : Expr.parse p.2 with
    | error source =>
      exact .inr ⟨[], p, ps, source, rfl, fun q hq => absurd hq List.not_mem_nil, hp⟩
    | ok e =>
      rcases ih with hall | ⟨before, q, after, source, rfl, hbefore, hq⟩
      · exact .inl (List.forall_mem_cons.2 ⟨⟨e, hp⟩, hall⟩)
      · exact .inr ⟨p :: before, q, after, source, rfl,
          List.forall_mem_cons.2 ⟨⟨e, hp⟩, hbefore⟩, hq⟩

/-- A listing whose licenses can all be read has a report. -/
theorem exists_review (d : Decisions) {listing : Listing}
    (h : ∀ p ∈ listing.pairs, ∃ e, Expr.parse p.2 = .ok e) :
    ∃ r, d.review listing = .ok r ∧ Reviewed d listing.pairs r := by
  obtain ⟨r, hr, hrun⟩ := reviewFrom_append (.empty d) h
  refine ⟨r, ?_, hr⟩
  rw [review, ← listing.pairs.append_nil, hrun, reviewFrom]

/-- The first license that cannot be read ends a review. -/
theorem review_of_unreadable (d : Decisions) {listing : Listing}
    {before after : List (String × String)} {p : String × String} {source : ParseError}
    (hsplit : listing.pairs = before ++ p :: after)
    (hbefore : ∀ q ∈ before, ∃ e, Expr.parse q.2 = .ok e) (hp : Expr.parse p.2 = .error source) :
    d.review listing = .error (.parse p.2 source) := by
  obtain ⟨r, -, hrun⟩ := reviewFrom_append (.empty d) hbefore
  rw [review, hsplit, hrun, d.reviewFrom_cons_of_parse_error hp]

/-- A listing that has a report has no license that cannot be read. -/
theorem readable_of_review {d : Decisions} {listing : Listing} {r : Report}
    (h : d.review listing = .ok r) : ∀ p ∈ listing.pairs, ∃ e, Expr.parse p.2 = .ok e := by
  rcases readable_or_first_unreadable listing.pairs with
    hall | ⟨before, p, after, source, hsplit, hbefore, hp⟩
  · exact hall
  · rw [d.review_of_unreadable hsplit hbefore hp] at h
    cases h

/-- A review fails only because of a license that cannot be read. -/
theorem parse_error_of_review {d : Decisions} {listing : Listing} {error : CheckError}
    (h : d.review listing = .error error) :
    ∃ p ∈ listing.pairs, ∃ source, Expr.parse p.2 = .error source ∧ error = .parse p.2 source := by
  rcases readable_or_first_unreadable listing.pairs with
    hall | ⟨before, p, after, source, hsplit, hbefore, hp⟩
  · obtain ⟨r, hr, -⟩ := d.exists_review hall
    rw [hr] at h
    cases h
  · rw [d.review_of_unreadable hsplit hbefore hp] at h
    refine ⟨p, ?_, source, hp, (Except.error.inj h).symm⟩
    rw [hsplit]
    exact List.mem_append_right _ List.mem_cons_self

theorem reviewed_of_review {d : Decisions} {listing : Listing} {r : Report}
    (h : d.review listing = .ok r) : Reviewed d listing.pairs r := by
  obtain ⟨r', hreview, hr'⟩ := d.exists_review (readable_of_review h)
  rw [h] at hreview
  obtain rfl := Except.ok.inj hreview
  exact hr'

/-! ## The report on a listing -/

theorem mem_withFate {d : Decisions} {fate : Fate} {ps : List (String × String)}
    {p : String × String} : p ∈ d.withFate fate ps ↔ p ∈ ps ∧ d.fate? p.2 = some fate := by
  simp [withFate]

theorem dependenciesOf_withFate {d : Decisions} {fate : Fate} {license : String}
    (h : d.fate? license = some fate) (ps : List (String × String)) :
    Groups.dependenciesOf license (d.withFate fate ps) = Groups.dependenciesOf license ps := by
  rw [Groups.dependenciesOf, withFate, List.filter_filter, Groups.dependenciesOf]
  congr 1
  refine List.filter_congr fun p _ => ?_
  by_cases hp : p.2 = license
  · simp [hp, h]
  · simp [hp]

namespace Reviewed

variable {d : Decisions} {ps : List (String × String)} {r : Report}

theorem keys_eq (h : Reviewed d ps r) (fate : Fate) :
    (r.groups fate).keys = ((d.withFate fate ps).map Prod.snd).eraseDups := by
  rw [Ordered.keys, h.grouped, Groups.keys_grouped]

theorem find?_eq (h : Reviewed d ps r) (fate : Fate) (license : String) :
    (r.groups fate).find? license =
      if license ∈ (d.withFate fate ps).map Prod.snd then
        some (Groups.dependenciesOf license (d.withFate fate ps)) else none := by
  rw [Ordered.find?, h.grouped, Groups.lookup_grouped]

theorem fate_of_mem (h : Reviewed d ps r) {fate : Fate} {license : String}
    (hm : license ∈ (r.groups fate).keys) : d.fate? license = some fate := by
  rw [h.keys_eq, List.mem_eraseDups] at hm
  obtain ⟨p, hp, rfl⟩ := List.mem_map.1 hm
  exact (mem_withFate.1 hp).2

/-- The licenses of a class are those of the listing that have this fate. -/
theorem mem_keys_iff (h : Reviewed d ps r) {fate : Fate} {license : String} :
    license ∈ (r.groups fate).keys ↔
      license ∈ ps.map Prod.snd ∧ d.fate? license = some fate := by
  rw [h.keys_eq, List.mem_eraseDups, List.mem_map, List.mem_map]
  constructor
  · rintro ⟨p, hp, rfl⟩
    obtain ⟨hmem, hfate⟩ := mem_withFate.1 hp
    exact ⟨⟨p, hmem, rfl⟩, hfate⟩
  · rintro ⟨⟨p, hp, rfl⟩, hfate⟩
    exact ⟨p, mem_withFate.2 ⟨hp, hfate⟩, rfl⟩

/-- A class is empty if no license of the listing has its fate. -/
theorem isEmpty_groups (h : Reviewed d ps r) (fate : Fate) :
    (r.groups fate).isEmpty = false ↔ ∃ p ∈ ps, d.fate? p.2 = some fate := by
  rw [← Bool.not_eq_true, Ordered.isEmpty_iff]
  constructor
  · intro hkeys
    obtain ⟨license, hlicense⟩ := not_forall_not.1 hkeys
    obtain ⟨hmem, hfate⟩ := h.mem_keys_iff.1 hlicense
    obtain ⟨p, hp, rfl⟩ := List.mem_map.1 hmem
    exact ⟨p, hp, hfate⟩
  · rintro ⟨p, hp, hfate⟩ hnone
    exact hnone p.2 (h.mem_keys_iff.2 ⟨List.mem_map_of_mem hp, hfate⟩)

theorem nil_notMem_values (h : Reviewed d ps r) (fate : Fate) :
    [] ∉ (r.groups fate).values := by
  intro hm
  rw [Ordered.values, h.grouped, Groups.grouped, List.map_map] at hm
  obtain ⟨license, hlicense, hnil⟩ := List.mem_map.1 hm
  exact Groups.dependenciesOf_eq_nil_iff.1 hnil (List.mem_eraseDups.1 hlicense)

/-- The invariant at the end of a listing gives everything there is to say about the report. -/
theorem classified {listing : Listing} (h : Reviewed d listing.pairs r)
    (hread : ∀ p ∈ listing.pairs, ∃ e, Expr.parse p.2 = .ok e) : Classified d listing r where
  once dependency := by
    rw [h.dependencies.count_eq]
    exact List.Nodup.count listing.distinct
  placed := by
    intro p hp
    obtain ⟨e, he⟩ := hread p hp
    obtain ⟨fate, hf⟩ := d.exists_fate he
    have hmem : p ∈ d.withFate fate listing.pairs := mem_withFate.2 ⟨hp, hf⟩
    refine ⟨fate, _, hf, ?_, Groups.mem_dependenciesOf.2 hmem⟩
    rw [h.find?_eq, if_pos (List.mem_map_of_mem hmem)]
  apart := by
    intro fate other license hfate hother
    have hsame := (h.fate_of_mem hfate).symm.trans (h.fate_of_mem hother)
    exact Option.some.inj hsame
  inhabited := h.nil_notMem_values
  keys_eq := h.keys_eq
  list_eq := by
    intro fate license ds hds
    rw [h.find?_eq] at hds
    split at hds
    · next hm =>
      obtain ⟨p, hp, rfl⟩ := List.mem_map.1 hm
      obtain rfl := Option.some.inj hds
      exact dependenciesOf_withFate (mem_withFate.1 hp).2 _
    · cases hds
  total := by
    refine ⟨?_, rfl⟩
    rw [r.total_summary, h.dependencies.length_eq, List.length_map]
    rfl

end Reviewed

/-- If some license cannot be read, a review ends with the error of the first one and without a
report. Otherwise there is a report, and it classifies the listing. -/
theorem review_classifies (d : Decisions) (listing : Listing) :
    ((∃ p ∈ listing.pairs, ∃ source, Expr.parse p.2 = .error source) →
        ∃ before p after source, listing.pairs = before ++ p :: after ∧
          (∀ q ∈ before, ∃ e, Expr.parse q.2 = .ok e) ∧ Expr.parse p.2 = .error source ∧
          d.review listing = .error (.parse p.2 source)) ∧
      ((∀ p ∈ listing.pairs, ∃ e, Expr.parse p.2 = .ok e) →
        ∃ r, d.review listing = .ok r ∧ Classified d listing r) := by
  constructor
  · rintro ⟨p, hp, source, hsource⟩
    rcases readable_or_first_unreadable listing.pairs with
      hall | ⟨before, q, after, source', hsplit, hbefore, hq⟩
    · obtain ⟨e, he⟩ := hall p hp
      rw [hsource] at he
      cases he
    · refine ⟨before, q, after, source', hsplit, hbefore, hq, ?_⟩
      obtain ⟨r, -, hrun⟩ := reviewFrom_append (.empty d) hbefore
      rw [review, hsplit, hrun, d.reviewFrom_cons_of_parse_error hq]
  · intro hread
    obtain ⟨r, hr, hrun⟩ := reviewFrom_append (.empty d) hread
    refine ⟨r, ?_, Reviewed.classified hr hread⟩
    rw [review, ← listing.pairs.append_nil, hrun, reviewFrom]

end LicenseAudit.Decisions
