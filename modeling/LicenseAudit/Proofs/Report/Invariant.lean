import LicenseAudit.Proofs.Report.History

/-!
# What a report knows of its history

Three groups of dependencies grow by recordings that may come in any order and may repeat licenses
and dependencies, in one class or across the classes. Everything that can be asked of the report is
an answer about its history: which licenses a class has, which dependencies each of them has, how
many there are, and whether the check fails.

Results:
1. `groups_apply`, `count_apply`, `total_apply`: what one recording changes and what it counts.
2. `count_foldl_apply`, `total_foldl_apply`: what the recordings of a history count.
3. `follows_ofHistory`: the report of a history answers as the history says.
4. `ofHistory_invariant`: this, what one more recording leaves as it was, and what no later one
   takes back.
-/

namespace LicenseAudit

namespace Report

/-! ## Definitions -/

/-- The number of dependencies in a class. -/
def Summary.of (s : Summary) : Fate → Nat
  | .allowed => s.allowed
  | .disallowed => s.disallowed
  | .unknown => s.unknown

/-- The report answers as the history says. -/
structure Follows (history : List Recording) (r : Report) : Prop where
  /-- A license has the dependencies that were recorded for it in the class, in order and with
  repetitions, and no list if there are none. -/
  find?_eq : ∀ fate license, (r.groups fate).find? license =
    if license ∈ (Recording.recordedFor fate history).map Prod.snd then
      some (Groups.dependenciesOf license (Recording.recordedFor fate history)) else none
  /-- The licenses of a class stand in the order in which they were first recorded for it. -/
  keys_eq : ∀ fate,
    (r.groups fate).keys = ((Recording.recordedFor fate history).map Prod.snd).eraseDups
  /-- No license is without dependencies. -/
  inhabited : ∀ fate, [] ∉ (r.groups fate).values
  /-- The summary counts the recordings for a class. -/
  of_eq : ∀ fate, r.summary.of fate = (Recording.recordedFor fate history).length
  /-- The summary counts all recordings. -/
  total_eq : r.summary.total = history.length
  /-- A class is empty if the summary counts none in it. -/
  isEmpty_iff : ∀ fate, (r.groups fate).isEmpty = false ↔ 0 < r.summary.of fate
  hasDisallowed_iff : r.hasDisallowed = true ↔ 0 < r.summary.disallowed
  hasUnknown_iff : r.hasUnknown = true ↔ 0 < r.summary.unknown
  /-- Disallowed dependencies make the check fail, and unknown ones if they are denied. -/
  fails_iff : ∀ policy,
    r.fails policy = true ↔ 0 < r.summary.disallowed ∨ policy = .deny ∧ 0 < r.summary.unknown

theorem of_summary (r : Report) (fate : Fate) : r.summary.of fate = (r.groups fate).count := by
  cases fate <;> rfl

/-! ## One recording -/

theorem groups_apply (r : Report) (e : Recording) (fate : Fate) :
    (r.apply e).groups fate =
      if fate = e.fate then (r.groups fate).add e.pair.2 e.pair.1 else r.groups fate := by
  rw [apply_eq_record, groups_record]

theorem count_apply (r : Report) (e : Recording) (fate : Fate) :
    ((r.apply e).groups fate).count =
      (r.groups fate).count + (Recording.recordedFor fate [e]).length := by
  rw [groups_apply, Recording.recordedFor_singleton]
  split
  · exact Groups.count_add _ _ _
  · rfl

theorem total_apply (r : Report) (e : Recording) :
    (r.apply e).summary.total = r.summary.total + 1 := by
  rw [apply_eq_record, total_summary, total_summary, (r.dependencies_record _ _ _).length_eq,
    List.length_cons]

/-! ## A history of recordings -/

theorem count_foldl_apply (r : Report) (later : List Recording) (fate : Fate) :
    ((later.foldl apply r).groups fate).count =
      (r.groups fate).count + (Recording.recordedFor fate later).length := by
  induction later generalizing r with
  | nil => rfl
  | cons e later ih =>
    have hcons := Recording.recordedFor_append fate [e] later
    rw [List.singleton_append] at hcons
    rw [List.foldl_cons, ih, count_apply, hcons, List.length_append, Nat.add_assoc]

theorem total_foldl_apply (r : Report) (later : List Recording) :
    (later.foldl apply r).summary.total = r.summary.total + later.length := by
  induction later generalizing r with
  | nil => rfl
  | cons e later ih =>
    rw [List.foldl_cons, ih, total_apply, List.length_cons]
    omega

theorem follows_ofHistory (history : List Recording) : Follows history (ofHistory history) := by
  have hrecorded := recorded_ofHistory history
  have hempty : ∀ fate, ((ofHistory history).groups fate).isEmpty = false ↔
      0 < (ofHistory history).summary.of fate := by
    intro fate
    rw [of_summary, ← Bool.not_eq_true, ← Groups.count_eq_zero_iff (hrecorded.inhabited fate),
      Nat.pos_iff_ne_zero]
  have hdisallowed : (ofHistory history).hasDisallowed = true ↔
      0 < (ofHistory history).summary.disallowed := by
    rw [hasDisallowed, Bool.not_eq_true']
    exact hempty .disallowed
  have hunknown : (ofHistory history).hasUnknown = true ↔
      0 < (ofHistory history).summary.unknown := by
    rw [hasUnknown, Bool.not_eq_true']
    exact hempty .unknown
  exact {
    find?_eq := fun fate license => by rw [Ordered.find?, hrecorded fate, Groups.lookup_grouped]
    keys_eq := fun fate => by rw [Ordered.keys, hrecorded fate, Groups.keys_grouped]
    inhabited := by
      intro fate hmem
      obtain ⟨p, hp, hnil⟩ := List.mem_map.1 hmem
      exact hrecorded.inhabited fate p hp hnil
    of_eq := by
      intro fate
      rw [of_summary, ofHistory, count_foldl_apply]
      cases fate <;> exact Nat.zero_add _
    total_eq := by
      rw [ofHistory, total_foldl_apply]
      exact Nat.zero_add _
    isEmpty_iff := hempty
    hasDisallowed_iff := hdisallowed
    hasUnknown_iff := hunknown
    fails_iff := by
      intro policy
      rw [fails, Bool.or_eq_true, Bool.and_eq_true, decide_eq_true_eq, hdisallowed, hunknown] }

theorem ofHistory_append (history later : List Recording) :
    ofHistory (history ++ later) = later.foldl apply (ofHistory history) :=
  List.foldl_append

/-- No recording takes a dependency out of a class. -/
theorem of_le_of_append (history later : List Recording) (fate : Fate) :
    (ofHistory history).summary.of fate ≤ (ofHistory (history ++ later)).summary.of fate := by
  rw [of_summary, of_summary, ofHistory_append, count_foldl_apply]
  exact Nat.le_add_right _ _

/-- Whatever the history, the report holds and counts what was recorded and fails accordingly. One
more recording changes only the class it names, and what makes the check fail is never taken
back. -/
theorem ofHistory_invariant (history : List Recording) :
    Follows history (ofHistory history) ∧
      (∀ e fate, fate ≠ e.fate →
        (ofHistory (history ++ [e])).groups fate = (ofHistory history).groups fate) ∧
      ∀ later,
        ((ofHistory history).hasDisallowed = true →
          (ofHistory (history ++ later)).hasDisallowed = true) ∧
        ((ofHistory history).hasUnknown = true →
          (ofHistory (history ++ later)).hasUnknown = true) ∧
        ∀ policy, (ofHistory history).fails policy = true →
          (ofHistory (history ++ later)).fails policy = true := by
  have hnow := follows_ofHistory history
  refine ⟨hnow, fun e fate hfate => ?_, fun later => ?_⟩
  · rw [ofHistory_append, List.foldl_cons, List.foldl_nil, groups_apply, if_neg hfate]
  · have hthen := follows_ofHistory (history ++ later)
    have hdisallowed : 0 < (ofHistory history).summary.disallowed →
        0 < (ofHistory (history ++ later)).summary.disallowed :=
      fun h => Nat.lt_of_lt_of_le h (of_le_of_append history later .disallowed)
    have hunknown : 0 < (ofHistory history).summary.unknown →
        0 < (ofHistory (history ++ later)).summary.unknown :=
      fun h => Nat.lt_of_lt_of_le h (of_le_of_append history later .unknown)
    rw [hnow.hasDisallowed_iff, hthen.hasDisallowed_iff, hnow.hasUnknown_iff, hthen.hasUnknown_iff]
    refine ⟨hdisallowed, hunknown, fun policy => ?_⟩
    rw [hnow.fails_iff, hthen.fails_iff]
    exact Or.imp hdisallowed (And.imp_right hunknown)

/-- A license may be in two classes, and a dependency may be recorded twice. -/
example :
    let r := ofHistory [.decision "MIT" "b" true, .unknown "MIT" "b", .allowed "ISC" "c",
      .allowed "MIT" "a", .decision "MIT" "b" true]
    r.allowed.pairs = [("MIT", ["b", "a", "b"]), ("ISC", ["c"])] ∧
      r.unknown.pairs = [("MIT", ["b"])] ∧ r.summary.total = 5 := by
  decide

end Report

end LicenseAudit
