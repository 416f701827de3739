/-!
# Decisions

A decision allows or disallows one license name. A set of decisions is a list of names in code point
order, each with its decision; two sets with the same look-ups are the same list.

Main statements: recording a decision decides that name (`find?_record_self`) and no other
(`find?_record_of_ne`), and look-ups determine the set (`ext_find?`).
-/

namespace LicenseAudit

/-- The decisions recorded so far, sorted by name. -/
structure Decisions where
  entries : List (String × Bool)
  sorted : entries.Pairwise fun a b => a.1 < b.1

namespace Decisions

instance : DecidableEq Decisions := fun a b =>
  decidable_of_iff (a.entries = b.entries)
    ⟨fun h => by cases a; cases b; cases h; rfl, congrArg entries⟩

/-- No decisions. -/
def empty : Decisions := ⟨[], List.Pairwise.nil⟩

/-- The decision of the first entry for a name. -/
def findIn (name : String) : List (String × Bool) → Option Bool
  | [] => none
  | (n, allowed) :: rest => if n = name then some allowed else findIn name rest

/-- The decision on a name. -/
def find? (d : Decisions) (name : String) : Option Bool := findIn name d.entries

/-- A decision on this name was recorded. -/
def decides (d : Decisions) (name : String) : Bool := (d.find? name).isSome

/-- The number of decisions. -/
def size (d : Decisions) : Nat := d.entries.length

/-- The entries with one put in its place; it replaces an earlier one for the same name. -/
def recordIn (name : String) (allowed : Bool) : List (String × Bool) → List (String × Bool)
  | [] => [(name, allowed)]
  | (n, b) :: rest =>
    if name < n then (name, allowed) :: (n, b) :: rest
    else if n = name then (name, allowed) :: rest
    else (n, b) :: recordIn name allowed rest

theorem mem_recordIn {name : String} {allowed : Bool} {es : List (String × Bool)}
    {p : String × Bool} (h : p ∈ recordIn name allowed es) : p = (name, allowed) ∨ p ∈ es := by
  induction es with
  | nil => exact Or.inl (List.mem_singleton.1 h)
  | cons e es ih =>
    obtain ⟨n, b⟩ := e
    rw [recordIn] at h
    split at h
    · exact List.mem_cons.1 h
    · split at h
      · exact (List.mem_cons.1 h).imp id (List.mem_cons_of_mem _)
      · rcases List.mem_cons.1 h with rfl | h
        · exact Or.inr List.mem_cons_self
        · exact (ih h).imp id (List.mem_cons_of_mem _)

theorem sorted_recordIn {name : String} {allowed : Bool} {es : List (String × Bool)}
    (h : es.Pairwise fun a b => a.1 < b.1) :
    (recordIn name allowed es).Pairwise fun a b => a.1 < b.1 := by
  induction es with
  | nil => simp [recordIn]
  | cons e es ih =>
    obtain ⟨n, b⟩ := e
    obtain ⟨hn, hes⟩ := List.pairwise_cons.1 h
    rw [recordIn]
    split
    · next hlt =>
      refine List.pairwise_cons.2 ⟨fun p hp => ?_, h⟩
      rcases List.mem_cons.1 hp with rfl | hp
      · exact hlt
      · exact String.lt_trans hlt (hn p hp)
    · next hnlt =>
      split
      · next heq => exact List.pairwise_cons.2 ⟨fun p hp => heq ▸ hn p hp, hes⟩
      · next hne =>
        refine List.pairwise_cons.2 ⟨fun p hp => ?_, ih hes⟩
        rcases mem_recordIn hp with rfl | hp
        · exact Classical.not_not.1 fun hc => hne (String.le_antisymm hnlt hc)
        · exact hn p hp

theorem findIn_recordIn_self (name : String) (allowed : Bool) (es : List (String × Bool)) :
    findIn name (recordIn name allowed es) = some allowed := by
  induction es with
  | nil => simp [recordIn, findIn]
  | cons e es ih =>
    obtain ⟨n, b⟩ := e
    rw [recordIn]
    split
    · simp [findIn]
    · split
      · simp [findIn]
      · next hne => simp [findIn, hne, ih]

theorem findIn_recordIn_of_ne {name other : String} (hne : other ≠ name) (allowed : Bool)
    (es : List (String × Bool)) : findIn other (recordIn name allowed es) = findIn other es := by
  induction es with
  | nil => simp [recordIn, findIn, Ne.symm hne]
  | cons e es ih =>
    obtain ⟨n, b⟩ := e
    rw [recordIn]
    split
    · simp [findIn, Ne.symm hne]
    · split
      · next heq =>
        subst heq
        simp [findIn, Ne.symm hne]
      · simp [findIn, ih]

/-- The decisions with one more, which replaces an earlier one on the same name. -/
def record (d : Decisions) (name : String) (allowed : Bool) : Decisions :=
  ⟨recordIn name allowed d.entries, sorted_recordIn d.sorted⟩

/-- The decisions with all pairs of a list recorded, one after another. -/
def recordAll (d : Decisions) (ps : List (String × Bool)) : Decisions :=
  ps.foldl (fun d p => d.record p.1 p.2) d

/-- The decisions of a list of pairs; the last one for a name holds. -/
def ofPairs (ps : List (String × Bool)) : Decisions := empty.recordAll ps

/-- The decisions that allow one list of names and disallow another one, which has the last word. -/
def ofLists (allowed disallowed : List String) : Decisions :=
  (empty.recordAll (allowed.map (·, true))).recordAll (disallowed.map (·, false))

theorem find?_record_self (d : Decisions) (name : String) (allowed : Bool) :
    (d.record name allowed).find? name = some allowed :=
  findIn_recordIn_self name allowed d.entries

theorem find?_record_of_ne (d : Decisions) {name other : String} (h : other ≠ name)
    (allowed : Bool) : (d.record name allowed).find? other = d.find? other :=
  findIn_recordIn_of_ne h allowed d.entries

theorem findIn_eq_none_of_lt {name : String} {es : List (String × Bool)}
    (h : ∀ p ∈ es, name < p.1) : findIn name es = none := by
  induction es with
  | nil => rfl
  | cons e es ih =>
    obtain ⟨n, b⟩ := e
    have hn : n ≠ name := fun heq => String.lt_irrefl name (heq ▸ h _ List.mem_cons_self)
    simpa [findIn, hn] using ih fun p hp => h p (List.mem_cons_of_mem _ hp)

theorem entries_eq_of_findIn {as bs : List (String × Bool)}
    (ha : as.Pairwise fun a b => a.1 < b.1) (hb : bs.Pairwise fun a b => a.1 < b.1)
    (h : ∀ name, findIn name as = findIn name bs) : as = bs := by
  induction as generalizing bs with
  | nil =>
    cases bs with
    | nil => rfl
    | cons b bs => exact absurd (h b.1) (by simp [findIn])
  | cons a as ih =>
    cases bs with
    | nil => exact absurd (h a.1) (by simp [findIn])
    | cons b bs =>
      obtain ⟨n, x⟩ := a
      obtain ⟨m, y⟩ := b
      obtain ⟨hn, has⟩ := List.pairwise_cons.1 ha
      obtain ⟨hm, hbs⟩ := List.pairwise_cons.1 hb
      have hnm : n = m := by
        rcases Classical.em (n < m) with hlt | hnlt
        · have := h n
          rw [@findIn_eq_none_of_lt n ((m, y) :: bs)] at this
          · simp [findIn] at this
          · intro p hp
            rcases List.mem_cons.1 hp with rfl | hp
            · exact hlt
            · exact String.lt_trans hlt (hm p hp)
        · rcases Classical.em (m < n) with hlt | hnlt'
          · have := h m
            rw [@findIn_eq_none_of_lt m ((n, x) :: as)] at this
            · simp [findIn] at this
            · intro p hp
              rcases List.mem_cons.1 hp with rfl | hp
              · exact hlt
              · exact String.lt_trans hlt (hn p hp)
          · exact String.le_antisymm hnlt' hnlt
      subst hnm
      have hxy : x = y := by simpa [findIn] using h n
      subst hxy
      have htail : ∀ name, findIn name as = findIn name bs := by
        intro name
        by_cases hname : n = name
        · subst hname
          rw [findIn_eq_none_of_lt hn, findIn_eq_none_of_lt hm]
        · simpa [findIn, hname] using h name
      rw [ih has hbs htail]

/-- Sets of decisions that agree on every name are equal. -/
theorem ext_find? {d e : Decisions} (h : ∀ name, d.find? name = e.find? name) : d = e := by
  obtain ⟨as, ha⟩ := d
  obtain ⟨bs, hb⟩ := e
  have : as = bs := entries_eq_of_findIn ha hb h
  subst this
  rfl

end Decisions

end LicenseAudit
