/-!
# Maps in insertion order

A key keeps the position of its first insertion and has the value of its last one. The view of such
a map is the list of its pairs.

Main statements: looking up the key just inserted finds the new value (`find?_insert_self`), other
keys are untouched (`find?_insert_of_ne`), and a new key comes last (`keys_insert`).
-/

namespace LicenseAudit

/-- Values under distinct text keys, in insertion order. -/
structure Ordered (β : Type) where
  pairs : List (String × β)
  distinct : (pairs.map Prod.fst).Nodup

namespace Ordered

variable {β : Type}

instance [DecidableEq β] : DecidableEq (Ordered β) := fun a b =>
  decidable_of_iff (a.pairs = b.pairs) ⟨fun h => by cases a; cases b; cases h; rfl, congrArg pairs⟩

/-- The map without keys. -/
def empty : Ordered β := ⟨[], List.nodup_nil⟩

/-- The keys in order. -/
def keys (m : Ordered β) : List String := m.pairs.map Prod.fst

/-- The values in the order of their keys. -/
def values (m : Ordered β) : List β := m.pairs.map Prod.snd

/-- The number of keys. -/
def size (m : Ordered β) : Nat := m.pairs.length

/-- No keys. -/
def isEmpty (m : Ordered β) : Bool := m.pairs.isEmpty

/-- The value of the first pair with a key. -/
def lookup (key : String) : List (String × β) → Option β
  | [] => none
  | (k, v) :: rest => if k = key then some v else lookup key rest

/-- The value under a key. -/
def find? (m : Ordered β) (key : String) : Option β := lookup key m.pairs

/-- The pairs with the value under `key` made from the one before; a new key comes last. -/
def alterPairs (key : String) (f : Option β → β) : List (String × β) → List (String × β)
  | [] => [(key, f none)]
  | (k, v) :: rest =>
    if k = key then (k, f (some v)) :: rest else (k, v) :: alterPairs key f rest

theorem keys_alterPairs (key : String) (f : Option β → β) (ps : List (String × β)) :
    (alterPairs key f ps).map Prod.fst =
      if key ∈ ps.map Prod.fst then ps.map Prod.fst else ps.map Prod.fst ++ [key] := by
  induction ps with
  | nil => simp [alterPairs]
  | cons p ps ih =>
    obtain ⟨k, v⟩ := p
    by_cases h : k = key
    · simp [alterPairs, h]
    · simp only [alterPairs, if_neg h, List.map_cons, ih, List.mem_cons, Ne.symm h, false_or]
      split <;> simp

theorem lookup_alterPairs_self (key : String) (f : Option β → β) (ps : List (String × β)) :
    lookup key (alterPairs key f ps) = some (f (lookup key ps)) := by
  induction ps with
  | nil => simp [alterPairs, lookup]
  | cons p ps ih =>
    obtain ⟨k, v⟩ := p
    by_cases h : k = key <;> simp [alterPairs, lookup, h, ih]

theorem lookup_alterPairs_of_ne {key other : String} (hne : other ≠ key) (f : Option β → β)
    (ps : List (String × β)) : lookup other (alterPairs key f ps) = lookup other ps := by
  induction ps with
  | nil => simp [alterPairs, lookup, Ne.symm hne]
  | cons p ps ih =>
    obtain ⟨k, v⟩ := p
    by_cases h : k = key
    · subst h
      simp [alterPairs, lookup, Ne.symm hne]
    · simp [alterPairs, lookup, h, ih]

/-- The map with the value under `key` made from the one before. -/
def alter (m : Ordered β) (key : String) (f : Option β → β) : Ordered β where
  pairs := alterPairs key f m.pairs
  distinct := by
    rw [keys_alterPairs]
    split
    · exact m.distinct
    · next h =>
      refine List.nodup_append.2 ⟨m.distinct, by simp, ?_⟩
      rintro a ha b hb rfl
      exact h (by simpa [List.mem_singleton.1 hb] using ha)

/-- The map with `value` under `key`. -/
def insert (m : Ordered β) (key : String) (value : β) : Ordered β := m.alter key fun _ => value

/-- The map of a list of pairs, inserted one after another. -/
def ofList (ps : List (String × β)) : Ordered β := ps.foldl (fun m p => m.insert p.1 p.2) empty

theorem keys_alter (m : Ordered β) (key : String) (f : Option β → β) :
    (m.alter key f).keys = if key ∈ m.keys then m.keys else m.keys ++ [key] :=
  keys_alterPairs key f m.pairs

theorem find?_alter_self (m : Ordered β) (key : String) (f : Option β → β) :
    (m.alter key f).find? key = some (f (m.find? key)) :=
  lookup_alterPairs_self key f m.pairs

theorem find?_alter_of_ne (m : Ordered β) {key other : String} (h : other ≠ key)
    (f : Option β → β) : (m.alter key f).find? other = m.find? other :=
  lookup_alterPairs_of_ne h f m.pairs

theorem keys_insert (m : Ordered β) (key : String) (value : β) :
    (m.insert key value).keys = if key ∈ m.keys then m.keys else m.keys ++ [key] :=
  m.keys_alter key _

theorem find?_insert_self (m : Ordered β) (key : String) (value : β) :
    (m.insert key value).find? key = some value :=
  m.find?_alter_self key _

theorem find?_insert_of_ne (m : Ordered β) {key other : String} (h : other ≠ key) (value : β) :
    (m.insert key value).find? other = m.find? other :=
  m.find?_alter_of_ne h _

end Ordered

end LicenseAudit
