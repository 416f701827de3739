import LicenseAudit.Proofs.Listing
import LicenseAudit.Proofs.Report.Grouping
import LicenseAudit.Report.Json
import Mathlib.Data.List.Induction
import Mathlib.Data.List.Nodup
import Mathlib.Data.List.Perm.Subperm
import Mathlib.Data.String.Basic

/-!
# Maps without the order of their keys

Two maps are the same if each finds what the other one finds, whatever the order in which their keys
were inserted. Sorting a map by its keys picks one of all the maps that are the same: its keys are
distinct, so no order is left open.

Results:
1. `same_iff_perm`: the same maps are those with the same pairs in some order.
2. `sorted_eq_iff`: two maps are the same if they are equal once sorted.
3. `ofList_pairs`: a map is what its pairs insert.
4. `keys_ofList`: the keys of inserted pairs, in the order of their first appearance.
5. `insertAll_ofList`: of pairs that are inserted into a map, only their own map matters.
-/

namespace LicenseAudit.Ordered

variable {β : Type} {a b : Ordered β}

/-! ## Definitions -/

/-- As many keys, and the value of each of them is found in the other map. -/
def Same (a b : Ordered β) : Prop := a.size = b.size ∧ ∀ p ∈ a.pairs, b.find? p.1 = some p.2

instance [DecidableEq β] (a b : Ordered β) : Decidable (a.Same b) :=
  inferInstanceAs (Decidable (_ ∧ _))

/-- The map with its keys sorted. -/
def sorted (m : Ordered β) : Ordered β where
  pairs := m.sortedPairs
  distinct := (m.perm_sortedPairs.map Prod.fst).nodup_iff.2 m.distinct

/-- The map with pairs inserted one after another. -/
def insertAll (m : Ordered β) (ps : List (String × β)) : Ordered β :=
  ps.foldl (fun m p => m.insert p.1 p.2) m

/-! ## Pairs -/

theorem ext_pairs (h : a.pairs = b.pairs) : a = b := by
  cases a
  cases b
  cases h
  rfl

/-- A key has one value. -/
theorem eq_of_key_eq {p q : String × β} (hp : p ∈ a.pairs) (hq : q ∈ a.pairs) (h : p.1 = q.1) :
    p = q := by
  have hfind : a.find? p.1 = some p.2 := mem_pairs_iff.1 hp
  rw [h, mem_pairs_iff.1 hq] at hfind
  exact Prod.ext h (Option.some.inj hfind).symm

theorem same_iff_perm : a.Same b ↔ a.pairs.Perm b.pairs := by
  constructor
  · rintro ⟨hsize, hfind⟩
    have hsub : a.pairs ⊆ b.pairs := fun p hp => mem_pairs_iff.2 (hfind p hp)
    exact (List.subperm_of_subset a.distinct.of_map hsub).perm_of_length_le hsize.ge
  · exact fun h => ⟨h.length_eq, fun p hp => mem_pairs_iff.1 (h.subset hp)⟩

/-! ## Sorting -/

theorem pairwise_sortedPairs (m : Ordered β) : m.sortedPairs.Pairwise fun p q => p.1 ≤ q.1 := by
  let le : String × β → String × β → Bool := fun p q => p.1 ≤ q.1
  have htrans : ∀ p q r, le p q = true → le q r = true → le p r = true := fun _ _ _ hpq hqr =>
    decide_eq_true (String.le_trans (of_decide_eq_true hpq) (of_decide_eq_true hqr))
  have htotal : ∀ p q, (le p q || le q p) = true := fun p q => by
    simpa [le] using String.le_total p.1 q.1
  exact (List.pairwise_mergeSort htrans htotal m.pairs).imp of_decide_eq_true

/-- The same pairs can be sorted in one way only. -/
theorem sorted_eq_iff : a.sorted = b.sorted ↔ a.Same b := by
  rw [same_iff_perm]
  constructor
  · intro h
    have hpairs : a.sortedPairs = b.sortedPairs := congrArg pairs h
    exact a.perm_sortedPairs.symm.trans (hpairs ▸ b.perm_sortedPairs)
  · intro h
    have hperm : a.sortedPairs.Perm b.sortedPairs :=
      (a.perm_sortedPairs.trans h).trans b.perm_sortedPairs.symm
    refine ext_pairs (hperm.eq_of_pairwise (fun p q hp hq hle hge => ?_) a.pairwise_sortedPairs
      b.pairwise_sortedPairs)
    exact eq_of_key_eq (a := a.sorted) hp (hperm.symm.subset hq) (String.le_antisymm hle hge)

theorem sorted_same (m : Ordered β) : m.sorted.Same m := same_iff_perm.2 m.perm_sortedPairs

/-! ## Insertions -/

/-- Pairs with new keys are added behind those that are there. -/
theorem pairs_foldl_insert {m : Ordered β} {ps : List (String × β)}
    (h : ((m.pairs ++ ps).map Prod.fst).Nodup) :
    (ps.foldl (fun m p => m.insert p.1 p.2) m).pairs = m.pairs ++ ps := by
  induction ps generalizing m with
  | nil => exact (List.append_nil _).symm
  | cons p ps ih =>
    have hnew : p.1 ∉ m.pairs.map Prod.fst := by
      rw [List.map_append, List.nodup_append] at h
      exact fun hmem => h.2.2 _ hmem _ List.mem_cons_self rfl
    have hinsert : (m.insert p.1 p.2).pairs = m.pairs ++ [p] := alterPairs_of_notMem hnew _
    rw [List.append_cons, ← hinsert] at h
    rw [List.foldl_cons, ih h, hinsert, List.append_assoc, List.singleton_append]

/-- A map is what its pairs insert. -/
theorem ofList_pairs (m : Ordered β) : ofList m.pairs = m :=
  ext_pairs (pairs_foldl_insert (m := empty) m.distinct)

theorem insertAll_empty (ps : List (String × β)) : empty.insertAll ps = ofList ps := rfl

theorem insertAll_append (m : Ordered β) (ps qs : List (String × β)) :
    m.insertAll (ps ++ qs) = (m.insertAll ps).insertAll qs :=
  List.foldl_append

theorem insertAll_concat (m : Ordered β) (ps : List (String × β)) (p : String × β) :
    m.insertAll (ps ++ [p]) = (m.insertAll ps).insert p.1 p.2 :=
  m.insertAll_append ps [p]

theorem ofList_concat (ps : List (String × β)) (p : String × β) :
    ofList (ps ++ [p]) = (ofList ps).insert p.1 p.2 :=
  insertAll_concat empty ps p

theorem keys_ofList (ps : List (String × β)) :
    (ofList ps).keys = (ps.map Prod.fst).eraseDups := by
  induction ps using List.reverseRecOn with
  | nil => rfl
  | append_singleton ps p ih =>
    rw [ofList_concat, keys_insert, ih, List.map_append, List.map_singleton, eraseDups_concat]
    simp only [List.mem_eraseDups]

/-- New keys come last, in the order of their first appearance. -/
theorem keys_insertAll (m : Ordered β) (ps : List (String × β)) :
    (m.insertAll ps).keys = m.keys ++ (ofList ps).keys.filter (· ∉ m.keys) := by
  induction ps using List.reverseRecOn with
  | nil => exact (List.append_nil m.keys).symm
  | append_singleton ps p ih =>
    rw [insertAll_concat, ofList_concat, keys_insert, keys_insert, ih]
    by_cases hm : p.1 ∈ m.keys
    · by_cases hp : p.1 ∈ (ofList ps).keys <;> simp [hm, hp]
    · by_cases hp : p.1 ∈ (ofList ps).keys <;> simp [hm, hp]

/-- An inserted value hides the one from before. -/
theorem find?_insertAll (m : Ordered β) (ps : List (String × β)) (key : String) :
    (m.insertAll ps).find? key = ((ofList ps).find? key).or (m.find? key) := by
  induction ps using List.reverseRecOn with
  | nil => rfl
  | append_singleton ps p ih =>
    rw [insertAll_concat, ofList_concat]
    by_cases h : key = p.1
    · rw [h, find?_insert_self, find?_insert_self, Option.some_or]
    · rw [find?_insert_of_ne _ h, find?_insert_of_ne _ h, ih]

theorem ext_keys (hkeys : a.keys = b.keys) (hfind : ∀ key, a.find? key = b.find? key) : a = b := by
  have hlen : a.pairs.length = b.pairs.length := by
    simpa [keys] using congrArg List.length hkeys
  refine ext_pairs (List.ext_getElem hlen fun i hi hi' => ?_)
  -- The keys agree at this place, and a key has one value in the second map.
  have hkey : a.pairs[i].1 = b.pairs[i].1 := by
    have := List.getElem_of_eq hkeys (by rwa [keys, List.length_map] : i < a.keys.length)
    simpa [keys] using this
  have hmem : a.pairs[i] ∈ b.pairs :=
    mem_pairs_iff.2 ((hfind _).symm.trans (mem_pairs_iff.1 (List.getElem_mem hi)))
  exact eq_of_key_eq hmem (List.getElem_mem hi') hkey

/-- Of pairs that are inserted into a map, only their own map matters. -/
theorem insertAll_ofList (m : Ordered β) (ps : List (String × β)) :
    m.insertAll (ofList ps).pairs = m.insertAll ps := by
  refine ext_keys ?_ fun key => ?_
  · rw [keys_insertAll, keys_insertAll, ofList_pairs]
  · rw [find?_insertAll, find?_insertAll, ofList_pairs]

end LicenseAudit.Ordered
