import LicenseAudit.Proofs.Text.Repetitions
import LicenseAudit.Report.Basic
import Mathlib.Data.List.Basic

/-!
# Grouping by license

Dependencies are recorded one after another, each at the end of the list of its license. What comes
out can be said without the steps: the licenses in the order of their first appearance, each with its
dependencies in the order in which they were recorded.

Results:
1. `alterPairs_map`: altering a map that is a function on its keys alters that function.
2. `Groups.pairs_add`: grouped pairs stay grouped when one more dependency is added.
3. `Report.groups_record`: a record changes one class only.
4. `Report.dependencies_record`: a record adds one dependency and loses none.
-/

namespace LicenseAudit

namespace Ordered

variable {β : Type}

theorem isEmpty_iff {m : Ordered β} : m.isEmpty = true ↔ ∀ key, key ∉ m.keys := by
  rw [isEmpty, List.isEmpty_iff, keys, ← List.eq_nil_iff_forall_not_mem, List.map_eq_nil_iff]

theorem lookup_map (key : String) (value : String → β) (keys : List String) :
    lookup key (keys.map fun k => (k, value k)) = if key ∈ keys then some (value key) else none := by
  induction keys with
  | nil => rfl
  | cons k keys ih =>
    rw [List.map_cons, lookup, ih]
    by_cases hk : k = key
    · subst hk
      simp
    · simp [hk, Ne.symm hk]

theorem alterPairs_of_notMem {key : String} {ps : List (String × β)}
    (h : key ∉ ps.map Prod.fst) (f : Option β → β) :
    alterPairs key f ps = ps ++ [(key, f none)] := by
  induction ps with
  | nil => rfl
  | cons p ps ih =>
    rw [List.map_cons, List.mem_cons, not_or] at h
    rw [alterPairs, if_neg (Ne.symm h.1), ih h.2, List.cons_append]

theorem alterPairs_map {key : String} {keys : List String} (h : key ∈ keys) (hn : keys.Nodup)
    (f : Option β → β) (value : String → β) :
    alterPairs key f (keys.map fun k => (k, value k)) =
      keys.map fun k => (k, if k = key then f (some (value key)) else value k) := by
  induction keys with
  | nil => exact absurd h List.not_mem_nil
  | cons k keys ih =>
    obtain ⟨hk, hkeys⟩ := List.nodup_cons.1 hn
    rw [List.map_cons, alterPairs, List.map_cons]
    by_cases heq : k = key
    · subst heq
      have hrest : ∀ other ∈ keys,
          (other, value other) = (other, if other = k then f (some (value k)) else value other) := by
        intro other hother
        have hne : other ≠ k := by
          rintro rfl
          exact hk hother
        rw [if_neg hne]
      rw [if_pos rfl, if_pos rfl, List.map_congr_left hrest]
    · rw [if_neg heq, if_neg heq, ih ((List.mem_cons.1 h).resolve_left (Ne.symm heq)) hkeys]

end Ordered

namespace Groups

/-! ## Grouped pairs -/

/-- The dependencies of a license in a list of pairs of a dependency and its license. -/
def dependenciesOf (license : String) (ps : List (String × String)) : List String :=
  (ps.filter fun p => p.2 = license).map Prod.fst

/-- Pairs of a dependency and its license, grouped by license. -/
def grouped (ps : List (String × String)) : List (String × List String) :=
  (ps.map Prod.snd).eraseDups.map fun license => (license, dependenciesOf license ps)

theorem dependenciesOf_append (license : String) (ps qs : List (String × String)) :
    dependenciesOf license (ps ++ qs) = dependenciesOf license ps ++ dependenciesOf license qs := by
  rw [dependenciesOf, List.filter_append, List.map_append]
  rfl

theorem dependenciesOf_singleton (license : String) (p : String × String) :
    dependenciesOf license [p] = if license = p.2 then [p.1] else [] := by
  by_cases h : license = p.2
  · simp [dependenciesOf, h]
  · simp [dependenciesOf, h, Ne.symm h]

theorem mem_dependenciesOf {dependency license : String} {ps : List (String × String)} :
    dependency ∈ dependenciesOf license ps ↔ (dependency, license) ∈ ps := by
  simp [dependenciesOf]

theorem dependenciesOf_eq_nil_iff {license : String} {ps : List (String × String)} :
    dependenciesOf license ps = [] ↔ license ∉ ps.map Prod.snd := by
  rw [List.eq_nil_iff_forall_not_mem]
  constructor
  · intro h hm
    obtain ⟨p, hp, rfl⟩ := List.mem_map.1 hm
    exact h p.1 (mem_dependenciesOf.2 hp)
  · intro h dependency hd
    exact h (List.mem_map.2 ⟨_, mem_dependenciesOf.1 hd, rfl⟩)

theorem keys_grouped (ps : List (String × String)) :
    (grouped ps).map Prod.fst = (ps.map Prod.snd).eraseDups := by
  rw [grouped, List.map_map]
  exact List.map_id' _

theorem lookup_grouped (license : String) (ps : List (String × String)) :
    Ordered.lookup license (grouped ps) =
      if license ∈ ps.map Prod.snd then some (dependenciesOf license ps) else none := by
  rw [grouped, Ordered.lookup_map]
  simp only [List.mem_eraseDups]

/-- Grouping leaves no license without dependencies. -/
theorem ne_nil_of_mem_grouped {p : String × List String} {ps : List (String × String)}
    (h : p ∈ grouped ps) : p.2 ≠ [] := by
  rw [grouped, List.mem_map] at h
  obtain ⟨license, hlicense, rfl⟩ := h
  rw [ne_eq, dependenciesOf_eq_nil_iff, not_not]
  exact List.mem_eraseDups.1 hlicense

/-- One more dependency at the end of the list of its license keeps groups grouped. -/
theorem pairs_add {g : Groups} {ps : List (String × String)} (h : g.pairs = grouped ps)
    (dependency license : String) :
    (g.add license dependency).pairs = grouped (ps ++ [(dependency, license)]) := by
  have hn : (ps.map Prod.snd).eraseDups.Nodup := by
    rw [← keys_grouped, ← h]
    exact g.distinct
  have hof : ∀ other, dependenciesOf other (ps ++ [(dependency, license)]) =
      dependenciesOf other ps ++ if other = license then [dependency] else [] := by
    intro other
    rw [dependenciesOf_append, dependenciesOf_singleton]
  change Ordered.alterPairs license (fun ds => ds.getD [] ++ [dependency]) g.pairs = _
  rw [h, grouped, grouped, List.map_append, List.map_singleton, eraseDups_concat]
  by_cases hm : license ∈ ps.map Prod.snd
  · rw [if_pos hm, Ordered.alterPairs_map (List.mem_eraseDups.2 hm) hn]
    refine List.map_congr_left fun other _ => ?_
    rw [hof]
    by_cases heq : other = license
    · simp [heq]
    · simp [heq]
  · have hnew : license ∉ (grouped ps).map Prod.fst := by
      rwa [keys_grouped, List.mem_eraseDups]
    rw [if_neg hm, ← grouped, Ordered.alterPairs_of_notMem hnew, grouped, List.map_append,
      List.map_singleton, hof, dependenciesOf_eq_nil_iff.2 hm, if_pos rfl]
    have hrest : ∀ other ∈ (ps.map Prod.snd).eraseDups,
        (other, dependenciesOf other ps) =
          (other, dependenciesOf other (ps ++ [(dependency, license)])) := by
      intro other hother
      have hne : other ≠ license := by
        rintro rfl
        exact hm (List.mem_eraseDups.1 hother)
      rw [hof, if_neg hne, List.append_nil]
    rw [List.map_congr_left hrest]
    rfl

/-! ## All dependencies -/

theorem flatten_alterPairs (license dependency : String) (ps : List (String × List String)) :
    ((Ordered.alterPairs license (fun ds => ds.getD [] ++ [dependency]) ps).map
      Prod.snd).flatten.Perm (dependency :: (ps.map Prod.snd).flatten) := by
  induction ps with
  | nil => exact List.Perm.refl _
  | cons p ps ih =>
    obtain ⟨k, ds⟩ := p
    rw [Ordered.alterPairs]
    split
    · simp only [List.map_cons, List.flatten_cons, Option.getD_some, List.append_assoc,
        List.singleton_append]
      exact List.perm_middle
    · simp only [List.map_cons, List.flatten_cons]
      exact (ih.append_left ds).trans List.perm_middle

theorem flatten_values_add (g : Groups) (license dependency : String) :
    (g.add license dependency).values.flatten.Perm (dependency :: g.values.flatten) :=
  flatten_alterPairs license dependency g.pairs

theorem countIn_eq_length (ps : List (String × List String)) :
    countIn ps = (ps.map Prod.snd).flatten.length := by
  induction ps with
  | nil => rfl
  | cons p ps ih => rw [countIn, ih, List.map_cons, List.flatten_cons, List.length_append]

theorem count_eq_length (g : Groups) : g.count = g.values.flatten.length :=
  countIn_eq_length g.pairs

/-- Groups in which no license is without dependencies count none of them only if they are empty. -/
theorem count_eq_zero_iff {g : Groups} (h : ∀ p ∈ g.pairs, p.2 ≠ []) :
    g.count = 0 ↔ g.isEmpty = true := by
  rw [count_eq_length, List.length_eq_zero_iff, List.flatten_eq_nil_iff, Ordered.values,
    List.forall_mem_map, Ordered.isEmpty, List.isEmpty_iff]
  constructor
  · exact fun hnil => List.eq_nil_iff_forall_not_mem.2 fun p hp => h p hp (hnil p hp)
  · intro hnil p hp
    rw [hnil] at hp
    cases hp

end Groups

/-! ## The classes of a report -/

/-- What becomes of a dependency. -/
inductive Fate where
  | allowed
  | disallowed
  | unknown
  deriving DecidableEq

namespace Report

/-- The groups of a class. -/
def groups (r : Report) : Fate → Groups
  | .allowed => r.allowed
  | .disallowed => r.disallowed
  | .unknown => r.unknown

/-- Adds a dependency to a class. -/
def record (r : Report) (fate : Fate) (license dependency : String) : Report :=
  match fate with
  | .allowed => r.recordAllowed license dependency
  | .disallowed => r.recordDisallowed license dependency
  | .unknown => r.recordUnknown license dependency

/-- The dependencies of all classes. -/
def dependencies (r : Report) : List String :=
  r.allowed.values.flatten ++ r.disallowed.values.flatten ++ r.unknown.values.flatten

theorem groups_record (r : Report) (fate other : Fate) (license dependency : String) :
    (r.record fate license dependency).groups other =
      if other = fate then (r.groups other).add license dependency else r.groups other := by
  cases fate <;> cases other <;> rfl

theorem dependencies_record (r : Report) (fate : Fate) (license dependency : String) :
    (r.record fate license dependency).dependencies.Perm (dependency :: r.dependencies) := by
  cases fate with
  | allowed =>
    exact ((Groups.flatten_values_add r.allowed license dependency).append_right _).append_right _
  | disallowed =>
    have h := (Groups.flatten_values_add r.disallowed license dependency).append_left
      r.allowed.values.flatten
    exact (h.trans List.perm_middle).append_right _
  | unknown =>
    have h := (Groups.flatten_values_add r.unknown license dependency).append_left
      (r.allowed.values.flatten ++ r.disallowed.values.flatten)
    exact h.trans List.perm_middle

theorem total_summary (r : Report) : r.summary.total = r.dependencies.length := by
  rw [dependencies, List.length_append, List.length_append, Summary.total, summary,
    Groups.count_eq_length, Groups.count_eq_length, Groups.count_eq_length]

end Report

end LicenseAudit
