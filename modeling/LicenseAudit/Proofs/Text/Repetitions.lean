import Mathlib.Data.List.Induction

/-!
# Texts without repetitions

`List.eraseDups` keeps each text of a list where it stands first.

Results:
1. `eraseDups_concat`: a text at the end stays if it stands nowhere before.
2. `find?_eraseDups`: what is found first is the same.
3. `pairwise_eraseDups`: of texts at places in order, those that stay are in the order of their first
   places.
-/

namespace LicenseAudit

theorem eraseDups_concat (as : List String) (a : String) :
    (as ++ [a]).eraseDups = if a ∈ as then as.eraseDups else as.eraseDups ++ [a] := by
  rw [List.eraseDups_append]
  by_cases h : a ∈ as
  · simp [h, List.removeAll]
  · simp [h, List.removeAll, List.eraseDups_cons]

/-- Leaving out repetitions does not change what is found first. -/
theorem find?_eraseDups (q : String → Bool) (texts : List String) :
    texts.eraseDups.find? q = texts.find? q := by
  induction texts using List.reverseRecOn with
  | nil => rfl
  | append_singleton texts text ih =>
    rw [eraseDups_concat, List.find?_append]
    split
    · next hmem =>
      -- If the repetition would be found, then the text itself is found before it.
      rw [ih]
      cases hfound : texts.find? q with
      | some other => rfl
      | none => simpa using List.find?_eq_none.1 hfound text hmem
    · rw [List.find?_append, ih]

/-- Each text that stays has a place before all places of those that stay behind it. -/
theorem pairwise_eraseDups {α : Type} {before : α → α → Prop} {placed : List (α × String)}
    (h : placed.Pairwise fun a b => before a.1 b.1) :
    (placed.map Prod.snd).eraseDups.Pairwise fun s t =>
      ∃ p, (p, s) ∈ placed ∧ ∀ q, (q, t) ∈ placed → before p q := by
  induction placed using List.reverseRecOn with
  | nil => exact List.Pairwise.nil
  | append_singleton placed last ih =>
    obtain ⟨place, text⟩ := last
    obtain ⟨hplaced, -, hlast⟩ := List.pairwise_append.1 h
    have hbefore : ∀ p s, (p, s) ∈ placed → before p place := fun p s hp =>
      hlast (p, s) hp _ List.mem_cons_self
    have hold : (placed.map Prod.snd).eraseDups.Pairwise fun s t =>
        ∃ p, (p, s) ∈ placed ++ [(place, text)] ∧
          ∀ q, (q, t) ∈ placed ++ [(place, text)] → before p q := by
      refine (ih hplaced).imp fun ⟨p, hp, hq⟩ => ⟨p, List.mem_append_left _ hp, fun q hmem => ?_⟩
      obtain hmem | hmem := List.mem_append.1 hmem
      · exact hq q hmem
      · obtain ⟨rfl, rfl⟩ := Prod.mk.inj (List.mem_singleton.1 hmem)
        exact hbefore p _ hp
    rw [List.map_append, List.map_singleton, eraseDups_concat]
    split
    · exact hold
    · next hnew =>
      refine List.pairwise_append.2 ⟨hold, List.pairwise_singleton _ _, fun s hs t ht => ?_⟩
      obtain rfl := List.mem_singleton.1 ht
      obtain ⟨⟨p, s⟩, hp, rfl⟩ := List.mem_map.1 (List.mem_eraseDups.1 hs)
      refine ⟨p, List.mem_append_left _ hp, fun q hmem => ?_⟩
      obtain hmem | hmem := List.mem_append.1 hmem
      · exact absurd (List.mem_map_of_mem hmem) hnew
      · obtain ⟨rfl, -⟩ := Prod.mk.inj (List.mem_singleton.1 hmem)
        exact hbefore p s hp

end LicenseAudit
