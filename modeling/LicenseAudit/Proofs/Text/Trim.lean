import LicenseAudit.Text.Blank
import Mathlib.Data.List.TakeWhile

/-!
# Trimmed texts

Trimming drops the blanks in front and then those at the end. Each of the two stops at the first
character that is no blank, so it does not look across such a character.

Results:
1. `trim_eq_nil_iff`: a text of which nothing is left is blank.
2. `trim_pad`: blanks around a text do not change its trimmed form.
3. `trim_around`: a character that is no blank separates what is dropped in front from what is
   dropped at the end.
-/

namespace LicenseAudit.Text

/-- The text without the blanks at its end. -/
def dropBlankEnd (cs : List Char) : List Char := (dropBlank cs.reverse).reverse

theorem trim_eq (cs : List Char) : trim cs = dropBlankEnd (dropBlank cs) := rfl

/-! ## Blanks in front and at the end -/

theorem dropBlank_append_of_blank {a : List Char} (ha : allBlank a = true) (cs : List Char) :
    dropBlank (a ++ cs) = dropBlank cs :=
  List.dropWhile_append_of_pos (List.all_eq_true.1 ha)

theorem dropBlank_eq_nil_iff {cs : List Char} : dropBlank cs = [] ↔ allBlank cs = true := by
  rw [dropBlank, List.dropWhile_eq_nil_iff, allBlank, List.all_eq_true]

theorem exists_blank_append_dropBlank (cs : List Char) :
    ∃ a, allBlank a = true ∧ cs = a ++ dropBlank cs := by
  refine ⟨cs.takeWhile isBlank, ?_, List.takeWhile_append_dropWhile.symm⟩
  exact List.all_eq_true.2 fun c hc => List.mem_takeWhile_imp hc

theorem dropBlank_append_cons {c : Char} (hc : isBlank c = false) (before after : List Char) :
    dropBlank (before ++ c :: after) = dropBlank before ++ c :: after := by
  rw [dropBlank, List.dropWhile_append]
  split
  · next hnil =>
    rw [List.dropWhile_cons_of_neg (by simp [hc])]
    rw [dropBlank, List.isEmpty_iff.1 hnil, List.nil_append]
  · rfl

theorem dropBlankEnd_append_of_blank {b : List Char} (hb : allBlank b = true) (cs : List Char) :
    dropBlankEnd (cs ++ b) = dropBlankEnd cs := by
  have hrev : allBlank b.reverse = true := by rwa [allBlank, List.all_reverse]
  rw [dropBlankEnd, List.reverse_append, dropBlank_append_of_blank hrev, dropBlankEnd]

theorem exists_dropBlankEnd_append_blank (cs : List Char) :
    ∃ b, allBlank b = true ∧ cs = dropBlankEnd cs ++ b := by
  obtain ⟨a, ha, hcs⟩ := exists_blank_append_dropBlank cs.reverse
  refine ⟨a.reverse, by rwa [allBlank, List.all_reverse], ?_⟩
  rw [dropBlankEnd, ← List.reverse_append, ← hcs, List.reverse_reverse]

theorem dropBlankEnd_append_cons {c : Char} (hc : isBlank c = false) (before after : List Char) :
    dropBlankEnd (before ++ c :: after) = before ++ c :: dropBlankEnd after := by
  rw [dropBlankEnd, List.reverse_append, List.reverse_cons, List.append_assoc, List.singleton_append,
    dropBlank_append_cons hc, List.reverse_append, List.reverse_cons, List.reverse_reverse,
    List.append_assoc, List.singleton_append, dropBlankEnd]

/-! ## Both ends -/

theorem trim_eq_nil_iff {cs : List Char} : trim cs = [] ↔ allBlank cs = true := by
  rw [trim, List.reverse_eq_nil_iff, dropBlank_eq_nil_iff, allBlank, List.all_reverse, ← allBlank]
  constructor
  · intro h
    obtain ⟨a, ha, hcs⟩ := exists_blank_append_dropBlank cs
    rw [hcs, allBlank, List.all_append, ← allBlank, ← allBlank, ha, h]
    rfl
  · intro h
    rw [dropBlank_eq_nil_iff.2 h]
    rfl

/-- Blanks around a text do not change its trimmed form. -/
theorem trim_pad {a b : List Char} (ha : allBlank a = true) (hb : allBlank b = true)
    (cs : List Char) : trim (a ++ cs ++ b) = trim cs := by
  rw [trim_eq, List.append_assoc, dropBlank_append_of_blank ha]
  by_cases hcs : allBlank cs = true
  · have hall : allBlank (cs ++ b) = true := by
      rw [allBlank, List.all_append, ← allBlank, ← allBlank, hcs, hb]
      rfl
    rw [dropBlank_eq_nil_iff.2 hall, trim_eq_nil_iff.2 hcs]
    rfl
  · have hne : dropBlank cs ≠ [] := fun h => hcs (dropBlank_eq_nil_iff.1 h)
    have hfront : dropBlank (cs ++ b) = dropBlank cs ++ b := by
      unfold dropBlank at hne ⊢
      rw [List.dropWhile_append, if_neg (mt List.isEmpty_iff.1 hne)]
    rw [hfront, dropBlankEnd_append_of_blank hb, trim_eq]

theorem trim_dropBlank (cs : List Char) : trim (dropBlank cs) = trim cs := by
  obtain ⟨a, ha, hcs⟩ := exists_blank_append_dropBlank cs
  have := trim_pad ha (b := []) rfl (dropBlank cs)
  rw [List.append_nil, ← hcs] at this
  exact this.symm

theorem trim_dropBlankEnd (cs : List Char) : trim (dropBlankEnd cs) = trim cs := by
  obtain ⟨b, hb, hcs⟩ := exists_dropBlankEnd_append_blank cs
  have := trim_pad (a := []) rfl hb (dropBlankEnd cs)
  rw [List.nil_append, ← hcs] at this
  exact this.symm

/-- A character that is no blank separates the two ends of a text. -/
theorem trim_around {c : Char} (hc : isBlank c = false) (before after : List Char) :
    trim (before ++ c :: after) = dropBlank before ++ c :: dropBlankEnd after := by
  rw [trim_eq, dropBlank_append_cons hc, dropBlankEnd_append_cons hc]

theorem trim_toList_of_trimmed {s : String} (h : trimmed s = s) : trim s.toList = s.toList := by
  have := congrArg String.toList h
  rwa [trimmed, String.toList_ofList] at this

end LicenseAudit.Text
