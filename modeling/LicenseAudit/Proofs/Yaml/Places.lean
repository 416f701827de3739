import LicenseAudit.Yaml.Written

/-!
# Characters and places

What is written as it is can be read, and of its white space only the space and three line breaks
are left. A place is told by its mark: behind a line break its column is 0, and behind characters
without one it is so many columns further.

Results:
1. `isAllowed_of_printable`: what is written as it is may stand in a stream.
2. `toToken_atToken`: a token stands where it starts.
3. `advance_lineFeed`: behind a line feed a line starts, which is a fresh place.
-/

namespace LicenseAudit.Yaml

/-! ## Characters that are written as they are -/

section

variable {c : Char}

theorem isAllowed_of_printable (h : isPrintable c = true) : isAllowed c = true := by
  simp only [isPrintable, isAllowed, Bool.or_eq_true, Bool.and_eq_true, decide_eq_true_eq] at *
  omega

theorem ne_tab_of_printable (h : isPrintable c = true) : c ≠ '\t' := by
  rintro rfl
  revert h
  decide

theorem ne_return_of_printable (h : isPrintable c = true) : c ≠ '\r' := by
  rintro rfl
  revert h
  decide

theorem ne_byteOrderMark_of_printable (h : isPrintable c = true) : c ≠ '\uFEFF' := by
  rintro rfl
  revert h
  decide

/-- The only blank that is written as it is. -/
theorem isBlank_of_printable (h : isPrintable c = true) : isBlank c = decide (c = ' ') := by
  simp [isBlank, ne_tab_of_printable h]

/-- A line break that is written as it is stands for itself. -/
theorem breakText_of_printable (h : isPrintable c = true) (hb : isBreak c = true) :
    breakText c = [c] := by
  simp only [isBreak, Bool.or_eq_true, decide_eq_true_eq] at hb
  rcases hb with (((rfl | rfl) | rfl) | rfl) | rfl
  · rfl
  · revert h
    decide
  · revert h
    decide
  · rfl
  · rfl

theorem isBlank_eq_false_of_break (h : isBreak c = true) : isBlank c = false := by
  simp only [isBreak, Bool.or_eq_true, decide_eq_true_eq] at h
  rcases h with (((rfl | rfl) | rfl) | rfl) | rfl <;> rfl

end

/-! ## Marks -/

namespace Mark

variable {m : Mark} {c : Char}

theorem next_of_not_break (h : isBreak c = false) : m.next c = m.skip 1 := by
  simp [next, h, skip]

theorem column_next_of_break (h : isBreak c = true) : (m.next c).column = 0 := by
  simp [next, h]

@[simp] theorem skip_zero : m.skip 0 = m := rfl

@[simp] theorem skip_skip (a b : Nat) : (m.skip a).skip b = m.skip (a + b) := by
  simp [skip, Nat.add_assoc]

@[simp] theorem column_skip (n : Nat) : (m.skip n).column = m.column + n := rfl

/-- The place behind some characters. -/
def after (m : Mark) (cs : List Char) : Mark := cs.foldl next m

@[simp] theorem after_nil : m.after [] = m := rfl

@[simp] theorem after_cons (c : Char) (cs : List Char) : m.after (c :: cs) = (m.next c).after cs :=
  rfl

theorem after_append (cs ds : List Char) : m.after (cs ++ ds) = (m.after cs).after ds :=
  List.foldl_append

theorem after_of_not_break {cs : List Char} (h : ∀ c ∈ cs, isBreak c = false) :
    m.after cs = m.skip cs.length := by
  induction cs generalizing m with
  | nil => rfl
  | cons c cs ih =>
    obtain ⟨hc, hcs⟩ := List.forall_mem_cons.1 h
    rw [after_cons, next_of_not_break hc, ih hcs, skip_skip, Nat.add_comm, List.length_cons]

end Mark

/-! ## Tokens -/

/-- A token may start with this character: it is not skipped as white space or as a comment. -/
structure StartsToken (c : Char) : Prop where
  not_break : isBreak c = false
  not_blank : isBlank c = false
  not_comment : c ≠ '#'
  not_mark : c ≠ '\uFEFF'

instance (c : Char) : Decidable (StartsToken c) :=
  decidable_of_iff (isBreak c = false ∧ isBlank c = false ∧ c ≠ '#' ∧ c ≠ '\uFEFF')
    ⟨fun h => ⟨h.1, h.2.1, h.2.2.1, h.2.2.2⟩, fun h => ⟨h.1, h.2, h.3, h.4⟩⟩

/-- Nothing follows, or a token. -/
def AtToken (cs : List Char) : Prop := ∀ c ∈ cs.head?, StartsToken c

variable {flow fresh : Bool} {m : Mark} {c : Char} {cs : List Char}

theorem atToken_cons (h : StartsToken c) : AtToken (c :: cs) := by
  intro d hd
  obtain rfl := Option.some.inj hd
  exact h

theorem toToken_atToken (h : AtToken cs) : toToken flow fresh false m cs = ⟨m, fresh, cs⟩ := by
  cases cs with
  | nil => rfl
  | cons c cs =>
    have hc : StartsToken c := h c rfl
    have hblank := hc.not_blank
    simp only [isBlank, Bool.or_eq_false_iff, decide_eq_false_iff_not] at hblank
    simp [toToken, hc.not_break, hblank.1, hblank.2, hc.not_comment, hc.not_mark]

theorem toToken_space (h : AtToken cs) :
    toToken flow fresh false m (' ' :: cs) = ⟨m.skip 1, fresh, cs⟩ := by
  rw [toToken]
  exact toToken_atToken h

theorem toToken_lineFeed (h : AtToken cs) :
    toToken false fresh false m ('\n' :: cs) = ⟨m.next '\n', true, cs⟩ := by
  rw [toToken]
  simp only [isBreak, decide_true, Bool.true_or, if_true, Bool.not_false, Bool.or_true]
  exact toToken_atToken h

theorem advance_atToken (h : AtToken cs) : Place.advance ⟨m, fresh, cs⟩ flow = ⟨m, fresh, cs⟩ :=
  toToken_atToken h

theorem advance_lineFeed (h : AtToken cs) :
    Place.advance ⟨m, fresh, '\n' :: cs⟩ false = ⟨m.next '\n', true, cs⟩ :=
  toToken_lineFeed h

end LicenseAudit.Yaml
