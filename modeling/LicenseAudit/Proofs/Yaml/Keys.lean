import LicenseAudit.Proofs.Yaml.Literal
import LicenseAudit.Yaml.Mapping

/-!
# Keys read back

A key is written in one of four styles, and in each of them it is read back as it is. Which one it
is depends on the text only, and so does the form of the entry: a key on one line with its colon is
short enough to be read as one, and what stands between a question mark and the colon on the next
line may be of any length.

Results:
1. `writes_keyText`: the ways in which a key may be written.
2. `length_keyText_le`: a key on one line is not too long.
3. `readNode_simpleKey`, `readNode_announcedKey`: keys of both forms as nodes.
-/

namespace LicenseAudit.Yaml

variable {m : Mark} {fresh : Bool} {tags : TagPrefixes} {c : Char} {cs rest : List Char}

/-! ## Styles -/

/-- A text may be written in a style as `written`. -/
inductive Writes (cs : List Char) : Style → List Char → Prop
  | plain : plainAllowed cs = true → Writes cs .plain cs
  | singleQuoted : IsQuotable cs → Writes cs .singleQuoted ('\'' :: singleBody false cs ++ ['\''])
  | doubleQuoted : Writes cs .doubleQuoted ('"' :: cs.flatMap escape ++ ['"'])
  | literal : '\n' ∈ cs → (∀ c ∈ cs, isPrintable c = true) → Writes cs .literal (literalText cs)

/-- Every key is written in a way that its text allows. -/
theorem writes_keyText (cs : List Char) : Writes cs (keyStyle cs) (keyText cs) := by
  by_cases hfeed : '\n' ∈ cs
  · by_cases hliteral : literalAllowed cs = true
    · have hstyle : keyStyle cs = .literal := by simp [keyStyle, hfeed, hliteral]
      have hprint : ∀ c ∈ cs, isPrintable c = true := by
        simp only [literalAllowed, Bool.and_eq_true, List.all_eq_true] at hliteral
        exact hliteral.1.1
      rw [keyText, hstyle]
      exact .literal hfeed hprint
    · have hstyle : keyStyle cs = .doubleQuoted := by simp [keyStyle, hfeed, hliteral]
      rw [keyText, hstyle]
      exact .doubleQuoted
  · by_cases hplain : (plainAllowed cs && !isAmbiguous cs) = true
    · have hstyle : keyStyle cs = .plain := by
        rw [keyStyle, if_neg (by simpa using hfeed), if_pos hplain]
      rw [keyText, hstyle]
      rw [Bool.and_eq_true] at hplain
      exact .plain hplain.1
    · by_cases hsingle : singleAllowed cs = true
      · have hstyle : keyStyle cs = .singleQuoted := by
          rw [keyStyle, if_neg (by simpa using hfeed), if_neg hplain, if_pos hsingle]
        rw [keyText, hstyle]
        simp only [singleAllowed, Bool.and_eq_true, Bool.not_eq_true', List.all_eq_true] at hsingle
        exact .singleQuoted ⟨hsingle.1.1, hfeed, hsingle.1.2, hsingle.2⟩
      · have hstyle : keyStyle cs = .doubleQuoted := by
          rw [keyStyle, if_neg (by simpa using hfeed), if_neg hplain, if_neg hsingle]
        rw [keyText, hstyle]
        exact .doubleQuoted

/-- A key starts with a token, which is no directive and no brace. -/
theorem Writes.head {style : Style} {written : List Char} (h : Writes cs style written) :
    ∃ c ds, written = c :: ds ∧ StartsToken c ∧ c ≠ '%' ∧ c ≠ '{' := by
  cases h with
  | plain h =>
    obtain ⟨c, ds, rfl⟩ : ∃ c ds, cs = c :: ds := by
      cases cs with
      | nil => cases h
      | cons c ds => exact ⟨c, ds, rfl⟩
    have hwords := isWords_of_plainAllowed h
    obtain ⟨hspace, hother, -⟩ := start_of_plainAllowed h
    have hprint := hwords.printable c List.mem_cons_self
    rw [startsOther, Bool.or_eq_false_iff] at hother
    have hindicator := hother.1
    simp only [isIndicator, isFlowMark, Bool.or_eq_false_iff, decide_eq_false_iff_not] at hindicator
    refine ⟨c, ds, rfl, ⟨hwords.not_break c List.mem_cons_self, ?_, by tauto,
      ne_byteOrderMark_of_printable hprint⟩, by tauto, by tauto⟩
    rw [isBlank_of_printable hprint, decide_eq_false hspace]
  | singleQuoted h => exact ⟨'\'', _, rfl, by decide, by decide, by decide⟩
  | doubleQuoted => exact ⟨'"', _, rfl, by decide, by decide, by decide⟩
  | literal hfeed hprint => exact ⟨'|', _, rfl, by decide, by decide, by decide⟩

theorem Writes.atToken {style : Style} {written : List Char} (h : Writes cs style written) :
    AtToken (written ++ rest) := by
  obtain ⟨c, ds, rfl, hc, -⟩ := h.head
  exact atToken_cons hc

/-- A key does not look like an announcement of a key. -/
theorem Writes.not_announced {style : Style} {written : List Char} (h : Writes cs style written) :
    Place.atIndicator ⟨m, fresh, written ++ rest⟩ '?' = false := by
  cases h with
  | plain h =>
    cases cs with
    | nil => cases h
    | cons c cs =>
      have hstart : startsPlain false (c :: (cs ++ rest)) = true := startsPlain_of_plainAllowed h
      by_cases hc : c = '?'
      · subst hc
        simpa [startsPlain, Place.atIndicator] using hstart
      · simp [Place.atIndicator, hc]
  | singleQuoted h => rfl
  | doubleQuoted => rfl
  | literal hfeed hprint => rfl

/-- A key does not look like a marker if its colon or the end of its line follows. -/
theorem Writes.not_marker {style : Style} {written : List Char} (h : Writes cs style written)
    (hrest : ∀ d ∈ rest.head?, d ≠ '-' ∧ d ≠ '.') : startsMarker (written ++ rest) = false := by
  cases h with
  | plain h =>
    cases cs with
    | nil => cases h
    | cons c cs =>
      exact startsMarker_append (List.cons_ne_nil c cs) (start_of_plainAllowed h).2.2 hrest
  | singleQuoted h => rfl
  | doubleQuoted => rfl
  | literal hfeed hprint => rfl

/-! ## Lengths -/

theorem length_le_utf8ByteSize (cs : List Char) : cs.length ≤ (String.ofList cs).utf8ByteSize := by
  induction cs with
  | nil => exact Nat.zero_le _
  | cons c cs ih =>
    have := c.utf8Size_pos
    rw [String.ofList_cons, String.utf8ByteSize_append, String.utf8ByteSize_singleton,
      List.length_cons]
    omega

theorem length_hexDigits (width n : Nat) : (Text.hexDigits width n).length = width := by
  induction width generalizing n with
  | zero => rfl
  | succ width ih => rw [Text.hexDigits, List.length_append, ih, List.length_singleton]

theorem length_escape_le (c : Char) : (escape c).length ≤ 6 := by
  rcases escape_cases c with hshort | ⟨-, -, hescape⟩ | ⟨e, he, -, hescape⟩
  · have hall : (shortEscapes.all fun d => (escape d).length ≤ 6) = true := rfl
    exact of_decide_eq_true (List.all_eq_true.1 hall c hshort)
  · simp [hescape]
  · simp only [List.mem_cons, List.not_mem_nil, or_false] at he
    rcases he with rfl | rfl <;> simp [hescape, length_hexDigits]

theorem length_flatMap_escape_le (cs : List Char) : (cs.flatMap escape).length ≤ 6 * cs.length := by
  induction cs with
  | nil => simp
  | cons c cs ih =>
    have := length_escape_le c
    rw [List.flatMap_cons, List.length_append, List.length_cons]
    omega

theorem length_singleBody_le (h : ∀ c ∈ cs, isBreak c = false) :
    (singleBody false cs).length ≤ 2 * cs.length := by
  induction cs with
  | nil => simp [singleBody]
  | cons c cs ih =>
    obtain ⟨hc, hcs⟩ := List.forall_mem_cons.1 h
    have := ih hcs
    rw [singleBody, hc]
    by_cases hquote : c = '\'' <;> simp [hquote] <;> omega

theorem not_break_of_simple (h : isSimpleKey cs = true) : ∀ c ∈ cs, isBreak c = false := by
  simp only [isSimpleKey, Bool.and_eq_true, Bool.not_eq_true', List.any_eq_false] at h
  exact fun c hc => Bool.eq_false_iff.2 (h.1 c hc)

theorem length_le_of_simple (h : isSimpleKey cs = true) : cs.length ≤ simpleKeyBytes := by
  simp only [isSimpleKey, Bool.and_eq_true, decide_eq_true_eq] at h
  exact Nat.le_trans (length_le_utf8ByteSize cs) h.2

/-- What is written for a key on one line leaves its colon near enough. -/
theorem length_keyText_le (h : isSimpleKey cs = true) : (keyText cs).length ≤ maxKeyLength := by
  have hlength := length_le_of_simple h
  have hbreak := not_break_of_simple h
  rw [simpleKeyBytes] at hlength
  rw [maxKeyLength]
  have hwrites := writes_keyText cs
  generalize keyStyle cs = style at hwrites
  generalize keyText cs = written at *
  cases hwrites with
  | plain => omega
  | singleQuoted =>
    have := length_singleBody_le hbreak
    simp only [List.length_append, List.length_cons, List.length_nil]
    omega
  | doubleQuoted =>
    have := length_flatMap_escape_le cs
    simp only [List.length_append, List.length_cons, List.length_nil]
    omega
  | literal hfeed => exact absurd (hbreak _ hfeed) (by decide)

/-! ## Keys as nodes -/

/-- The node of a key. -/
def keyNode (cs : List Char) : Node := .scalar none ⟨keyStyle cs, cs, none⟩

theorem not_break_singleBody (h : ∀ c ∈ cs, isBreak c = false) :
    ∀ c ∈ singleBody false cs, isBreak c = false := by
  intro c hc
  obtain hmem | rfl := mem_singleBody hc
  · exact h c hmem
  · rfl

/-- A key on one line is read up to its colon. -/
theorem readNode_simpleKey {floor : Nat} (h : isSimpleKey cs = true) (hfloor : floor ≤ 1) :
    readNode tags false floor ⟨m, fresh, keyText cs ++ ':' :: ' ' :: rest⟩ =
      some (keyNode cs, ⟨m.skip (keyText cs).length, false, ':' :: ' ' :: rest⟩) := by
  have hbreak := not_break_of_simple h
  have hwrites := writes_keyText cs
  rw [keyNode]
  generalize keyStyle cs = style at *
  generalize keyText cs = written at *
  cases hwrites with
  | plain hplain => exact readNode_plain_colon hplain (Nat.le_trans hfloor (Nat.le_add_left 1 _))
  | singleQuoted hsingle =>
    have hlength : ('\'' :: singleBody false cs ++ ['\'']).length =
        1 + ((singleBody false cs).length + 1) := by
      simp [Nat.add_comm]
    rw [List.append_assoc, List.singleton_append, readNode_single hsingle (by simp),
      Mark.after_of_not_break (not_break_singleBody hbreak), Mark.skip_skip, Mark.skip_skip, hlength]
  | doubleQuoted =>
    rw [List.append_assoc, List.singleton_append, readNode_double]
    simp
  | literal hfeed => exact absurd (hbreak _ hfeed) (by decide)

theorem endLine_concat {written : List Char} (hc : isBreak c = false) :
    endLine (written ++ [c]) = ['\n'] := by
  simp [endLine, hc]

/-- An announced key is read with the end of its line, up to the next one. -/
theorem readNode_announcedKey (tags : TagPrefixes) (m : Mark) (fresh : Bool) (cs : List Char)
    (hrest : AtToken rest) :
    ∃ q m', readNode tags false 1
        ⟨m, fresh, keyText cs ++ (endLine (keyText cs) ++ rest)⟩ = some (keyNode cs, q) ∧
      q.advance false = ⟨m', true, rest⟩ ∧ m'.column = 0 := by
  have hwrites := writes_keyText cs
  rw [keyNode]
  generalize keyStyle cs = style at *
  generalize keyText cs = written at *
  cases hwrites with
  | plain hplain =>
    have hend : endLine cs = ['\n'] := by
      obtain ⟨front, c, rfl⟩ := (List.eq_nil_or_concat' cs).resolve_left (by rintro rfl; cases hplain)
      have hwords := isWords_of_plainAllowed hplain
      exact endLine_concat (hwords.not_break c (by simp))
    rw [hend, List.singleton_append,
      readNode_plain_line hplain (Nat.le_add_left 1 _) Nat.one_pos hrest]
    exact ⟨_, _, rfl, advance_atToken hrest, Mark.column_next_of_break rfl⟩
  | singleQuoted hsingle =>
    rw [endLine_concat rfl, List.append_assoc, List.singleton_append, List.singleton_append,
      readNode_single hsingle (by simp)]
    exact ⟨_, _, rfl, advance_lineFeed hrest, Mark.column_next_of_break rfl⟩
  | doubleQuoted =>
    rw [endLine_concat rfl, List.append_assoc, List.singleton_append, List.singleton_append,
      readNode_double]
    exact ⟨_, _, rfl, advance_lineFeed hrest, Mark.column_next_of_break rfl⟩
  | literal hfeed hprint =>
    obtain ⟨m', hread, hcolumn⟩ :=
      readNode_literal tags m fresh (List.ne_nil_of_mem hfeed) hprint hrest
    exact ⟨_, m', hread, advance_atToken hrest, hcolumn⟩

end LicenseAudit.Yaml
