import LicenseAudit.Proofs.Yaml.Quoted
import Mathlib.Data.List.Basic

/-!
# Literal blocks read back

A literal block is read line by line, and every line is kept with its break and with the breaks of
the blank lines after it. Together they are the text that was written. What may be wrong is only its
end: the indicator for the last breaks makes up for that.

Results:
1. `blockFrom_literalBody`: the lines that are read hold the text that was written.
2. `text_keep`, `text_clip`, `text_strip`: the text of some lines by the indicator for its end.
3. `readNode_literal`: a literal block as a node.
-/

namespace LicenseAudit.Yaml

variable {m : Mark} {c : Char} {cs rest : List Char}

/-! ## Lines and their text -/

namespace BlockLine

/-- Everything in a line and behind it. -/
def whole (l : BlockLine) : List Char := l.text ++ (l.lineBreak ++ l.blanks)

/-- The line ends with one break, and only breaks follow it. -/
structure IsClosed (l : BlockLine) : Prop where
  lineBreak : ∃ c, isBreak c = true ∧ l.lineBreak = [c]
  blanks : ∀ c ∈ l.blanks, isBreak c = true

end BlockLine

namespace BlockLines

/-- The lines hold a text: they are closed, and together they are the text. -/
structure Holds (b : BlockLines) (cs : List Char) : Prop where
  whole : b.blanks ++ b.lines.flatMap BlockLine.whole = cs
  blanks : ∀ c ∈ b.blanks, isBreak c = true
  closed : ∀ l ∈ b.lines, l.IsClosed

variable {b : BlockLines}

theorem Holds.addBlank (h : b.Holds cs) (hc : isBreak c = true) : (b.addBlank [c]).Holds (c :: cs) where
  whole := congrArg (c :: ·) h.whole
  blanks := List.forall_mem_cons.2 ⟨hc, h.blanks⟩
  closed := h.closed

theorem Holds.addLine (h : b.Holds cs) (hc : isBreak c = true) (text : List Char) :
    (b.addLine text [c]).Holds (text ++ c :: cs) where
  whole := by
    rw [← h.whole]
    simp [BlockLines.addLine, BlockLine.whole]
  blanks := fun _ hd => nomatch hd
  closed := List.forall_mem_cons.2 ⟨⟨⟨c, hc, rfl⟩, h.blanks⟩, h.closed⟩

end BlockLines

/-! ## Reading the lines -/

theorem blockFrom_cons {floor indentation widest : Nat} {line : Option (List Char)}
    (hc : c ≠ '\r') :
    blockFrom floor indentation widest m line (c :: cs) =
      match line with
      | some text =>
        if isBreak c then
          (blockFrom floor indentation widest (m.next c) none cs).map
            (.addLine text.reverse (breakText c))
        else blockFrom floor indentation widest (m.next c) (some (c :: text)) cs
      | none =>
        if c = ' ' && (indentation = 0 || m.column < indentation) then
          blockFrom floor indentation widest (m.next c) none cs
        else if c = '\t' && (indentation = 0 || m.column < indentation) then none
        else if isBreak c then
          (blockFrom floor indentation (max widest m.column) (m.next c) none cs).map
            (.addBlank (breakText c))
        else
          let found :=
            if indentation = 0 then max (max widest m.column) (max floor 1) else indentation
          if m.column = found then blockFrom floor found widest (m.next c) (some [c]) cs
          else some ⟨[], [], ⟨m, true, c :: cs⟩⟩ := by
  rw [blockFrom.eq_def]
  split
  · next heq => cases heq
  · next heq => exact absurd (List.cons.inj heq).1 hc
  · next heq =>
    obtain ⟨rfl, rfl⟩ := List.cons.inj heq
    rfl

section

variable {floor indentation widest : Nat} {text : List Char}

/-- A break ends the line that was begun. -/
theorem blockFrom_break (hprint : isPrintable c = true) (hbreak : isBreak c = true) :
    blockFrom floor indentation widest m (some text) (c :: cs) =
      (blockFrom floor indentation widest (m.next c) none cs).map (.addLine text.reverse [c]) := by
  rw [blockFrom_cons (ne_return_of_printable hprint), breakText_of_printable hprint hbreak]
  simp [hbreak]

theorem blockFrom_char (hprint : isPrintable c = true) (hbreak : isBreak c = false) :
    blockFrom floor indentation widest m (some text) (c :: cs) =
      blockFrom floor indentation widest (m.next c) (some (c :: text)) cs := by
  rw [blockFrom_cons (ne_return_of_printable hprint)]
  simp [hbreak]

/-- A break without a line is a blank line. -/
theorem blockFrom_blank (hprint : isPrintable c = true) (hbreak : isBreak c = true) :
    blockFrom floor indentation widest m none (c :: cs) =
      (blockFrom floor indentation (max widest m.column) (m.next c) none cs).map
        (.addBlank [c]) := by
  have hblank := isBlank_eq_false_of_break hbreak
  simp only [isBlank, Bool.or_eq_false_iff, decide_eq_false_iff_not] at hblank
  rw [blockFrom_cons (ne_return_of_printable hprint), breakText_of_printable hprint hbreak]
  simp [hblank, hbreak]

/-- Behind the indentation a line begins. If no indentation was given, the first line settles it,
and must not begin with a space of its own. -/
theorem blockFrom_indent (hprint : isPrintable c = true) (hbreak : isBreak c = false)
    (hcolumn : m.column = 0)
    (hindentation : indentation = 2 ∨ indentation = 0 ∧ widest = 0 ∧ c ≠ ' ') :
    blockFrom 1 indentation widest m none (indent ++ c :: cs) =
      blockFrom 1 2 widest ((m.skip 2).next c) (some [c]) cs := by
  have htab := ne_tab_of_printable hprint
  have hspace : ∀ m : Mark, m.next ' ' = m.skip 1 := fun m => Mark.next_of_not_break rfl
  simp only [indent, List.cons_append, List.nil_append]
  rw [blockFrom_cons (by decide), blockFrom_cons (by decide),
    blockFrom_cons (ne_return_of_printable hprint)]
  rcases hindentation with rfl | ⟨rfl, rfl, hc⟩
  · simp [hspace, hcolumn, htab, hbreak]
  · simp [hspace, hcolumn, htab, hbreak, hc]

/-- The lines end before a character at the start of a line. -/
theorem blockFrom_end (hcolumn : m.column = 0) (hindentation : indentation = 2)
    (hrest : AtToken rest) :
    blockFrom floor indentation widest m none rest = some ⟨[], [], ⟨m, true, rest⟩⟩ := by
  cases rest with
  | nil => rfl
  | cons c rest =>
    have hc : StartsToken c := hrest c rfl
    have hblank := hc.not_blank
    have hreturn : c ≠ '\r' := by
      rintro rfl
      exact absurd hc.not_break (by decide)
    simp only [isBlank, Bool.or_eq_false_iff, decide_eq_false_iff_not] at hblank
    simp [blockFrom_cons hreturn, hblank, hc.not_break, hcolumn, hindentation]

end

/-- Reads a text that ends with a break, or is empty between lines, up to a character at the start
of a line. A line that was begun belongs to the text. -/
theorem blockFrom_literalBody (widest : Nat) (line : Option (List Char))
    (hprint : ∀ c ∈ cs, isPrintable c = true) (hlast : ∀ c ∈ cs.getLast?, isBreak c = true)
    (hline : if line.isSome then cs ≠ [] else m.column = 0) (hrest : AtToken rest) :
    ∃ b m', blockFrom 1 2 widest m line (literalBody line.isNone cs ++ rest) = some b ∧
      b.Holds ((line.getD []).reverse ++ cs) ∧ b.place = ⟨m', true, rest⟩ ∧ m'.column = 0 := by
  induction cs generalizing m line widest with
  | nil =>
    cases line with
    | some text => exact absurd rfl hline
    | none =>
      exact ⟨_, m, blockFrom_end hline rfl hrest, ⟨rfl, by simp, by simp⟩, rfl, hline⟩
  | cons c cs ih =>
    have hc := hprint c List.mem_cons_self
    have hprint' : ∀ d ∈ cs, isPrintable d = true := fun d hd => hprint d (List.mem_cons_of_mem _ hd)
    have hlast' : ∀ d ∈ cs.getLast?, isBreak d = true := by
      cases cs with
      | nil => simp
      | cons d ds => simpa only [List.getLast?_cons_cons] using hlast
    by_cases hbreak : isBreak c = true
    · rw [literalBody, if_pos hbreak, List.cons_append]
      cases line with
      | some text =>
        obtain ⟨b, m', hb, hholds, hplace⟩ :=
          ih (m := m.next c) widest none hprint' hlast' (Mark.column_next_of_break hbreak)
        refine ⟨_, m', ?_, hholds.addLine hbreak text.reverse, hplace⟩
        exact (blockFrom_break hc hbreak).trans (congrArg _ hb)
      | none =>
        obtain ⟨b, m', hb, hholds, hplace⟩ :=
          ih (m := m.next c) (max widest m.column) none hprint' hlast'
            (Mark.column_next_of_break hbreak)
        refine ⟨_, m', ?_, hholds.addBlank hbreak, hplace⟩
        exact (blockFrom_blank hc hbreak).trans (congrArg _ hb)
    · have hbreak' : isBreak c = false := Bool.eq_false_iff.2 hbreak
      have hne : cs ≠ [] := by
        rintro rfl
        exact hbreak (hlast c rfl)
      rw [literalBody, if_neg hbreak]
      cases line with
      | some text =>
        obtain ⟨b, m', hb, hholds, hplace⟩ :=
          ih (m := m.next c) widest (some (c :: text)) hprint' hlast' hne
        refine ⟨b, m', ?_, by simpa using hholds, hplace⟩
        exact (blockFrom_char hc hbreak').trans hb
      | none =>
        obtain ⟨b, m', hb, hholds, hplace⟩ :=
          ih (m := (m.skip 2).next c) widest (some [c]) hprint' hlast' hne
        refine ⟨b, m', ?_, by simpa using hholds, hplace⟩
        rw [Option.isNone_none, if_pos rfl, List.append_assoc]
        exact (blockFrom_indent hc hbreak' hline (.inl rfl)).trans hb

/-! ## The end of the text -/

theorem joinLines_concat (chomping : Chomping) (ls : List BlockLine) (last : BlockLine) :
    joinLines false chomping (ls ++ [last]) =
      ls.flatMap BlockLine.whole ++ (last.text ++ chomped chomping last) := by
  induction ls with
  | nil => rfl
  | cons l ls ih =>
    obtain ⟨lower, more, hcons⟩ := List.exists_cons_of_ne_nil (List.concat_ne_nil last ls)
    rw [List.cons_append, hcons, joinLines, ← hcons, ih]
    simp [between, BlockLine.whole]

namespace BlockLines

variable {b : BlockLines} {x d : Char}

theorem text_of_lines {ls : List BlockLine} {last : BlockLine} (h : b.lines = ls ++ [last])
    (chomping : Chomping) :
    b.text false chomping =
      b.blanks ++ (ls.flatMap BlockLine.whole ++ (last.text ++ chomped chomping last)) := by
  rw [BlockLines.text, if_neg (by simp [h]), h, joinLines_concat]

/-- With all breaks kept nothing is lost. -/
theorem text_keep (h : b.Holds cs) : b.text false .keep = cs := by
  rw [← h.whole]
  rcases List.eq_nil_or_concat' b.lines with hnil | ⟨ls, last, hlines⟩
  · simp [BlockLines.text, hnil]
  · rw [text_of_lines hlines, hlines, List.flatMap_append, List.flatMap_singleton]
    rfl

/-- A text with a single break at its end has a last line with this break and no blank lines behind
it. -/
theorem Holds.exists_last (h : b.Holds (cs ++ [x, d])) (hx : isBreak x = false) :
    ∃ ls last, b.lines = ls ++ [last] ∧ last.lineBreak = [d] ∧ last.blanks = [] := by
  have hwhole := h.whole
  rcases List.eq_nil_or_concat' b.lines with hnil | ⟨ls, last, hlines⟩
  · rw [hnil, List.flatMap_nil, List.append_nil] at hwhole
    have := h.blanks x (by simp [hwhole])
    rw [hx] at this
    cases this
  · obtain ⟨⟨e, he, hbreak⟩, hblanks⟩ := h.closed last (by simp [hlines])
    refine ⟨ls, last, hlines, ?_⟩
    rw [hlines, List.flatMap_append, List.flatMap_singleton, BlockLine.whole, hbreak] at hwhole
    rcases List.eq_nil_or_concat' last.blanks with hnil | ⟨front, z, hz⟩
    · have hend : (b.blanks ++ (ls.flatMap BlockLine.whole ++ last.text)) ++ [e] =
          (cs ++ [x]) ++ [d] := by
        simpa [hnil] using hwhole
      rw [hbreak, (List.append_singleton_inj.1 hend).2]
      exact ⟨rfl, hnil⟩
    · -- Then the two last characters are breaks.
      have hend : (b.blanks ++ (ls.flatMap BlockLine.whole ++ (last.text ++ e :: front))) ++ [z] =
          (cs ++ [x]) ++ [d] := by
        simpa [hz] using hwhole
      have hlast := congrArg List.getLast? (List.append_singleton_inj.1 hend).1
      have hmem : x ∈ e :: front := by
        refine List.mem_of_getLast? ?_
        simpa [List.getLast?_append] using hlast
      have : isBreak x = true := by
        rcases List.mem_cons.1 hmem with rfl | hfront
        · exact he
        · exact hblanks x (by simp [hz, hfront])
      rw [hx] at this
      cases this

/-- A single break at the end is kept by clipping. -/
theorem text_clip (h : b.Holds (cs ++ [x, d])) (hx : isBreak x = false) :
    b.text false .clip = cs ++ [x, d] := by
  obtain ⟨ls, last, hlines, -, hblanks⟩ := h.exists_last hx
  rw [← text_keep h, text_of_lines hlines, text_of_lines hlines]
  simp [chomped, hblanks]

/-- A single break at the end is stripped. -/
theorem text_strip (h : b.Holds (cs ++ [x, d])) (hx : isBreak x = false) :
    b.text false .strip = cs ++ [x] := by
  obtain ⟨ls, last, hlines, hbreak, hblanks⟩ := h.exists_last hx
  have hkeep := text_keep h
  rw [text_of_lines hlines] at hkeep ⊢
  rw [chomped, hbreak, hblanks] at hkeep
  refine (List.append_left_inj [d]).1 ?_
  simpa [chomped] using hkeep

end BlockLines

/-- The indicator that asks for a chomping. -/
def Chomping.indicator : Chomping → List Char
  | .strip => ['-']
  | .clip => []
  | .keep => ['+']

/-- The indicator that is written makes up for the line break at the end of the block. -/
theorem exists_chomping (hne : cs ≠ []) :
    ∃ chomping : Chomping, chompingIndicator cs = chomping.indicator ∧
      ∀ b : BlockLines, b.Holds (cs ++ endLine cs) → b.text false chomping = cs := by
  obtain ⟨front, c, rfl⟩ := (List.eq_nil_or_concat' cs).resolve_left hne
  have hreverse : (front ++ [c]).reverse = c :: front.reverse := by simp
  by_cases hc : isBreak c = true
  · have hend : endLine (front ++ [c]) = [] := by simp [endLine, hc]
    rw [hend, List.append_nil]
    rcases List.eq_nil_or_concat' front with rfl | ⟨before, x, rfl⟩
    · refine ⟨.keep, ?_, fun b hb => BlockLines.text_keep hb⟩
      simp [chompingIndicator, hc, Chomping.indicator]
    · by_cases hx : isBreak x = true
      · refine ⟨.keep, ?_, fun b hb => BlockLines.text_keep hb⟩
        simp [chompingIndicator, hc, hx, Chomping.indicator]
      · have hx' : isBreak x = false := Bool.eq_false_iff.2 hx
        rw [List.append_assoc]
        refine ⟨.clip, ?_, fun b hb => BlockLines.text_clip hb hx'⟩
        simp [chompingIndicator, hc, hx', Chomping.indicator]
  · have hc' : isBreak c = false := Bool.eq_false_iff.2 hc
    have hend : endLine (front ++ [c]) = ['\n'] := by simp [endLine, hc']
    rw [hend, List.append_assoc]
    refine ⟨.strip, ?_, fun b hb => BlockLines.text_strip hb hc'⟩
    rw [chompingIndicator, hreverse]
    split <;> simp_all [Chomping.indicator]

/-! ## Nodes -/

theorem literalBody_cons (afterBreak : Bool) :
    literalBody afterBreak (c :: cs) =
      (if !isBreak c && afterBreak then indent else []) ++ c :: literalBody (isBreak c) cs := by
  rw [literalBody]
  cases isBreak c <;> cases afterBreak <;> rfl

/-- To the lines of a block nothing but spaces is added. -/
theorem mem_literalBody {d : Char} {afterBreak : Bool} (h : d ∈ literalBody afterBreak cs) :
    d ∈ cs ∨ d = ' ' := by
  induction cs generalizing afterBreak with
  | nil => exact .inl h
  | cons c cs ih =>
    rw [literalBody_cons, List.mem_append, List.mem_cons] at h
    rcases h with h | rfl | h
    · split at h
      · exact .inr (by simpa [indent] using h)
      · cases h
    · exact .inl List.mem_cons_self
    · exact (ih h).imp_left (List.mem_cons_of_mem c)

theorem literalBody_concat (afterBreak : Bool) :
    literalBody afterBreak (cs ++ ['\n']) = literalBody afterBreak cs ++ ['\n'] := by
  induction cs generalizing afterBreak with
  | nil => rfl
  | cons c cs ih => rw [List.cons_append, literalBody_cons, literalBody_cons, ih, List.append_assoc,
      List.cons_append]

theorem getLast?_literalBody (afterBreak : Bool) :
    (literalBody afterBreak cs).getLast? = cs.getLast? := by
  induction cs generalizing afterBreak with
  | nil => rfl
  | cons c cs ih =>
    rw [literalBody_cons, List.getLast?_append_cons, List.getLast?_cons, List.getLast?_cons, ih]

theorem endLine_literalText (hne : cs ≠ []) : endLine (literalText cs) = endLine cs := by
  obtain ⟨front, c, rfl⟩ := (List.eq_nil_or_concat' cs).resolve_left hne
  rw [endLine, endLine, literalText, List.getLast?_append_cons, List.getLast?_cons,
    getLast?_literalBody]
  simp

theorem literalBody_endLine (afterBreak : Bool) :
    literalBody afterBreak cs ++ endLine cs = literalBody afterBreak (cs ++ endLine cs) := by
  rw [endLine]
  split
  · simp
  · exact (literalBody_concat afterBreak).symm

/-- The text with its end of line ends with a break. -/
theorem isBreak_of_endLine (cs : List Char) :
    ∀ c ∈ (cs ++ endLine cs).getLast?, isBreak c = true := by
  intro c hc
  rw [endLine] at hc
  split at hc
  · next hany =>
    rw [List.append_nil] at hc
    rw [hc] at hany
    exact hany
  · obtain rfl : '\n' = c := by simpa using hc
    rfl

/-- The indentation that the first line does not show has to be given. -/
def hidesIndentation (cs : List Char) : Bool := cs.head?.any fun c => c = ' ' || isBreak c

/-- With an indentation that is given or that the first line shows, the lines are read. -/
theorem exists_block (hne : cs ≠ []) (hprint : ∀ c ∈ cs, isPrintable c = true)
    (hcolumn : m.column = 0) (hrest : AtToken rest) :
    ∃ b m', blockFrom 1 (if hidesIndentation cs then 2 else 0) 0 m none
          (literalBody true (cs ++ endLine cs) ++ rest) = some b ∧
      b.Holds (cs ++ endLine cs) ∧ b.place = ⟨m', true, rest⟩ ∧ m'.column = 0 := by
  have hprint' : ∀ c ∈ cs ++ endLine cs, isPrintable c = true := by
    intro c hc
    rcases List.mem_append.1 hc with hc | hc
    · exact hprint c hc
    · rw [endLine] at hc
      split at hc
      · cases hc
      · obtain rfl := List.mem_singleton.1 hc
        rfl
  have hend := isBreak_of_endLine cs
  by_cases hhidden : hidesIndentation cs = true
  · rw [if_pos hhidden]
    exact blockFrom_literalBody 0 none hprint' hend hcolumn hrest
  · rw [if_neg hhidden]
    obtain ⟨c, ds, rfl⟩ := List.exists_cons_of_ne_nil hne
    have hc : c ≠ ' ' ∧ isBreak c = false := by simpa [hidesIndentation] using hhidden
    have hprintc : isPrintable c = true := hprint c List.mem_cons_self
    generalize hes : ds ++ endLine (c :: ds) = es at *
    rw [List.cons_append, hes] at hprint' hend ⊢
    have hne' : es ≠ [] := by
      rintro rfl
      rw [hend c rfl] at hc
      cases hc.2
    have hend' : ∀ d ∈ es.getLast?, isBreak d = true := by
      obtain ⟨e, es, rfl⟩ := List.exists_cons_of_ne_nil hne'
      simpa only [List.getLast?_cons_cons] using hend
    obtain ⟨b, m', hb, hholds, hplace⟩ :=
      blockFrom_literalBody (m := (m.skip 2).next c) 0 (some [c])
        (fun d hd => hprint' d (List.mem_cons_of_mem _ hd)) hend' hne' hrest
    refine ⟨b, m', ?_, hholds, hplace⟩
    rw [literalBody_cons, hc.2, Bool.not_false, Bool.true_and, if_pos rfl, List.append_assoc]
    exact (blockFrom_indent hprintc hc.2 hcolumn (.inr ⟨rfl, rfl, hc.1⟩)).trans hb

theorem readHeader_append (hidden : Bool) (chomping : Chomping) (lines : List Char) :
    readHeader ((if hidden then ['2'] else []) ++ (chomping.indicator ++ '\n' :: lines)) =
      (⟨chomping, if hidden then 2 else 0⟩, '\n' :: lines) := by
  cases hidden <;> cases chomping <;> rfl

theorem skipHeaderLine_lineFeed (lines : List Char) :
    skipHeaderLine m false ('\n' :: lines) = some (m.next '\n', lines) := by
  rw [skipHeaderLine]
  · rfl
  · simp

theorem readBlock_literal (hne : cs ≠ []) (hprint : ∀ c ∈ cs, isPrintable c = true)
    (hrest : AtToken rest) :
    ∃ m', readBlock false 1 m
        ((if hidesIndentation cs then ['2'] else []) ++ (chompingIndicator cs ++
          '\n' :: (literalBody true (cs ++ endLine cs) ++ rest))) =
        some ⟨cs, ⟨m', true, rest⟩⟩ ∧ m'.column = 0 := by
  obtain ⟨chomping, hchomping, htext⟩ := exists_chomping hne
  simp only [readBlock, hchomping, readHeader_append]
  generalize m.skip _ = start
  obtain ⟨b, m', hb, hholds, hplace, hcolumn⟩ :=
    exists_block (m := start.next '\n') hne hprint rfl hrest
  have hindentation : (if (if hidesIndentation cs then 2 else 0) = 0 then 0
      else 1 - 1 + if hidesIndentation cs then 2 else 0) = if hidesIndentation cs then 2 else 0 := by
    split <;> simp_all
  refine ⟨m', ?_, hcolumn⟩
  rw [skipHeaderLine_lineFeed, hindentation, Option.bind_eq_bind, Option.bind_some, hb]
  simp [htext b hholds, hplace]

/-- A literal block is a node, up to the start of the line behind it. -/
theorem readNode_literal (tags : TagPrefixes) (m : Mark) (fresh : Bool) (hne : cs ≠ [])
    (hprint : ∀ c ∈ cs, isPrintable c = true) (hrest : AtToken rest) :
    ∃ m', readNode tags false 1
        ⟨m, fresh, literalText cs ++ (endLine (literalText cs) ++ rest)⟩ =
          some (.scalar none ⟨.literal, cs, none⟩, ⟨m', true, rest⟩) ∧ m'.column = 0 := by
  obtain ⟨m', hblock, hcolumn⟩ := readBlock_literal (m := m.skip 1) hne hprint hrest
  refine ⟨m', ?_, hcolumn⟩
  have htext : literalText cs ++ (endLine cs ++ rest) =
      '|' :: ((if hidesIndentation cs then ['2'] else []) ++ (chompingIndicator cs ++
        '\n' :: (literalBody true (cs ++ endLine cs) ++ rest))) := by
    have hliteral : literalText cs = '|' :: (if hidesIndentation cs then ['2'] else []) ++
        chompingIndicator cs ++ '\n' :: literalBody true cs := rfl
    rw [hliteral, ← literalBody_endLine]
    simp only [List.append_assoc, List.cons_append]
  have hscalar : ∀ lines, readBlock false 1 (m.skip 1) lines = some ⟨cs, ⟨m', true, rest⟩⟩ →
      readScalar false 1 ⟨m, fresh, '|' :: lines⟩ =
        some (some (.literal, ⟨cs, ⟨m', true, rest⟩⟩)) := by
    intro lines hlines
    simp [readScalar, hlines]
  rw [endLine_literalText hne, htext]
  exact readNode_of_readScalar (by decide) (by decide) (by decide) (hscalar _ hblock)

end LicenseAudit.Yaml
