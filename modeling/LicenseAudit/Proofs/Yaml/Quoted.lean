import LicenseAudit.Proofs.Yaml.Plain

/-!
# Quoted scalars read back

A quoted text is cut into pieces, and folding gives the text back. Between double quotes no line
break is left, so that there is nothing to fold. Between single quotes a line break may stand, but
no space next to it: what is folded away is the indentation that was written.

Results:
1. `escape_cases`: the ways in which a character is written.
2. `doublePieces_escape`: a written character is read as one piece.
3. `singlePieces_singleBody`: the pieces of a text between single quotes.
4. `readNode_double`, `readNode_single`: quoted texts as nodes.
-/

namespace LicenseAudit.Yaml

variable {floor : Nat} {m : Mark} {c : Char} {cs rest : List Char}

/-! ## Characters between double quotes -/

theorem hexChar?_hexDigits (width : Nat) (h : c.toNat < Nat.pow 16 width) :
    Text.hexChar? (Text.hexDigits width c.toNat) = some c := by
  have hvalid : c.toNat.isValidChar := c.valid
  rw [Text.hexChar?, Text.hexNumber?_hexDigits, Nat.mod_eq_of_lt h]
  simp [hvalid]

/-- A character is read as one piece, escaped if it was written with a backslash. -/
def pieceOf (c : Char) : Piece := if escape c = [c] then .text c else .escaped c

theorem pushEscaped_hexDigits (width : Nat) (h : c.toNat < Nat.pow 16 width) (ps : Option Pieces) :
    Pieces.pushEscaped (Text.hexChar? (Text.hexDigits width c.toNat)) ps =
      ps.map (.push (.escaped c)) := by
  rw [hexChar?_hexDigits width h]
  rfl

/-- The characters with an escape of their own. -/
def shortEscapes : List Char :=
  ['\x00', '\x07', '\x08', '\t', '\n', '\x0b', '\x0c', '\r', '\x1b', '"', '\\', '\u0085', '\u2028',
    '\u2029']

theorem escape_of_notMem (h : c ∉ shortEscapes) :
    escape c =
      if isPrintable c then [c]
      else if c.toNat ≤ 0xFF then '\\' :: 'x' :: Text.hexDigits 2 c.toNat
      else if c.toNat ≤ 0xFFFF then '\\' :: 'u' :: Text.hexDigits 4 c.toNat
      else '\\' :: 'U' :: Text.hexDigits 8 c.toNat := by
  simp only [shortEscapes, List.mem_cons, List.not_mem_nil, or_false, not_or] at h
  obtain ⟨h0, ha, hb, ht, hn, hv, hf, hr, he, hquote, hslash, hN, hL, hP⟩ := h
  simp [escape, h0, ha, hb, ht, hn, hv, hf, hr, he, hquote, hslash, hN, hL, hP]

/-- A character is written with an escape of its own, as it is, or as a number of at most 16 bits. -/
theorem escape_cases (c : Char) :
    c ∈ shortEscapes ∨ c ∉ shortEscapes ∧ isPrintable c = true ∧ escape c = [c] ∨
      ∃ e ∈ [('x', 2), ('u', 4)], c.toNat < Nat.pow 16 e.2 ∧
        escape c = '\\' :: e.1 :: Text.hexDigits e.2 c.toNat := by
  by_cases hshort : c ∈ shortEscapes
  · exact .inl hshort
  · have hescape := escape_of_notMem hshort
    by_cases hprint : isPrintable c = true
    · rw [if_pos hprint] at hescape
      exact .inr (.inl ⟨hshort, hprint, hescape⟩)
    · have hsmall : c.toNat ≤ 0xFFFF := by
        -- Characters with larger numbers are written as they are.
        simp only [isPrintable, Bool.or_eq_true, decide_eq_true_eq] at hprint
        omega
      rw [if_neg hprint, if_pos hsmall] at hescape
      refine .inr (.inr ?_)
      by_cases hbyte : c.toNat ≤ 0xFF
      · exact ⟨('x', 2), by simp, Nat.lt_succ_of_le hbyte, hescape.trans (if_pos hbyte)⟩
      · exact ⟨('u', 4), by simp, Nat.lt_succ_of_le hsmall, hescape.trans (if_neg hbyte)⟩

theorem isBreak_of_notMem (h : c ∉ shortEscapes) : isBreak c = false := by
  simp only [shortEscapes, List.mem_cons, List.not_mem_nil, or_false, not_or] at h
  simp [isBreak, h]

theorem notMem_of_escape_eq (h : escape c = [c]) : c ∉ shortEscapes := by
  have hshort : (shortEscapes.all fun d => escape d ≠ [d]) = true := rfl
  exact fun hmem => of_decide_eq_true (List.all_eq_true.1 hshort c hmem) h

theorem doublePieces_char (h : c ∉ shortEscapes) :
    doublePieces m (c :: rest) = (doublePieces (m.skip 1) rest).map (.push (.text c)) := by
  have hquote : c ≠ '"' := fun heq => h (heq ▸ by decide)
  have hslash : c ≠ '\\' := fun heq => h (heq ▸ by decide)
  rw [doublePieces]
  · rw [Mark.next_of_not_break (isBreak_of_notMem h)]
  all_goals simp [hquote, hslash]

/-- What was written for a character is read as one piece. -/
theorem doublePieces_escape :
    doublePieces m (escape c ++ rest) =
      (doublePieces (m.skip (escape c).length) rest).map (.push (pieceOf c)) := by
  rcases escape_cases c with hshort | ⟨hmem, -, hescape⟩ | ⟨e, he, hlt, hescape⟩
  · simp only [shortEscapes, List.mem_cons, List.not_mem_nil, or_false] at hshort
    rcases hshort with rfl | rfl | rfl | rfl | rfl | rfl | rfl | rfl | rfl | rfl | rfl | rfl | rfl |
      rfl <;> rfl
  · rw [pieceOf, if_pos hescape, hescape]
    exact doublePieces_char hmem
  · have hne : escape c ≠ [c] := by simp [hescape]
    rw [pieceOf, if_neg hne, hescape]
    simp only [List.mem_cons, List.not_mem_nil, or_false] at he
    rcases he with rfl | rfl <;> exact pushEscaped_hexDigits _ hlt _

theorem doublePieces_flatMap :
    doublePieces m (cs.flatMap escape ++ '"' :: rest) =
      some ⟨cs.map pieceOf, m.skip ((cs.flatMap escape).length + 1), rest⟩ := by
  induction cs generalizing m with
  | nil => rfl
  | cons c cs ih =>
    rw [List.flatMap_cons, List.append_assoc, doublePieces_escape, ih, List.length_append,
      Mark.skip_skip, Nat.add_assoc]
    rfl

/-! ## Folding -/

theorem fold_text {lineStart : Bool} {gap : Gap} {ps : List Piece} (hc : c ≠ '\r') :
    fold lineStart gap (.text c :: ps) =
      if isBlank c then fold false (gap.addBlank c) ps
      else if isBreak c then fold true (gap.addBreak (breakText c)) ps
      else if lineStart && markerPieces (.text c :: ps) then .none
      else (fold false .none ps).map fun t => gap.folded ++ c :: t := by
  rw [fold]
  exact fun _ _ h => hc h

/-- Without line breaks there is nothing to fold. -/
theorem fold_pieceOf (cs blanks : List Char) :
    fold false (.blanks blanks) (cs.map pieceOf) = some (blanks ++ cs) := by
  induction cs generalizing blanks with
  | nil => simp [fold, Gap.folded]
  | cons c cs ih =>
    rw [List.map_cons, pieceOf]
    split
    · next hc =>
      have hbreak : isBreak c = false := isBreak_of_notMem (notMem_of_escape_eq hc)
      have hreturn : c ≠ '\r' := by
        rintro rfl
        revert hbreak
        decide
      rw [fold_text hreturn, hbreak, Gap.addBlank, Gap.none, ih, ih]
      cases isBlank c <;> simp [Gap.folded]
    · rw [fold, Gap.none, ih]
      rfl

/-! ## Texts between single quotes -/

/-- The pieces of a text between single quotes, with its indentation. -/
def bodyPieces (afterBreak : Bool) : List Char → List Piece
  | [] => if afterBreak then indent.map .text else []
  | c :: rest =>
    if isBreak c then .text c :: bodyPieces true rest
    else
      (if afterBreak then indent.map .text else []) ++
        (if c = '\'' then .escaped c else .text c) :: bodyPieces false rest

theorem singlePieces_char (hc : c ≠ '\'') :
    singlePieces m (c :: rest) = (singlePieces (m.next c) rest).map (.push (.text c)) := by
  rw [singlePieces]
  · rw [if_neg hc]
  · exact fun _ h _ => hc h

theorem singlePieces_end (h : rest.head? ≠ some '\'') :
    singlePieces m ('\'' :: rest) = some ⟨[], m.skip 1, rest⟩ := by
  rw [singlePieces]
  · rfl
  · rintro tail - rfl
    exact h rfl

theorem singlePieces_indent (afterBreak : Bool) :
    singlePieces m ((if afterBreak then indent else []) ++ cs) =
      (singlePieces (m.after (if afterBreak then indent else [])) cs).map fun ps =>
        { ps with pieces := (if afterBreak then indent.map .text else []) ++ ps.pieces } := by
  cases afterBreak
  · simp
  · simp only [if_true, indent, List.cons_append, List.nil_append]
    rw [singlePieces_char (by decide), singlePieces_char (by decide), Option.map_map]
    rfl

/-- Between single quotes nothing but spaces is added. -/
theorem mem_singleBody {d : Char} {afterBreak : Bool} (h : d ∈ singleBody afterBreak cs) :
    d ∈ cs ∨ d = ' ' := by
  have hindent {d : Char} {afterBreak : Bool} (h : d ∈ if afterBreak then indent else []) :
      d = ' ' := by
    cases afterBreak <;> simp_all [indent]
  induction cs generalizing afterBreak with
  | nil => exact .inr (hindent h)
  | cons c cs ih =>
    rw [singleBody] at h
    split at h
    · rw [List.mem_cons] at h
      rcases h with rfl | h
      · exact .inl List.mem_cons_self
      · exact (ih h).imp_left (List.mem_cons_of_mem c)
    · rw [List.mem_append, List.mem_append] at h
      rcases h with (h | h) | h
      · exact .inr (hindent h)
      · by_cases hquote : c = '\'' <;> simp_all
      · exact (ih h).imp_left (List.mem_cons_of_mem c)

/-- A text is cut into its pieces up to the closing quote. -/
theorem singlePieces_singleBody (hrest : rest.head? ≠ some '\'') (afterBreak : Bool) :
    singlePieces m (singleBody afterBreak cs ++ '\'' :: rest) =
      some ⟨bodyPieces afterBreak cs, (m.after (singleBody afterBreak cs)).skip 1, rest⟩ := by
  induction cs generalizing m afterBreak with
  | nil =>
    rw [singleBody, bodyPieces, singlePieces_indent, singlePieces_end hrest]
    simp
  | cons c cs ih =>
    rw [singleBody, bodyPieces]
    by_cases hbreak : isBreak c = true
    · have hquote : c ≠ '\'' := by
        rintro rfl
        exact absurd hbreak (by decide)
      rw [if_pos hbreak, if_pos hbreak, List.cons_append, singlePieces_char hquote, ih]
      rfl
    · rw [if_neg hbreak, if_neg hbreak, List.append_assoc, List.append_assoc, singlePieces_indent,
        Mark.after_append, Mark.after_append]
      by_cases hquote : c = '\''
      · subst hquote
        rw [if_pos rfl, if_pos rfl, List.cons_append, List.cons_append, List.nil_append,
          singlePieces, ih]
        rfl
      · rw [if_neg hquote, if_neg hquote, List.cons_append, List.nil_append,
          singlePieces_char hquote, ih]
        rfl

/-- A text that can be written between single quotes, without line feeds. -/
structure IsQuotable (cs : List Char) : Prop where
  printable : ∀ c ∈ cs, isPrintable c = true
  no_feed : '\n' ∉ cs
  no_space_after_break : hasPair isBreak (· = ' ') cs = false
  no_space_before_break : hasPair (· = ' ') isBreak cs = false

theorem hasPair_cons {p q : Char → Bool} (h : hasPair p q (c :: cs) = false) :
    (p c = true → ∀ d ∈ cs.head?, q d = false) ∧ hasPair p q cs = false := by
  cases cs with
  | nil => exact ⟨fun _ _ hd => (nomatch hd), rfl⟩
  | cons d ds =>
    rw [hasPair, Bool.or_eq_false_iff] at h
    refine ⟨fun hc e he => ?_, h.2⟩
    obtain rfl := Option.some.inj he
    simpa [hc] using h.1

theorem IsQuotable.tail (h : IsQuotable (c :: cs)) : IsQuotable cs where
  printable d hd := h.printable d (List.mem_cons_of_mem _ hd)
  no_feed hm := h.no_feed (List.mem_cons_of_mem _ hm)
  no_space_after_break := (hasPair_cons h.no_space_after_break).2
  no_space_before_break := (hasPair_cons h.no_space_before_break).2

theorem fold_bodyPiece {gap : Gap} {ps : List Piece} (hblank : isBlank c = false)
    (hbreak : isBreak c = false) :
    fold false gap ((if c = '\'' then .escaped c else .text c) :: ps) =
      (fold false .none ps).map fun t => gap.folded ++ c :: t := by
  split
  · rw [fold]
  · have hreturn : c ≠ '\r' := by
      rintro rfl
      revert hbreak
      decide
    simp [fold_text hreturn, hblank, hbreak]

/-- On one line the blanks before a text are kept. Behind a line break the breaks are kept and the
indentation is dropped; the text then does not start with a space of its own. -/
theorem fold_bodyPieces (h : IsQuotable cs) :
    (∀ blanks, (blanks ≠ [] → ∀ d ∈ cs.head?, isBreak d = false) →
      fold false (.blanks blanks) (bodyPieces false cs) = some (blanks ++ cs)) ∧
    ∀ first more, first ≠ ['\n'] → cs.head? ≠ some ' ' →
      fold true (.breaks first more) (bodyPieces true cs) = some (first ++ more ++ cs) := by
  induction cs with
  | nil =>
    constructor
    · intro blanks _
      simp [bodyPieces, fold, Gap.folded]
    · intro first more hfirst _
      simp [bodyPieces, indent, fold, isBlank, Gap.addBlank, Gap.folded, hfirst]
  | cons c cs ih =>
    obtain ⟨hblanks, hbreaks⟩ := ih h.tail
    have hprint := h.printable c List.mem_cons_self
    have hnone : fold false .none (bodyPieces false cs) = some cs :=
      hblanks [] fun hne => absurd rfl hne
    by_cases hbreak : isBreak c = true
    · have hfeed : [c] ≠ ['\n'] := fun heq =>
        h.no_feed (List.mem_cons.2 (.inl (List.cons.inj heq).1.symm))
      have hspace : cs.head? ≠ some ' ' := fun heq => by
        simpa using (hasPair_cons h.no_space_after_break).1 hbreak ' ' heq
      simp only [bodyPieces, if_pos hbreak, fold_text (ne_return_of_printable hprint),
        isBlank_eq_false_of_break hbreak, breakText_of_printable hprint hbreak, Gap.addBreak]
      constructor
      · intro blanks hno
        have hnil : blanks = [] := Classical.not_not.1 fun hne => by
          simp [hno hne c rfl] at hbreak
        simpa [hnil] using hbreaks [c] [] hfeed hspace
      · intro first more hfirst _
        simpa using hbreaks first (more ++ [c]) hfirst hspace
    · simp only [bodyPieces, if_neg hbreak, Bool.false_eq_true, if_false, if_true, List.nil_append]
      have hbreak' : isBreak c = false := Bool.eq_false_iff.2 hbreak
      constructor
      · intro blanks _
        by_cases hspace : c = ' '
        · subst hspace
          have hno := (hasPair_cons h.no_space_before_break).1 rfl
          rw [if_neg (by decide), fold_text (by decide)]
          simpa [isBlank, Gap.addBlank] using hblanks (blanks ++ [' ']) fun _ => hno
        · rw [fold_bodyPiece (by simp [isBlank_of_printable hprint, hspace]) hbreak', hnone]
          rfl
      · intro first more hfirst hhead
        have hspace : c ≠ ' ' := fun heq => hhead (heq ▸ rfl)
        have hgap : Gap.folded (.breaks first more) = first ++ more := by simp [Gap.folded, hfirst]
        simp only [indent, List.map_cons, List.map_nil, List.cons_append, List.nil_append]
        rw [fold_text (by decide), fold_text (by decide)]
        simp only [isBlank, decide_true, Bool.true_or, if_true, Gap.addBlank]
        rw [fold_bodyPiece (by simp [isBlank_of_printable hprint, hspace]) hbreak', hnone, hgap]
        rfl

/-! ## Nodes -/

/-- A text between double quotes is a node. -/
theorem readNode_double {tags : TagPrefixes} {fresh : Bool} :
    readNode tags false floor ⟨m, fresh, '"' :: cs.flatMap escape ++ '"' :: rest⟩ =
      some (.scalar none ⟨.doubleQuoted, cs, none⟩,
        ⟨m.skip ((cs.flatMap escape).length + 2), false, rest⟩) := by
  have hread : readDouble (m.skip 1) (cs.flatMap escape ++ '"' :: rest) =
      some ⟨cs, ⟨m.skip ((cs.flatMap escape).length + 2), false, rest⟩⟩ := by
    rw [readDouble, doublePieces_flatMap, Option.bind_some, Pieces.scalar, Gap.none,
      fold_pieceOf, Mark.skip_skip, Nat.add_left_comm]
    rfl
  have hscalar : readScalar false floor ⟨m, fresh, '"' :: (cs.flatMap escape ++ '"' :: rest)⟩ =
      some (some (.doubleQuoted,
        ⟨cs, ⟨m.skip ((cs.flatMap escape).length + 2), false, rest⟩⟩)) := by
    simp [readScalar, hread]
  exact readNode_of_readScalar (by decide) (by decide) (by decide) hscalar

/-- A text between single quotes is a node. -/
theorem readNode_single {tags : TagPrefixes} {fresh : Bool} (h : IsQuotable cs)
    (hrest : rest.head? ≠ some '\'') :
    readNode tags false floor ⟨m, fresh, '\'' :: singleBody false cs ++ '\'' :: rest⟩ =
      some (.scalar none ⟨.singleQuoted, cs, none⟩,
        ⟨((m.skip 1).after (singleBody false cs)).skip 1, false, rest⟩) := by
  have hread : readSingle (m.skip 1) (singleBody false cs ++ '\'' :: rest) =
      some ⟨cs, ⟨((m.skip 1).after (singleBody false cs)).skip 1, false, rest⟩⟩ := by
    rw [readSingle, singlePieces_singleBody hrest, Option.bind_some, Pieces.scalar, Gap.none,
      (fold_bodyPieces h).1 [] fun hne => absurd rfl hne]
    rfl
  have hscalar :
      readScalar false floor ⟨m, fresh, '\'' :: (singleBody false cs ++ '\'' :: rest)⟩ =
        some (some (.singleQuoted,
          ⟨cs, ⟨((m.skip 1).after (singleBody false cs)).skip 1, false, rest⟩⟩)) := by
    simp [readScalar, hread]
  exact readNode_of_readScalar (by decide) (by decide) (by decide) hscalar

end LicenseAudit.Yaml
