import LicenseAudit.Proofs.Yaml.Places
import Mathlib.Tactic.Tauto

/-!
# Plain scalars read back

A text that can be written without quotes is read back as it is. Its single spaces are gaps between
words, which are kept on one line, and nothing inside it ends a plain scalar or starts a comment. What
ends it is the colon of its entry or the end of its line.

Results:
1. `plainFrom_append`: a text of several words is read as a whole.
2. `readNode_plain`: a text without quotes as a node.
3. `readNode_plain_colon`, `readNode_plain_line`: the two ends of such a node.
-/

namespace LicenseAudit.Yaml

variable {floor : Nat} {m : Mark} {words : List Char} {gap : Gap} {c : Char}
  {cs rest : List Char}

/-! ## Steps -/

theorem plainFrom_cons (hc : c ≠ '\r') :
    plainFrom false floor m words gap (c :: cs) =
      if isBlank c then
        if gap.crossesLine && m.column < floor && c = '\t' then none
        else plainFrom false floor (m.next c) words (gap.addBlank c) cs
      else if isBreak c then plainFrom false floor (m.next c) words (gap.addBreak (breakText c)) cs
      else if (words = [] || gap ≠ .none) && endsBeforeWord false floor m gap (c :: cs) then
        some ⟨words.reverse, ⟨m, gap.crossesLine, c :: cs⟩⟩
      else if c = ':' && atGap cs then some ⟨words.reverse, ⟨m, gap.crossesLine, c :: cs⟩⟩
      else plainFrom false floor (m.next c) (c :: (gap.folded.reverse ++ words)) .none cs := by
  rw [plainFrom]
  · simp [misplacedColon, endsPlain]
  · exact fun _ h _ => hc h

theorem plainFrom_space :
    plainFrom false floor m words gap (' ' :: cs) =
      plainFrom false floor (m.skip 1) words (gap.addBlank ' ') cs := by
  rw [plainFrom_cons (by decide)]
  simp [isBlank, Mark.next_of_not_break (show isBreak ' ' = false from rfl)]

theorem plainFrom_char (hblank : isBlank c = false) (hbreak : isBreak c = false)
    (hword : words = [] ∨ gap ≠ .none → endsBeforeWord false floor m gap (c :: cs) = false)
    (hcolon : ¬ (c = ':' ∧ atGap cs = true)) :
    plainFrom false floor m words gap (c :: cs) =
      plainFrom false floor (m.skip 1) (c :: (gap.folded.reverse ++ words)) .none cs := by
  have hreturn : c ≠ '\r' := by
    rintro rfl
    revert hbreak
    decide
  have hends : ((words = [] || gap ≠ .none) && endsBeforeWord false floor m gap (c :: cs)) = false := by
    by_cases h : words = [] ∨ gap ≠ .none
    · rw [hword h, Bool.and_false]
    · simp only [not_or, Classical.not_not] at h
      simp [h.1, h.2]
  have hcolon' : (c = ':' && atGap cs) = false := by simpa using hcolon
  rw [plainFrom_cons hreturn, hblank, hbreak, hends, hcolon', Mark.next_of_not_break hbreak]
  simp

/-! ## Several words -/

/-- A text on one line with nothing inside that ends a plain scalar, and no space at its end. -/
structure IsWords (cs : List Char) : Prop where
  printable : ∀ c ∈ cs, isPrintable c = true
  not_break : ∀ c ∈ cs, isBreak c = false
  not_ends : endsInside cs = false
  not_space : cs.getLast? ≠ some ' '

theorem IsWords.tail (h : IsWords (c :: cs)) : IsWords cs where
  printable d hd := h.printable d (List.mem_cons_of_mem _ hd)
  not_break d hd := h.not_break d (List.mem_cons_of_mem _ hd)
  not_ends := by
    have := h.not_ends
    rw [endsInside, Bool.or_eq_false_iff] at this
    exact this.2
  not_space := by
    cases cs with
    | nil => simp
    | cons d ds => simpa only [List.getLast?_cons_cons] using h.not_space

theorem IsWords.not_comment (h : IsWords (' ' :: cs)) : cs.head? ≠ some '#' := by
  have := h.not_ends
  rw [endsInside, Bool.or_eq_false_iff, Bool.or_eq_false_iff] at this
  simpa [isBlank] using this.1.2

/-- A colon is followed by a character that is no gap. -/
theorem IsWords.not_colon (h : IsWords (c :: cs)) : ¬ (c = ':' ∧ atGap (cs ++ rest) = true) := by
  rintro ⟨rfl, hgap⟩
  have := h.not_ends
  rw [endsInside, Bool.or_eq_false_iff, Bool.or_eq_false_iff] at this
  cases cs with
  | nil => exact absurd this.1.1 (by decide)
  | cons d ds => simp [show atGap (d :: ds) = true from hgap] at this

/-- Blanks may stand before the text. They belong to it unless it is empty, and a number sign does
not come after them. -/
theorem plainFrom_append (h : IsWords cs) (hwords : words ≠ []) (hfloor : floor ≤ m.column)
    (hcolumn : 0 < m.column) {blanks : List Char} (hblanks : cs = [] → blanks = [])
    (hsign : blanks ≠ [] → cs.head? ≠ some '#') :
    plainFrom false floor m words (.blanks blanks) (cs ++ rest) =
      plainFrom false floor (m.skip cs.length) (cs.reverse ++ (blanks.reverse ++ words)) .none
        rest := by
  induction cs generalizing m words blanks with
  | nil => simp [hblanks rfl, Gap.none]
  | cons c cs ih =>
    have hfloor' : floor ≤ (m.skip 1).column := Nat.le_succ_of_le hfloor
    have hcolumn' : 0 < (m.skip 1).column := Nat.succ_pos _
    have hlength : 1 + cs.length = (c :: cs).length := Nat.add_comm 1 _
    by_cases hspace : c = ' '
    · subst hspace
      have hne : cs ≠ [] := by
        rintro rfl
        exact h.not_space rfl
      rw [List.cons_append, plainFrom_space, Gap.addBlank,
        ih h.tail hwords hfloor' hcolumn' (fun heq => absurd heq hne) (fun _ => h.not_comment),
        Mark.skip_skip, hlength]
      simp
    · have hc := h.printable c List.mem_cons_self
      have hblank : isBlank c = false := by rw [isBlank_of_printable hc, decide_eq_false hspace]
      have hword : words = [] ∨ Gap.blanks blanks ≠ .none →
          endsBeforeWord false floor m (.blanks blanks) (c :: (cs ++ rest)) = false := by
        rintro (heq | hne)
        · exact absurd heq hwords
        · have hhead : c ≠ '#' := fun heq => hsign (fun hb => hne (hb ▸ rfl)) (heq ▸ rfl)
          simp [endsBeforeWord, Nat.not_lt.2 hfloor, Nat.ne_of_gt hcolumn, hhead]
      rw [List.cons_append,
        plainFrom_char hblank (h.not_break c List.mem_cons_self) hword h.not_colon, Gap.none,
        ih h.tail (List.cons_ne_nil _ _) hfloor' hcolumn' (fun _ => rfl) (fun hb => absurd rfl hb),
        Mark.skip_skip, hlength]
      simp [Gap.folded, Gap.none]

/-! ## Nodes -/

theorem readNode_of_readScalar {tags : TagPrefixes} {fresh : Bool} {style : Style} {s : Scanned}
    (hanchor : c ≠ '&') (htag : c ≠ '!') (halias : c ≠ '*')
    (h : readScalar false floor ⟨m, fresh, c :: cs⟩ = some (some (style, s))) :
    readNode tags false floor ⟨m, fresh, c :: cs⟩ =
      some (.scalar none ⟨style, s.text, none⟩, s.place) := by
  have hprops : readProperties tags false floor ⟨m, fresh, c :: cs⟩ =
      some (.none, ⟨m, fresh, c :: cs⟩) := by
    rw [readProperties, if_neg (by simp [Place.atProperty, hanchor, htag])]
  have hbare : readBareNode false floor ⟨m, fresh, c :: cs⟩ =
      some (.scalar none ⟨style, s.text, none⟩, s.place) := by
    unfold readBareNode
    split
    · next heq => exact absurd (List.cons.inj heq).1 halias
    · rw [h]
      rfl
  rw [readNode, hprops]
  exact hbare

/-- Three dashes or points at the start are no marker if something else follows them. -/
theorem startsMarker_append (hne : cs ≠ []) (h : startsLikeMarker cs = false)
    (hrest : ∀ d ∈ rest.head?, d ≠ '-' ∧ d ≠ '.') : startsMarker (cs ++ rest) = false := by
  cases hs : startsMarker (cs ++ rest) with
  | false => rfl
  | true =>
    exfalso
    match cs, rest with
    | [], _ => exact hne rfl
    | [a], [] => simp [startsMarker] at hs
    | [a], d :: ds =>
      have := hrest d rfl
      unfold startsMarker at hs
      split at hs <;> simp_all
    | [a, b], [] => simp [startsMarker] at hs
    | [a, b], d :: ds =>
      have := hrest d rfl
      unfold startsMarker at hs
      split at hs <;> simp_all
    | a :: b :: d :: ds, _ =>
      unfold startsMarker at hs
      split at hs <;> simp_all [startsLikeMarker]

theorem isWords_of_plainAllowed (h : plainAllowed cs = true) : IsWords cs := by
  cases cs with
  | nil => cases h
  | cons c cs =>
    simp only [plainAllowed, Bool.and_eq_true, Bool.not_eq_true', decide_eq_true_eq,
      List.all_eq_true, List.any_eq_false] at h
    obtain ⟨⟨⟨⟨⟨⟨hprint, hbreak⟩, -⟩, hspace⟩, -⟩, hends⟩, -⟩ := h
    exact ⟨hprint, fun d hd => Bool.eq_false_iff.2 (hbreak d hd), hends, hspace⟩

theorem start_of_plainAllowed (h : plainAllowed (c :: cs) = true) :
    c ≠ ' ' ∧ startsOther c cs = false ∧ startsLikeMarker (c :: cs) = false := by
  simp only [plainAllowed, Bool.and_eq_true, Bool.not_eq_true', decide_eq_true_eq] at h
  obtain ⟨⟨⟨⟨⟨-, hspace⟩, -⟩, hother⟩, -⟩, hmarker⟩ := h
  exact ⟨hspace, hother, hmarker⟩

theorem startsPlain_of_plainAllowed (h : plainAllowed (c :: cs) = true) :
    startsPlain false (c :: (cs ++ rest)) = true := by
  have hwords := isWords_of_plainAllowed h
  obtain ⟨hspace, hother, -⟩ := start_of_plainAllowed h
  rw [startsOther, Bool.or_eq_false_iff] at hother
  have hblank : isBlank c = false := by
    rw [isBlank_of_printable (hwords.printable c List.mem_cons_self), decide_eq_false hspace]
  have hgap : atGap (c :: (cs ++ rest)) = false := by
    simp [atGap, hblank, hwords.not_break c List.mem_cons_self]
  -- A gap behind the first character would be one in the text, or the text would end there.
  have hnext : c = '?' ∨ c = ':' ∨ c = '-' → atGap (cs ++ rest) = false := by
    intro hc
    cases cs with
    | nil => rcases hc with rfl | rfl | rfl <;> simp [atGap] at hother
    | cons d ds =>
      have : atGap (d :: ds) = false := by rcases hc with rfl | rfl | rfl <;> simpa using hother.2
      exact this
  rw [startsPlain]
  split
  · next hc => simp [hnext (.inr (.inr hc))]
  · split
    · next hc => simp [hnext (by simp at hc; tauto)]
    · simp [hgap, hother.1]

theorem readPlain_append (h : plainAllowed cs = true) (hfloor : floor ≤ m.column + 1)
    (hrest : ∀ d ∈ rest.head?, d ≠ '-' ∧ d ≠ '.') :
    readPlain false floor m (cs ++ rest) =
      plainFrom false floor (m.skip cs.length) cs.reverse .none rest := by
  cases cs with
  | nil => cases h
  | cons c cs =>
    have hwords := isWords_of_plainAllowed h
    obtain ⟨hspace, hother, hmarker⟩ := start_of_plainAllowed h
    have hblank : isBlank c = false := by
      rw [isBlank_of_printable (hwords.printable c List.mem_cons_self), decide_eq_false hspace]
    have hsign : c ≠ '#' := by
      rintro rfl
      exact absurd hother (by simp [startsOther, isIndicator])
    have hword : endsBeforeWord false floor m .none (c :: (cs ++ rest)) = false := by
      have hno := startsMarker_append (List.cons_ne_nil c cs) hmarker hrest
      rw [List.cons_append] at hno
      simp [endsBeforeWord, hno, hsign]
    rw [readPlain, List.cons_append,
      plainFrom_char hblank (hwords.not_break c List.mem_cons_self) (fun _ => hword)
        hwords.not_colon, Gap.none]
    rw [plainFrom_append hwords.tail (List.cons_ne_nil _ _) hfloor (Nat.succ_pos _) (fun _ => rfl)
      (fun hb => absurd rfl hb), Mark.skip_skip, Nat.add_comm 1]
    simp [Gap.folded, Gap.none]

/-- A text without quotes is a node, and what ends it is left. -/
theorem readNode_plain {tags : TagPrefixes} {fresh : Bool} {s : Scanned}
    (h : plainAllowed cs = true) (hfloor : floor ≤ m.column + 1)
    (hrest : ∀ d ∈ rest.head?, d ≠ '-' ∧ d ≠ '.')
    (hs : plainFrom false floor (m.skip cs.length) cs.reverse .none rest = some s) :
    readNode tags false floor ⟨m, fresh, cs ++ rest⟩ =
      some (.scalar none ⟨.plain, s.text, none⟩, s.place) := by
  have hread := (readPlain_append h hfloor hrest).trans hs
  cases cs with
  | nil => cases h
  | cons c cs =>
    have hstart : startsPlain false (c :: (cs ++ rest)) = true := startsPlain_of_plainAllowed h
    have hindicator : isIndicator c = false := by
      have := (start_of_plainAllowed h).2.1
      rw [startsOther, Bool.or_eq_false_iff] at this
      exact this.1
    simp only [isIndicator, Bool.or_eq_false_iff, decide_eq_false_iff_not] at hindicator
    refine readNode_of_readScalar (by tauto) (by tauto) (by tauto) ?_
    change readScalar false floor ⟨m, fresh, c :: (cs ++ rest)⟩ = _
    rw [List.cons_append] at hread
    simp only [readScalar]
    rw [if_neg (by tauto), if_neg (by tauto), if_neg (by simp; tauto), if_neg (by simp; tauto),
      if_pos hstart, hread]
    rfl

/-! ## Ends -/

/-- The colon of an entry ends a plain scalar on its line. -/
theorem readNode_plain_colon {tags : TagPrefixes} {fresh : Bool} (h : plainAllowed cs = true)
    (hfloor : floor ≤ m.column + 1) :
    readNode tags false floor ⟨m, fresh, cs ++ ':' :: ' ' :: rest⟩ =
      some (.scalar none ⟨.plain, cs, none⟩, ⟨m.skip cs.length, false, ':' :: ' ' :: rest⟩) := by
  have hne : cs.reverse ≠ [] := by
    cases cs with
    | nil => cases h
    | cons c cs => simp
  refine (readNode_plain (s := ⟨cs, ⟨m.skip cs.length, false, ':' :: ' ' :: rest⟩⟩) h hfloor
    (by simp) ?_)
  rw [plainFrom_cons (by decide)]
  simp [isBlank, isBreak, atGap, hne, Gap.crossesLine, Gap.none]

/-- The end of its line ends a plain scalar if the next line is not indented enough. -/
theorem readNode_plain_line {tags : TagPrefixes} {fresh : Bool} (h : plainAllowed cs = true)
    (hfloor : floor ≤ m.column + 1) (hpos : 0 < floor) (hrest : AtToken rest) :
    readNode tags false floor ⟨m, fresh, cs ++ '\n' :: rest⟩ =
      some (.scalar none ⟨.plain, cs, none⟩, ⟨(m.skip cs.length).next '\n', true, rest⟩) := by
  refine (readNode_plain (s := ⟨cs, ⟨(m.skip cs.length).next '\n', true, rest⟩⟩) h hfloor
    (by simp) ?_)
  rw [plainFrom_cons (by decide)]
  simp only [isBlank, isBreak, Gap.none, Gap.addBreak]
  cases rest with
  | nil => simp [plainFrom, Gap.crossesLine]
  | cons c rest =>
    have hc : StartsToken c := hrest c rfl
    have hreturn : c ≠ '\r' := by
      rintro rfl
      exact absurd hc.not_break (by decide)
    have hcolumn : ((m.skip cs.length).next '\n').column < floor := hpos
    simp [plainFrom_cons hreturn, hc.not_blank, hc.not_break, endsBeforeWord, Gap.none, hcolumn,
      Gap.crossesLine]

end LicenseAudit.Yaml
