import LicenseAudit.Proofs.Yaml.Keys
import LicenseAudit.Yaml.Alias

/-!
# Mappings read back

Each entry of a mapping starts a line and ends with one, so the entries are read one after another.
What a key is has to be told before it is read: an entry with a question mark announces its key, and
any other one starts with the key itself.

Results:
1. `readKey_simple`, `readAnnouncedKey_announced`: keys with their colons.
2. `readEntries_entryText`: one entry is read, and then the others.
3. `isAllowed_keyText`: a stream may hold all that is written for a key.
4. `readStream_mappingText`: a mapping is read back, as one document.
5. `scalars?_entryNodes`: there is nothing to look up in it.
-/

namespace LicenseAudit.Yaml

variable {m : Mark} {fresh : Bool} {tags : TagPrefixes} {cs rest : List Char} {b : Bool}

/-! ## Values -/

theorem plainAllowed_booleanText (b : Bool) : plainAllowed (booleanText b) = true := by
  cases b <;> decide

theorem boolean?_booleanText (b : Bool) : boolean? (booleanText b) = some b := by
  cases b <;> rfl

theorem atToken_booleanText (b : Bool) (rest : List Char) : AtToken (booleanText b ++ rest) := by
  cases b <;> exact atToken_cons (by decide)

/-- The node of a decision. -/
def valueNode (b : Bool) : Node := .scalar none ⟨.plain, booleanText b, none⟩

/-- A value is read with the end of its line, if the next entry starts there. -/
theorem readNode_value (hrest : AtToken rest) :
    readNode tags false 1 ⟨m, fresh, booleanText b ++ '\n' :: rest⟩ =
      some (valueNode b, ⟨(m.skip (booleanText b).length).next '\n', true, rest⟩) :=
  readNode_plain_line (plainAllowed_booleanText b) (Nat.le_add_left 1 _) Nat.one_pos hrest

/-! ## Keys with their colons -/

theorem behindIndicator_space {c : Char} {flow stays : Bool} (hrest : AtToken rest) :
    Place.behindIndicator ⟨m, fresh, c :: ' ' :: rest⟩ flow stays = ⟨m.skip 2, stays, rest⟩ := by
  rw [Place.behindIndicator, Place.advance]
  exact (toToken_space hrest).trans (by rw [Mark.skip_skip])

theorem atToken_colon (rest : List Char) : AtToken (':' :: rest) := atToken_cons (by decide)

/-- A key on one line is read with its colon. -/
theorem readKey_simple {floor : Nat} (h : isSimpleKey cs = true) (hfloor : floor ≤ 1)
    (hrest : AtToken rest) :
    readKey tags floor ⟨m, true, keyText cs ++ ':' :: ' ' :: rest⟩ =
      some (keyNode cs, ⟨m.skip ((keyText cs).length + 2), false, rest⟩) := by
  have hlength := length_keyText_le h
  have hends : Place.endsKeyFrom ⟨m, true, keyText cs ++ ':' :: ' ' :: rest⟩
      ⟨m.skip (keyText cs).length, false, ':' :: ' ' :: rest⟩ = true := by
    simp [Place.endsKeyFrom, Mark.skip, hlength]
  rw [readKey, readNode_simpleKey h hfloor]
  simp only [Option.bind_eq_bind, Option.bind_some]
  rw [advance_atToken (atToken_colon _), hends]
  simp [Place.atIndicator, atGap, isBlank, behindIndicator_space hrest]

/-- An announced key is read with its colon on the next line. -/
theorem readAnnouncedKey_announced (tags : TagPrefixes) (m : Mark) (fresh : Bool) (cs : List Char)
    (hrest : AtToken rest) :
    ∃ m', readAnnouncedKey tags 0 ⟨m, fresh, '?' :: ' ' ::
        (keyText cs ++ (endLine (keyText cs) ++ ':' :: ' ' :: rest))⟩ =
      some (keyNode cs, ⟨m', true, rest⟩) ∧ m'.column = 2 := by
  obtain ⟨q, m', hread, hadvance, hcolumn'⟩ :=
    readNode_announcedKey tags (m.skip 2) true cs (atToken_colon (' ' :: rest))
  have hstart : AtToken (keyText cs ++ (endLine (keyText cs) ++ ':' :: ' ' :: rest)) :=
    (writes_keyText cs).atToken
  have hwithin : Place.within false (0 + 1)
      ⟨m.skip 2, true, keyText cs ++ (endLine (keyText cs) ++ ':' :: ' ' :: rest)⟩ = true := by
    simp [Place.within, Place.atEnd, Place.column]
  refine ⟨m'.skip 2, ?_, by simp [hcolumn']⟩
  rw [readAnnouncedKey]
  simp only [behindIndicator_space hstart, hwithin, if_true]
  rw [hread]
  simp [hadvance, Place.column, hcolumn', Place.atIndicator, atGap, isBlank,
    behindIndicator_space hrest]

/-! ## Entries -/

/-- The nodes of an entry. -/
def entryNodes (e : String × Bool) : Node × Node := (keyNode e.1.toList, valueNode e.2)

theorem entryText_simple (h : isSimpleKey cs = true) :
    entryText cs b ++ rest = keyText cs ++ ':' :: ' ' :: (booleanText b ++ '\n' :: rest) := by
  rw [entryText, if_pos h]
  simp

theorem entryText_announced (h : ¬ isSimpleKey cs = true) :
    entryText cs b ++ rest = '?' :: ' ' :: (keyText cs ++ (endLine (keyText cs) ++
      ':' :: ' ' :: (booleanText b ++ '\n' :: rest))) := by
  rw [entryText, if_neg h]
  simp

theorem colon_mem_entryText (cs : List Char) (b : Bool) : ':' ∈ entryText cs b := by
  rw [entryText]
  split <;> simp

/-- An entry starts with a token that is neither a directive nor a brace, and is no marker. -/
theorem entryText_head (cs : List Char) (b : Bool) (rest : List Char) :
    ∃ c ds, entryText cs b ++ rest = c :: ds ∧ StartsToken c ∧ c ≠ '%' ∧ c ≠ '{' ∧
      startsMarker (c :: ds) = false := by
  by_cases h : isSimpleKey cs = true
  · obtain ⟨c, ds, hhead, hc, hdirective, hbrace⟩ := (writes_keyText cs).head
    have hmarker : startsMarker
        (keyText cs ++ ':' :: ' ' :: (booleanText b ++ '\n' :: rest)) = false :=
      (writes_keyText cs).not_marker (by simp)
    rw [entryText_simple h]
    rw [hhead, List.cons_append] at hmarker ⊢
    exact ⟨c, _, rfl, hc, hdirective, hbrace, hmarker⟩
  · rw [entryText_announced h]
    exact ⟨'?', _, rfl, by decide, by decide, by decide, rfl⟩

theorem atToken_entryText : AtToken (entryText cs b ++ rest) := by
  obtain ⟨c, ds, heq, hc, -⟩ := entryText_head cs b rest
  rw [heq]
  exact atToken_cons hc

/-- The key of an entry is read with its colon. -/
theorem readKey_entryText (tags : TagPrefixes) (m : Mark) (cs : List Char) (b : Bool) (rest : List Char) :
    ∃ q, (if Place.atIndicator ⟨m, true, entryText cs b ++ rest⟩ '?' then
          readAnnouncedKey tags 0 ⟨m, true, entryText cs b ++ rest⟩
        else readKey tags 1 ⟨m, true, entryText cs b ++ rest⟩) = some (keyNode cs, q) ∧
      0 < q.mark.column ∧ q.rest = booleanText b ++ '\n' :: rest := by
  by_cases h : isSimpleKey cs = true
  · rw [entryText_simple h, (writes_keyText cs).not_announced, if_neg Bool.false_ne_true,
      readKey_simple h (Nat.le_refl 1) (atToken_booleanText b _)]
    exact ⟨_, rfl, Nat.add_pos_right _ (Nat.succ_pos _), rfl⟩
  · obtain ⟨m', hread, hcolumn⟩ :=
      readAnnouncedKey_announced tags m true cs (atToken_booleanText b ('\n' :: rest))
    have hannounced (after : List Char) :
        Place.atIndicator ⟨m, true, '?' :: ' ' :: after⟩ '?' = true := rfl
    rw [entryText_announced h, if_pos (hannounced _), hread]
    exact ⟨_, rfl, by simp [hcolumn], rfl⟩

/-- One entry is read, and then the others from the start of a line. -/
theorem readEntries_entryText (tags : TagPrefixes) (fuel : Nat) (e : String × Bool) (hcolumn : m.column = 0)
    (hrest : AtToken rest) :
    ∃ m' : Mark, m'.column = 0 ∧
      readEntries tags 0 (fuel + 1) ⟨m, true, entryText e.1.toList e.2 ++ rest⟩ =
        (readEntries tags 0 fuel ⟨m', true, rest⟩).map fun r => (entryNodes e :: r.1, r.2) := by
  obtain ⟨⟨m', fresh', rest'⟩, hkey, hcolumn', hrest'⟩ :=
    readKey_entryText tags m e.1.toList e.2 rest
  simp only at hcolumn' hrest'
  subst hrest'
  have hatEnd : Place.atEnd ⟨m, true, entryText e.1.toList e.2 ++ rest⟩ = false := by
    obtain ⟨c, ds, heq, -, -, -, hmarker⟩ := entryText_head e.1.toList e.2 rest
    rw [heq]
    simp [Place.atEnd, hmarker]
  have hwithin : Place.within false (0 + 1)
      ⟨m', fresh', booleanText e.2 ++ '\n' :: rest⟩ = true := by
    simp [Place.within, Place.atEnd, Place.column, Nat.ne_of_gt hcolumn']
    omega
  refine ⟨(m'.skip (booleanText e.2).length).next '\n', Mark.column_next_of_break rfl, ?_⟩
  rw [readEntries, hatEnd, if_neg Bool.false_ne_true]
  simp only [Place.column, hcolumn, ne_eq, not_true_eq_false, if_false, if_true]
  -- The rest of the step is the same for both forms of a key.
  cases hannounced : Place.atIndicator ⟨m, true, entryText e.1.toList e.2 ++ rest⟩ '?'
  all_goals
    simp only [hannounced, if_true, Bool.false_eq_true, if_false] at hkey ⊢
    simp only [Nat.zero_add, hkey, Option.bind_eq_bind, Option.bind_some]
    rw [if_pos hwithin, readNode_value hrest]
    simp only [Option.bind_some, advance_atToken hrest]
    cases readEntries tags 0 fuel _ <;> rfl

/-- The text of some entries. -/
def entriesText (es : List (String × Bool)) : List Char := es.flatMap fun e => entryText e.1.toList e.2

theorem atToken_entriesText (es : List (String × Bool)) : AtToken (entriesText es) := by
  cases es with
  | nil => simp [entriesText, AtToken]
  | cons e es => exact atToken_entryText

/-- All entries are read, one after another. -/
theorem readEntries_entriesText (tags : TagPrefixes) {es : List (String × Bool)} {fuel : Nat}
    (hcolumn : m.column = 0) (hfuel : es.length < fuel) :
    ∃ q : Place, readEntries tags 0 fuel ⟨m, true, entriesText es⟩ = some (es.map entryNodes, q) ∧
      q.rest = [] := by
  induction es generalizing m fuel with
  | nil =>
    obtain ⟨fuel, rfl⟩ := Nat.exists_eq_succ_of_ne_zero (Nat.ne_of_gt hfuel)
    exact ⟨_, rfl, rfl⟩
  | cons e es ih =>
    obtain ⟨fuel, rfl⟩ := Nat.exists_eq_succ_of_ne_zero (Nat.ne_of_gt (Nat.zero_lt_of_lt hfuel))
    obtain ⟨m', hcolumn', hstep⟩ :=
      readEntries_entryText tags fuel e hcolumn (atToken_entriesText es)
    obtain ⟨q, hread, hrest⟩ := ih hcolumn' (Nat.lt_of_succ_lt_succ hfuel)
    rw [hread] at hstep
    exact ⟨q, hstep, hrest⟩

/-! ## Streams -/

theorem isAllowed_hexDigits (width n : Nat) : ∀ c ∈ Text.hexDigits width n, isAllowed c = true := by
  have hdigit : ∀ d < 16, isAllowed (Nat.digitChar d).toUpper = true := by decide
  induction width generalizing n with
  | zero => simp [Text.hexDigits]
  | succ width ih =>
    rw [Text.hexDigits, List.forall_mem_append]
    exact ⟨ih _, List.forall_mem_singleton.2 (hdigit _ (Nat.mod_lt n (by decide)))⟩

theorem isAllowed_escape (c : Char) : ∀ d ∈ escape c, isAllowed d = true := by
  rcases escape_cases c with hshort | ⟨-, hprint, hescape⟩ | ⟨e, he, -, hescape⟩
  · have hall : (shortEscapes.all fun d => (escape d).all isAllowed) = true := rfl
    exact List.all_eq_true.1 (List.all_eq_true.1 hall c hshort)
  · rw [hescape]
    exact List.forall_mem_singleton.2 (isAllowed_of_printable hprint)
  · have hmark : isAllowed e.1 = true := by
      simp only [List.mem_cons, List.not_mem_nil, or_false] at he
      rcases he with rfl | rfl <;> rfl
    rw [hescape, List.forall_mem_cons, List.forall_mem_cons]
    exact ⟨rfl, hmark, isAllowed_hexDigits e.2 c.toNat⟩

/-- Whatever the text of a key is, the stream may hold it as it is written. -/
theorem isAllowed_keyText (cs : List Char) : ∀ c ∈ keyText cs, isAllowed c = true := by
  have hwrites := writes_keyText cs
  generalize keyStyle cs = style at hwrites
  generalize keyText cs = written at *
  intro c hc
  cases hwrites with
  | plain hplain => exact isAllowed_of_printable ((isWords_of_plainAllowed hplain).printable c hc)
  | singleQuoted hsingle =>
    simp only [List.cons_append, List.mem_cons, List.mem_append, List.not_mem_nil, or_false] at hc
    rcases hc with rfl | hc | rfl
    · rfl
    · obtain hc | rfl := mem_singleBody hc
      · exact isAllowed_of_printable (hsingle.printable c hc)
      · rfl
    · rfl
  | doubleQuoted =>
    simp only [List.cons_append, List.mem_cons, List.mem_append, List.not_mem_nil, or_false,
      List.mem_flatMap] at hc
    rcases hc with rfl | ⟨d, -, hc⟩ | rfl
    · rfl
    · exact isAllowed_escape d c hc
    · rfl
  | literal hfeed hprint =>
    obtain ⟨chomping, hindicator, -⟩ := exists_chomping (List.ne_nil_of_mem hfeed)
    have hheader (hidden : Bool) :
        ∀ c ∈ '|' :: (if hidden then ['2'] else []) ++ chomping.indicator, isAllowed c = true := by
      cases hidden <;> cases chomping <;> exact List.all_eq_true.1 rfl
    rw [literalText, hindicator, List.mem_append, List.mem_cons] at hc
    rcases hc with hc | rfl | hc
    · exact hheader _ c hc
    · rfl
    · obtain hc | rfl := mem_literalBody hc
      · exact isAllowed_of_printable (hprint c hc)
      · rfl

theorem isAllowed_entryText (cs : List Char) (b : Bool) :
    ∀ c ∈ entryText cs b, isAllowed c = true := by
  have hvalue : ∀ c ∈ ':' :: ' ' :: booleanText b ++ ['\n'], isAllowed c = true := by
    cases b <;> exact List.all_eq_true.1 rfl
  have hend : ∀ c ∈ endLine (keyText cs), isAllowed c = true := by
    rw [endLine]
    split <;> exact List.all_eq_true.1 rfl
  rw [entryText]
  split
  · rw [List.append_assoc, List.forall_mem_append]
    exact ⟨isAllowed_keyText cs, hvalue⟩
  · rw [List.append_assoc, List.forall_mem_append, List.forall_mem_append]
    refine ⟨⟨?_, hend⟩, hvalue⟩
    exact List.forall_mem_cons.2 ⟨rfl, List.forall_mem_cons.2 ⟨rfl, isAllowed_keyText cs⟩⟩

theorem isAllowed_entriesText (es : List (String × Bool)) :
    ∀ c ∈ entriesText es, isAllowed c = true := by
  intro c hc
  obtain ⟨e, -, hc⟩ := List.mem_flatMap.1 hc
  exact isAllowed_entryText e.1.toList e.2 c hc

theorem length_le_entriesText (es : List (String × Bool)) :
    es.length ≤ (entriesText es).length := by
  induction es with
  | nil => exact Nat.zero_le _
  | cons e es ih =>
    obtain ⟨c, ds, heq, -⟩ := entryText_head e.1.toList e.2 []
    rw [List.append_nil] at heq
    rw [entriesText, List.flatMap_cons, heq, List.length_append, List.length_cons, List.length_cons]
    rw [entriesText] at ih
    omega

/-- A mapping is told from other documents by its first key. -/
theorem startsKey_entryText (tags : TagPrefixes) (m : Mark) (cs : List Char) (b : Bool)
    (rest : List Char) :
    (Place.atIndicator ⟨m, true, entryText cs b ++ rest⟩ '?' ||
      (readKey tags 0 ⟨m, true, entryText cs b ++ rest⟩).isSome) = true := by
  by_cases h : isSimpleKey cs = true
  · rw [entryText_simple h, readKey_simple h (Nat.zero_le 1) (atToken_booleanText b _)]
    exact Bool.or_true _
  · rw [entryText_announced h]
    rfl

/-- The root of a document is the mapping that starts there. -/
theorem readRoot_entriesText (tags : TagPrefixes) {es : List (String × Bool)} {fuel : Nat}
    (hcolumn : m.column = 0) (hne : es ≠ []) (hfuel : es.length < fuel) (more : Nat) :
    ∃ q : Place, readRoot tags fuel .none (more + 1) ⟨m, true, entriesText es⟩ =
      some (⟨none, es.map entryNodes⟩, q) ∧ q.rest = [] := by
  obtain ⟨q, hread, hrest⟩ := readEntries_entriesText tags hcolumn hfuel
  obtain ⟨e, es, rfl⟩ := List.exists_cons_of_ne_nil hne
  have hkey := startsKey_entryText tags m e.1.toList e.2 (entriesText es)
  obtain ⟨c, ds, heq, -, -, hbrace, hmarker⟩ := entryText_head e.1.toList e.2 (entriesText es)
  have hentries : entriesText (e :: es) = c :: ds := heq
  rw [heq] at hkey
  rw [hentries] at hread ⊢
  refine ⟨q, ?_, hrest⟩
  rw [readRoot]
  simp only [Place.atEnd, Place.column, hcolumn, hmarker, List.isEmpty_cons, Bool.and_false,
    Bool.or_false, Bool.false_eq_true, if_false, List.head?_cons, Option.some.injEq, hbrace, hkey,
    Bool.and_true, if_true, hread, Option.map_some, Properties.none]

/-- A stream that does not start with a directive has none. -/
theorem readDirectives_none {directives : Directives} {fuel : Nat} {p : Place}
    (h : p.rest.head? ≠ some '%') :
    readDirectives directives (fuel + 1) p = some (directives, p) := by
  rw [readDirectives]
  split
  · next heq => exact absurd (by rw [heq]; rfl) h
  · rfl

/-- Nothing follows behind the last entry. -/
theorem onlyEndMarkers_of_rest {fuel : Nat} {p : Place} (h : p.rest = []) :
    onlyEndMarkers (fuel + 1) (p.advance false) = true := by
  rw [onlyEndMarkers, Place.advance, h]
  rfl

/-- A mapping is read back, as one document of scalars. -/
theorem readStream_mappingText (es : List (String × Bool)) :
    readStream (mappingText es) = some ⟨none, es.map entryNodes⟩ := by
  cases es with
  | nil => rfl
  | cons e es =>
    have hallowed : (entriesText (e :: es)).all isAllowed = true :=
      List.all_eq_true.2 (isAllowed_entriesText _)
    have hstart : toToken false true false .start (entriesText (e :: es)) =
        ⟨.start, true, entriesText (e :: es)⟩ :=
      toToken_atToken (atToken_entriesText _)
    obtain ⟨c, ds, hhead, -, hdirective, -, hmarker⟩ :=
      entryText_head e.1.toList e.2 (entriesText es)
    have hentries : entriesText (e :: es) = c :: ds := hhead
    rw [← hentries] at hmarker
    have hdirectives : readDirectives ⟨false, []⟩ ((entriesText (e :: es)).length + 1)
        ⟨.start, true, entriesText (e :: es)⟩ =
        some (⟨false, []⟩, ⟨.start, true, entriesText (e :: es)⟩) :=
      readDirectives_none (by simpa [hentries] using hdirective)
    obtain ⟨q, hroot, hrest⟩ := readRoot_entriesText standardPrefixes (m := .start) rfl
      (List.cons_ne_nil e es) (Nat.lt_succ_of_le (length_le_entriesText (e :: es))) 2
    rw [show mappingText (e :: es) = entriesText (e :: es) from rfl, readStream, hallowed]
    simp only [hstart, hdirectives, Option.bind_eq_bind, Option.bind_some, hmarker, Bool.not_true,
      Bool.and_false, Bool.false_and, Bool.false_eq_true, if_false, Bool.not_false, ne_eq,
      not_true_eq_false, decide_false, Bool.or_false, List.nil_append, hroot]
    rw [if_pos (onlyEndMarkers_of_rest hrest)]
    rfl

/-! ## Scalars -/

/-- The scalars of an entry. -/
def entryScalars (e : String × Bool) : Scalar × Scalar :=
  (⟨keyStyle e.1.toList, e.1.toList, none⟩, ⟨.plain, booleanText e.2, none⟩)

/-- Entries without anchors and aliases add no names. -/
theorem linkAll_entryNodes (a : Anchors) (es : List (String × Bool)) :
    a.linkAll (es.map entryNodes) =
      some (a, es.map fun e => (.scalar (entryScalars e).1, .scalar (entryScalars e).2)) := by
  induction es with
  | nil => rfl
  | cons e es ih =>
    rw [List.map_cons, Anchors.linkAll]
    simp only [entryNodes, keyNode, valueNode, Anchors.link, Anchors.add, Option.bind_eq_bind,
      Option.bind_some]
    rw [ih]
    rfl

/-- In a mapping that was written there is nothing to look up. -/
theorem scalars?_entryNodes (es : List (String × Bool)) :
    Document.scalars? ⟨none, es.map entryNodes⟩ = some (es.map entryScalars) := by
  rw [Document.scalars?, Anchors.add, linkAll_entryNodes]
  exact List.mapM_map.trans List.mapM_pure

end LicenseAudit.Yaml
