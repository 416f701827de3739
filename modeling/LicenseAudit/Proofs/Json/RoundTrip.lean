import LicenseAudit.Proofs.Json.Scalars
import Mathlib.Data.List.DropRight

/-!
# Values read back

The two layouts of a value differ in white space only. So there is one relation between values and
texts that leaves white space open, both layouts are in it, and the reader is right about every text
in it.

Results:
1. `readValue_of_writes`: a text that writes a value is read as that value, up to its end.
2. `writes_compact`, `writes_prettyAt`: both layouts write the value.
3. `read?_compact`, `read?_pretty`: both layouts are read back.
-/

namespace LicenseAudit.Json

variable {fuel : Nat} {cs ds ws rest : List Char}

/-! ## Definitions -/

/-- Nothing but white space. -/
def Space (ws : List Char) : Prop := ∀ c ∈ ws, isSpace c = true

mutual

/-- What a reader makes of a value. -/
def reading : Json → Reading
  | null => .null
  | bool b => .bool b
  | nat _ => .number
  | str s => .str (some s)
  | arr items => .arr (readings items)
  | obj members => .obj (memberReadings members)

/-- What a reader makes of the items of an array. -/
def readings : List Json → List Reading
  | [] => []
  | v :: rest => reading v :: readings rest

/-- What a reader makes of the members of an object. -/
def memberReadings : List (String × Json) → List (Option String × Reading)
  | [] => []
  | (k, v) :: rest => (some k, reading v) :: memberReadings rest

end

mutual

/-- The text writes the value. -/
inductive Writes : Json → List Char → Prop
  | null : Writes .null ['n', 'u', 'l', 'l']
  | bool (b : Bool) : Writes (.bool b) (compact (.bool b))
  | nat (n : Nat) : Writes (.nat n) (Nat.repr n).toList
  | str (s : String) : Writes (.str s) (quote s)
  | emptyArr : Writes (.arr []) ['[', ']']
  | arr {items : List Json} {cs : List Char} : WritesItems items cs →
      Writes (.arr items) ('[' :: cs)
  | emptyObj : Writes (.obj []) ['{', '}']
  | obj {members : List (String × Json)} {cs : List Char} : WritesMembers members cs →
      Writes (.obj members) ('{' :: cs)

/-- The text writes the items of an array, white space around them, and the bracket that closes
it. -/
inductive WritesItems : List Json → List Char → Prop
  | last {v : Json} {ws cs ws' : List Char} : Space ws → Writes v cs → Space ws' →
      WritesItems [v] (ws ++ (cs ++ (ws' ++ [']'])))
  | more {v : Json} {items : List Json} {ws cs ds : List Char} : Space ws → Writes v cs →
      WritesItems items ds → WritesItems (v :: items) (ws ++ (cs ++ ',' :: ds))

/-- The text writes the members of an object, white space around their names and values, and the
brace that closes it. -/
inductive WritesMembers : List (String × Json) → List Char → Prop
  | last {k : String} {v : Json} {ws ws' cs ws'' : List Char} : Space ws → Space ws' →
      Writes v cs → Space ws'' →
      WritesMembers [(k, v)] (ws ++ (quote k ++ ':' :: (ws' ++ (cs ++ (ws'' ++ ['}'])))))
  | more {k : String} {v : Json} {members : List (String × Json)} {ws ws' cs ds : List Char} :
      Space ws → Space ws' → Writes v cs → WritesMembers members ds →
      WritesMembers ((k, v) :: members) (ws ++ (quote k ++ ':' :: (ws' ++ (cs ++ ',' :: ds))))

end

theorem readings_eq_map (items : List Json) : readings items = items.map reading := by
  induction items with
  | nil => rw [readings, List.map_nil]
  | cons v items ih => rw [readings, ih, List.map_cons]

theorem memberReadings_eq_map (members : List (String × Json)) :
    memberReadings members = members.map fun m => (some m.1, reading m.2) := by
  induction members with
  | nil => rw [memberReadings, List.map_nil]
  | cons m members ih => rw [memberReadings, ih, List.map_cons]

/-! ## White space -/

theorem skipSpace_append (h : Space ws) (cs : List Char) : skipSpace (ws ++ cs) = skipSpace cs :=
  List.dropWhile_append_of_pos h

theorem skipSpace_skipSpace (cs : List Char) : skipSpace (skipSpace cs) = skipSpace cs :=
  List.dropWhile_idempotent isSpace cs

theorem skipSpace_of_not_space {c : Char} (h : isSpace c = false) :
    skipSpace (c :: cs) = c :: cs := by
  rw [skipSpace, List.dropWhile_cons, if_neg (by simp [h])]

theorem readValue_congr (h : skipSpace cs = skipSpace ds) (fuel : Nat) :
    readValue fuel cs = readValue fuel ds := by
  cases fuel with
  | zero => rw [readValue, readValue]
  | succ fuel => rw [readValue, readValue, h]

theorem isSpace_eq_false_of_isDigit {c : Char} (h : c.isDigit = true) : isSpace c = false := by
  rw [isSpace]
  simp only [Bool.or_eq_false_iff, decide_eq_false_iff_not]
  refine ⟨⟨⟨?_, ?_⟩, ?_⟩, ?_⟩ <;> exact ne_of_isDigit h (by decide)

/-- A value starts with a character that is no white space and closes nothing. -/
theorem Writes.head {v : Json} (h : Writes v cs) :
    ∃ c tail, cs = c :: tail ∧ isSpace c = false ∧ c ≠ ']' := by
  cases h with
  | bool b => cases b <;> exact ⟨_, _, by rw [compact], by decide, by decide⟩
  | nat n =>
    rw [Nat.toList_repr]
    obtain ⟨d, ds, hds, hd, -⟩ := exists_digits n
    exact ⟨d, ds, hds, isSpace_eq_false_of_isDigit hd, ne_of_isDigit hd (by decide)⟩
  | _ => exact ⟨_, _, rfl, by decide, by decide⟩

theorem WritesItems.skipSpace_ne {items : List Json} (h : WritesItems items cs)
    (rest tail : List Char) : skipSpace (cs ++ rest) ≠ ']' :: tail := by
  obtain ⟨ws, c, ds, rfl, hws, hc, hne⟩ : ∃ ws c ds, cs = ws ++ c :: ds ∧ Space ws ∧
      isSpace c = false ∧ c ≠ ']' := by
    cases h with
    | last hws hv | more hws hv =>
      obtain ⟨c, tail, rfl, hc, hne⟩ := hv.head
      exact ⟨_, c, _, rfl, hws, hc, hne⟩
  rw [List.append_assoc, skipSpace_append hws, List.cons_append, skipSpace_of_not_space hc]
  exact fun heq => hne (List.cons.inj heq).1

theorem WritesMembers.skipSpace_ne {members : List (String × Json)} (h : WritesMembers members cs)
    (rest tail : List Char) : skipSpace (cs ++ rest) ≠ '}' :: tail := by
  cases h with
  | last hws | more hws =>
    rw [List.append_assoc, skipSpace_append hws]
    simp [quote, skipSpace, isSpace]

/-! ## Steps of the reader -/

theorem readItems_congr (h : skipSpace cs = skipSpace ds) (fuel : Nat) :
    readItems fuel cs = readItems fuel ds := by
  cases fuel with
  | zero => rw [readItems, readItems]
  | succ fuel => rw [readItems, readItems, readValue_congr h]

theorem readMembers_congr (h : skipSpace cs = skipSpace ds) (fuel : Nat) :
    readMembers fuel cs = readMembers fuel ds := by
  cases fuel with
  | zero => rw [readMembers, readMembers]
  | succ fuel => rw [readMembers, readMembers, h]

theorem readValue_arr (h : ∀ tail, skipSpace cs ≠ ']' :: tail) (fuel : Nat) :
    readValue (fuel + 1) ('[' :: cs) = (readItems fuel cs).map fun p => (.arr p.1, p.2) := by
  rw [readValue, skipSpace_of_not_space (by decide), ← readItems_congr (skipSpace_skipSpace cs)]
  simp only

theorem readValue_obj (h : ∀ tail, skipSpace cs ≠ '}' :: tail) (fuel : Nat) :
    readValue (fuel + 1) ('{' :: cs) = (readMembers fuel cs).map fun p => (.obj p.1, p.2) := by
  rw [readValue, skipSpace_of_not_space (by decide),
    ← readMembers_congr (skipSpace_skipSpace cs)]
  simp only

theorem readValue_nat (n : Nat) (hrest : EndsNumber rest) (fuel : Nat) :
    readValue (fuel + 1) ((Nat.repr n).toList ++ rest) = some (.number, rest) := by
  obtain ⟨d, ds, hds, hd, -⟩ := exists_digits n
  have hskip := skipNumber_append n hrest
  rw [Nat.toList_repr, hds, List.cons_append] at hskip ⊢
  rw [readValue, skipSpace_of_not_space (isSpace_eq_false_of_isDigit hd)]
  have hall : ∀ c ∈ ['n', 't', 'f', '"', '[', '{'], c.isDigit = false := by simp
  have hne : ∀ c ∈ ['n', 't', 'f', '"', '[', '{'], d ≠ c := fun c hc => ne_of_isDigit hd (hall c hc)
  split <;> simp_all

theorem readItems_last {r : Reading} {tail : List Char}
    (hv : readValue fuel cs = some (r, rest)) (h : skipSpace rest = ']' :: tail) :
    readItems (fuel + 1) cs = some ([r], tail) := by
  rw [readItems]
  simp only [hv, h]

theorem readItems_more {r : Reading} {tail : List Char}
    (hv : readValue fuel cs = some (r, rest)) (h : skipSpace rest = ',' :: tail) :
    readItems (fuel + 1) cs = (readItems fuel tail).map fun p => (r :: p.1, p.2) := by
  rw [readItems]
  simp only [hv, h]

theorem skipSpace_quote (k : String) (rest : List Char) :
    skipSpace (quote k ++ rest) = '"' :: (k.toList.flatMap escape ++ '"' :: rest) := by
  rw [quote]
  simp [skipSpace, isSpace]

theorem readMembers_last {k : String} {r : Reading} {tail : List Char}
    (hv : readValue fuel cs = some (r, rest)) (h : skipSpace rest = '}' :: tail) :
    readMembers (fuel + 1) (quote k ++ ':' :: cs) = some ([(some k, r)], tail) := by
  rw [readMembers, skipSpace_quote]
  simp only [readString_append, skipSpace_of_not_space (c := ':') (by decide), hv, h]

theorem readMembers_more {k : String} {r : Reading} {tail : List Char}
    (hv : readValue fuel cs = some (r, rest)) (h : skipSpace rest = ',' :: tail) :
    readMembers (fuel + 1) (quote k ++ ':' :: cs) =
      (readMembers fuel tail).map fun p => ((some k, r) :: p.1, p.2) := by
  rw [readMembers, skipSpace_quote]
  simp only [readString_append, skipSpace_of_not_space (c := ':') (by decide), hv, h]

/-! ## Texts of values -/

theorem endsNumber_cons {c : Char} (h : c ∈ [',', ']', '}', ' ', '\t', '\n', '\r'])
    (rest : List Char) : EndsNumber (c :: rest) := by
  intro d hd
  obtain rfl := Option.some.inj hd
  have hall : ∀ c ∈ [',', ']', '}', ' ', '\t', '\n', '\r'],
      c.isDigit = false ∧ c ≠ '.' ∧ c ≠ 'e' ∧ c ≠ 'E' := by simp
  exact hall c h

theorem endsNumber_space (h : Space ws) (hrest : EndsNumber rest) : EndsNumber (ws ++ rest) := by
  cases ws with
  | nil => exact hrest
  | cons c ws =>
    refine endsNumber_cons ?_ _
    have hc := h c List.mem_cons_self
    simp only [isSpace, Bool.or_eq_true, decide_eq_true_eq] at hc
    rcases hc with ((rfl | rfl) | rfl) | rfl <;> decide

/-- A step of the reader takes at least one character. -/
theorem exists_step {c : Char} (h : 2 * (c :: cs).length ≤ fuel) :
    ∃ left, fuel = left + 1 ∧ 2 * cs.length ≤ left := by
  rw [List.length_cons] at h
  exact ⟨fuel - 1, by omega, by omega⟩

mutual

/-- What writes a value is read as that value, up to its end. -/
theorem readValue_of_writes {v : Json} {cs : List Char} : Writes v cs →
    ∀ (rest : List Char) (fuel : Nat), EndsNumber rest → 2 * cs.length ≤ fuel →
      readValue fuel (cs ++ rest) = some (reading v, rest)
  | .null, rest, fuel, _, hfuel => by
    obtain ⟨left, rfl, -⟩ := exists_step hfuel
    rw [reading]
    rfl
  | .bool b, rest, fuel, _, hfuel => by
    rw [reading]
    cases b <;> rw [compact] at hfuel ⊢ <;> obtain ⟨left, rfl, -⟩ := exists_step hfuel <;> rfl
  | .nat n, rest, fuel, hrest, hfuel => by
    obtain ⟨left, rfl⟩ : ∃ left, fuel = left + 1 := by
      have hpos : 0 < (Nat.repr n).toList.length := by
        rw [Nat.toList_repr]
        exact Nat.length_toDigits_pos
      exact ⟨fuel - 1, by omega⟩
    rw [readValue_nat n hrest, reading]
  | .str s, rest, fuel, _, hfuel => by
    obtain ⟨left, rfl, -⟩ := exists_step hfuel
    rw [readValue, skipSpace_quote, reading]
    simp only [readString_append, Option.map_some]
  | .emptyArr, rest, fuel, _, hfuel => by
    obtain ⟨left, rfl, -⟩ := exists_step hfuel
    rw [reading, readings]
    rfl
  | .arr hitems, rest, fuel, _, hfuel => by
    obtain ⟨left, rfl, hleft⟩ := exists_step hfuel
    rw [List.cons_append, readValue_arr (hitems.skipSpace_ne rest),
      readItems_of_writes hitems rest left hleft, reading]
    rfl
  | .emptyObj, rest, fuel, _, hfuel => by
    obtain ⟨left, rfl, -⟩ := exists_step hfuel
    rw [reading, memberReadings]
    rfl
  | .obj hmembers, rest, fuel, _, hfuel => by
    obtain ⟨left, rfl, hleft⟩ := exists_step hfuel
    rw [List.cons_append, readValue_obj (hmembers.skipSpace_ne rest),
      readMembers_of_writes hmembers rest left hleft, reading]
    rfl

theorem readItems_of_writes {items : List Json} {cs : List Char} : WritesItems items cs →
    ∀ (rest : List Char) (fuel : Nat), 2 * cs.length ≤ fuel →
      readItems fuel (cs ++ rest) = some (readings items, rest)
  | @WritesItems.last v ws cs ws' hws hv hws', rest, fuel, hfuel => by
    obtain ⟨left, rfl, hleft⟩ : ∃ left, fuel = left + 1 ∧ 2 * cs.length ≤ left := by
      simp only [List.length_append, List.length_cons] at hfuel
      exact ⟨fuel - 1, by omega, by omega⟩
    have hread := readValue_of_writes hv (ws' ++ ']' :: rest) left
      (endsNumber_space hws' (endsNumber_cons (by decide) rest)) hleft
    have hclose : skipSpace (ws' ++ ']' :: rest) = ']' :: rest := by
      rw [skipSpace_append hws', skipSpace_of_not_space (by decide)]
    simp only [List.append_assoc, List.cons_append, List.nil_append]
    rw [readItems_congr (skipSpace_append hws _), readItems_last hread hclose, readings, readings]
  | @WritesItems.more v items ws cs ds hws hv hitems, rest, fuel, hfuel => by
    obtain ⟨left, rfl, hleft, hleft'⟩ :
        ∃ left, fuel = left + 1 ∧ 2 * cs.length ≤ left ∧ 2 * ds.length ≤ left := by
      simp only [List.length_append, List.length_cons] at hfuel
      exact ⟨fuel - 1, by omega, by omega, by omega⟩
    have hread := readValue_of_writes hv (',' :: (ds ++ rest)) left
      (endsNumber_cons (by decide) _) hleft
    have hcomma : skipSpace (',' :: (ds ++ rest)) = ',' :: (ds ++ rest) :=
      skipSpace_of_not_space (by decide)
    simp only [List.append_assoc, List.cons_append]
    rw [readItems_congr (skipSpace_append hws _), readItems_more hread hcomma,
      readItems_of_writes hitems rest left hleft', readings]
    rfl

theorem readMembers_of_writes {members : List (String × Json)} {cs : List Char} :
    WritesMembers members cs → ∀ (rest : List Char) (fuel : Nat), 2 * cs.length ≤ fuel →
      readMembers fuel (cs ++ rest) = some (memberReadings members, rest)
  | @WritesMembers.last k v ws ws' cs ws'' hws hws' hv hws'', rest, fuel, hfuel => by
    obtain ⟨left, rfl, hleft⟩ : ∃ left, fuel = left + 1 ∧ 2 * cs.length ≤ left := by
      simp only [List.length_append, List.length_cons] at hfuel
      exact ⟨fuel - 1, by omega, by omega⟩
    have hread := readValue_of_writes hv (ws'' ++ '}' :: rest) left
      (endsNumber_space hws'' (endsNumber_cons (by decide) rest)) hleft
    rw [← readValue_congr (skipSpace_append hws' _)] at hread
    have hclose : skipSpace (ws'' ++ '}' :: rest) = '}' :: rest := by
      rw [skipSpace_append hws'', skipSpace_of_not_space (by decide)]
    simp only [List.append_assoc, List.cons_append, List.nil_append]
    rw [readMembers_congr (skipSpace_append hws _), readMembers_last hread hclose, memberReadings,
      memberReadings]
  | @WritesMembers.more k v members ws ws' cs ds hws hws' hv hmembers, rest, fuel, hfuel => by
    obtain ⟨left, rfl, hleft, hleft'⟩ :
        ∃ left, fuel = left + 1 ∧ 2 * cs.length ≤ left ∧ 2 * ds.length ≤ left := by
      simp only [List.length_append, List.length_cons] at hfuel
      exact ⟨fuel - 1, by omega, by omega, by omega⟩
    have hread := readValue_of_writes hv (',' :: (ds ++ rest)) left
      (endsNumber_cons (by decide) _) hleft
    rw [← readValue_congr (skipSpace_append hws' _)] at hread
    have hcomma : skipSpace (',' :: (ds ++ rest)) = ',' :: (ds ++ rest) :=
      skipSpace_of_not_space (by decide)
    simp only [List.append_assoc, List.cons_append]
    rw [readMembers_congr (skipSpace_append hws _), readMembers_more hread hcomma,
      readMembers_of_writes hmembers rest left hleft', memberReadings]
    rfl

end

/-- A document that writes a value is read as that value. -/
theorem read?_of_writes {v : Json} (h : Writes v cs) : read? cs = some (reading v) := by
  have hread := readValue_of_writes h [] (2 * cs.length + 2) (fun _ hc => nomatch hc) (by omega)
  rw [List.append_nil] at hread
  rw [read?, hread]
  rfl

/-! ## Layouts -/

theorem space_nil : Space [] := fun _ hc => nomatch hc

theorem space_single : Space [' '] := by
  intro c hc
  rw [List.mem_singleton.1 hc]
  rfl

theorem space_newline (level : Nat) : Space (newline level) := by
  intro c hc
  rw [newline, List.mem_cons, List.mem_replicate] at hc
  rcases hc with rfl | ⟨-, rfl⟩ <;> rfl

mutual

theorem writes_compact : (v : Json) → Writes v (compact v)
  | .null => by rw [compact]; exact .null
  | .bool b => .bool b
  | .nat n => by rw [compact]; exact .nat n
  | .str s => by rw [compact]; exact .str s
  | .arr [] => by rw [compact, compactItems]; exact .emptyArr
  | .arr (v :: items) => by rw [compact]; exact .arr (writesItems_compact (v :: items) nofun)
  | .obj [] => by rw [compact, compactMembers]; exact .emptyObj
  | .obj (m :: members) => by
    rw [compact]
    exact .obj (writesMembers_compact (m :: members) nofun)

theorem writesItems_compact : (items : List Json) → items ≠ [] →
    WritesItems items (compactItems items ++ [']'])
  | [], h => absurd rfl h
  | [v], _ => by
    rw [compactItems]
    exact .last space_nil (writes_compact v) space_nil
  | v :: w :: items, _ => by
    rw [compactItems, List.append_assoc, List.cons_append]
    · exact .more space_nil (writes_compact v) (writesItems_compact (w :: items) nofun)
    · exact nofun

theorem writesMembers_compact : (members : List (String × Json)) → members ≠ [] →
    WritesMembers members (compactMembers members ++ ['}'])
  | [], h => absurd rfl h
  | [(k, v)], _ => by
    rw [compactMembers, List.append_assoc, List.cons_append]
    exact .last space_nil space_nil (writes_compact v) space_nil
  | (k, v) :: m :: members, _ => by
    rw [compactMembers, List.append_assoc, List.append_assoc, List.cons_append]
    · exact .more space_nil space_nil (writes_compact v)
        (writesMembers_compact (m :: members) nofun)
    · exact nofun

end

mutual

theorem writes_prettyAt : (v : Json) → (level : Nat) → Writes v (prettyAt level v)
  | .null, level => by rw [prettyAt, compact]; exact .null
  | .bool b, level => by rw [prettyAt]; exact .bool b
  | .nat n, level => by rw [prettyAt, compact]; exact .nat n
  | .str s, level => by rw [prettyAt, compact]; exact .str s
  | .arr [], level => by rw [prettyAt]; exact .emptyArr
  | .arr (v :: items), level => by
    rw [prettyAt, List.cons_append, List.cons_append, List.append_assoc]
    · exact .arr (writesItems_pretty (v :: items) (level + 1) level nofun)
    · exact nofun
  | .obj [], level => by rw [prettyAt]; exact .emptyObj
  | .obj (m :: members), level => by
    rw [prettyAt, List.cons_append, List.cons_append, List.append_assoc]
    · exact .obj (writesMembers_pretty (m :: members) (level + 1) level nofun)
    · exact nofun

theorem writesItems_pretty : (items : List Json) → (level outer : Nat) → items ≠ [] →
    WritesItems items (prettyItems level items ++ (newline outer ++ [']']))
  | [], _, _, h => absurd rfl h
  | [v], level, outer, _ => by
    rw [prettyItems, List.append_assoc]
    exact .last (space_newline level) (writes_prettyAt v level) (space_newline outer)
  | v :: w :: items, level, outer, _ => by
    rw [prettyItems, List.append_assoc, List.append_assoc, List.cons_append]
    · exact .more (space_newline level) (writes_prettyAt v level)
        (writesItems_pretty (w :: items) level outer nofun)
    · exact nofun

theorem writesMembers_pretty : (members : List (String × Json)) → (level outer : Nat) →
    members ≠ [] → WritesMembers members (prettyMembers level members ++ (newline outer ++ ['}']))
  | [], _, _, h => absurd rfl h
  | [(k, v)], level, outer, _ => by
    rw [prettyMembers, List.append_assoc, List.append_assoc, List.cons_append]
    exact .last (space_newline level) space_single (writes_prettyAt v level)
      (space_newline outer)
  | (k, v) :: m :: members, level, outer, _ => by
    rw [prettyMembers]
    · simp only [List.append_assoc, List.cons_append]
      exact .more (space_newline level) space_single (writes_prettyAt v level)
        (writesMembers_pretty (m :: members) level outer nofun)
    · exact nofun

end

theorem read?_compact (v : Json) : read? (compact v) = some (reading v) :=
  read?_of_writes (writes_compact v)

theorem read?_pretty (v : Json) : read? (pretty v) = some (reading v) :=
  read?_of_writes (writes_prettyAt v 0)

end LicenseAudit.Json
