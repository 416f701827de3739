import LicenseAudit.Expr.Octets
import LicenseAudit.Proofs.Expr.TopLevel

/-!
# Octets and characters

The pass over the octets of a text is the pass over its characters. The octets of a character that
takes more than one look like nothing the pass tells apart, so the first of them may start a token
and the others change nothing. And the pass over the characters follows the scan that reads token by
token: it keeps the offset at which a token starts, and cuts the token off where the scan stops. So
all its offsets lie between two characters, and its slices are the parts that the scan returns.

Results:
1. `cutOctets_eq`: both passes end in the same way.
2. `unwrapOctets_eq`: octets and characters tell the same parentheses around a token.
3. `Delimits.slice?`: what is between two offsets can be cut off.
4. `Pass.run_token`, `Pass.run_between`: the pass inside a token and between tokens.
5. `cuts_split`: each stretch that is cut off holds the part that the scan returns.
6. `octets_as_characters`: the cut of a text by its octets.
-/

namespace LicenseAudit.Expr

/-- The number of octets that characters take. -/
def width (cs : List Char) : Nat := (String.ofList cs).utf8ByteSize

/-- The stretch holds this part of the text. -/
def Delimits (text : String) (s : Span) (part : List Char) : Prop :=
  ∃ before after, text.toList = before ++ part ++ after ∧
    s = ⟨width before, width before + width part⟩

/-- The stretches of the cut hold the parts of the split, with a single token still in its
parentheses. A fault leaves stretches unused, but each of them holds some part. -/
inductive Cuts (text : String) : Cut → Split → Prop
  | empty : Cuts text .empty .empty
  | single {t : Span} {w : List Char} : Delimits text t w →
      Cuts text (.single t) (.single (unwrap w))
  | binary {s₁ s₂ s₃ : Span} {l o r : List Char} : Delimits text s₁ l → Delimits text s₂ o →
      Delimits text s₃ r → Cuts text (.binary s₁ s₂ s₃) (.binary l o r)
  | dangling {s₁ s₂ : Span} {l o : List Char} : Delimits text s₁ l → Delimits text s₂ o →
      Cuts text (.dangling s₁ s₂) .dangling
  | unbalanced {first : Option Span} : (∀ s ∈ first, ∃ part, Delimits text s part) →
      Cuts text (.unbalanced first) .unbalanced

/-! ## The octets of a character -/

theorem octetSign_of_le {b : UInt8} (h : 0x80 ≤ b) : octetSign b = .other := by
  have hne : ∀ k : UInt8, k < 0x80 → b ≠ k := by
    rintro k hk rfl
    exact absurd (UInt8.lt_of_lt_of_le hk h) (UInt8.lt_irrefl _)
  rw [octetSign, if_neg (hne 0x20 (by decide)), if_neg (hne 0x28 (by decide)),
    if_neg (hne 0x29 (by decide))]

theorem le_or_right {k : UInt8} (h : 0x80 ≤ k) (b : UInt8) : 0x80 ≤ b ||| k := by
  rw [UInt8.le_iff_toNat_le, UInt8.toNat_or]
  exact Nat.le_trans (UInt8.le_iff_toNat_le.1 h) Nat.right_le_or

/-- Every octet of a character that takes several has its highest bit set. -/
theorem le_of_mem_utf8EncodeChar {c : Char} (h : c.utf8Size ≠ 1) {b : UInt8}
    (hb : b ∈ String.utf8EncodeChar c) : 0x80 ≤ b := by
  rcases c.utf8Size_eq with hc | hc | hc | hc
  · exact absurd hc h
  · rw [String.utf8EncodeChar_eq_cons_cons hc] at hb
    simp only [List.mem_cons, List.not_mem_nil, or_false] at hb
    rcases hb with rfl | rfl <;> exact le_or_right (by decide) _
  · rw [String.utf8EncodeChar_eq_cons_cons_cons hc] at hb
    simp only [List.mem_cons, List.not_mem_nil, or_false] at hb
    rcases hb with rfl | rfl | rfl <;> exact le_or_right (by decide) _
  · rw [String.utf8EncodeChar_eq_cons_cons_cons_cons hc] at hb
    simp only [List.mem_cons, List.not_mem_nil, or_false] at hb
    rcases hb with rfl | rfl | rfl | rfl <;> exact le_or_right (by decide) _

theorem charSign_of_wide {c : Char} (h : c.utf8Size ≠ 1) : charSign c = .other := by
  have hne : ∀ d : Char, d.utf8Size = 1 → c ≠ d := by
    rintro d hd rfl
    exact h hd
  rw [charSign, if_neg (hne ' ' rfl), if_neg (hne '(' rfl), if_neg (hne ')' rfl)]

theorem octetSign_of_wide {c : Char} (h : c.utf8Size ≠ 1) :
    ∀ b ∈ String.utf8EncodeChar c, octetSign b = .other :=
  fun _ hb => octetSign_of_le (le_of_mem_utf8EncodeChar h hb)

theorem octetSign_of_narrow {c : Char} (h : c.utf8Size = 1) :
    octetSign c.val.toUInt8 = charSign c := by
  have hall : ∀ n < 128, octetSign (Char.ofNat n).val.toUInt8 = charSign (Char.ofNat n) := by decide
  have hlt : c.toNat < 128 :=
    Nat.lt_succ_of_le (UInt32.le_iff_toNat_le.1 (Char.utf8Size_eq_one_iff.1 h))
  have := hall c.toNat hlt
  rwa [Char.ofNat_toNat] at this

theorem Pass.step_other (p : Pass) (stop i : Nat) : p.step stop i .other = .ok (p.keep i) := by
  simp [step, Sign.after, keep]

theorem nesting_singleton (depth : Nat) (c : Char) :
    nesting depth [c] = (charSign c).after depth := by
  by_cases ho : c = '('
  · subst ho
    rfl
  · by_cases hc : c = ')'
    · subst hc
      cases depth <;> rfl
    · by_cases hs : c = ' ' <;> simp [nesting, charSign, Sign.after, ho, hc, hs]

/-! ## Both passes -/

theorem Pass.run_cons_ok {α : Type} {sign : α → Sign} {w : α → Nat} {stop i : Nat} {p q : Pass}
    {x : α} (h : p.step stop i (sign x) = .ok q) (xs : List α) :
    p.run sign w stop i (x :: xs) = q.run sign w stop (i + w x) xs := by
  rw [run, h]

/-- Inside a token, octets that are nothing special change nothing. -/
theorem Pass.run_others {p : Pass} (hp : ∀ j, p.keep j = p) (stop i : Nat) {bs : List UInt8}
    (h : ∀ b ∈ bs, octetSign b = .other) (rest : List UInt8) :
    p.run octetSign (fun _ => 1) stop i (bs ++ rest) =
      p.run octetSign (fun _ => 1) stop (i + bs.length) rest := by
  induction bs generalizing i with
  | nil => rfl
  | cons b bs ih =>
    have hstep : p.step stop i (octetSign b) = .ok p := by
      rw [h b List.mem_cons_self, step_other, hp]
    rw [List.cons_append, run_cons_ok hstep, ih _ fun c hc => h c (List.mem_cons_of_mem _ hc),
      List.length_cons, Nat.add_assoc, Nat.add_comm 1]

/-- The octets of a character are one step together. -/
theorem Pass.run_utf8EncodeChar (p : Pass) (stop i : Nat) (c : Char) (rest : List UInt8) :
    p.run octetSign (fun _ => 1) stop i (String.utf8EncodeChar c ++ rest) =
      match p.step stop i (charSign c) with
      | .error cut => cut
      | .ok q => q.run octetSign (fun _ => 1) stop (i + c.utf8Size) rest := by
  by_cases hc : c.utf8Size = 1
  · rw [String.utf8EncodeChar_eq_singleton hc, List.singleton_append, run, octetSign_of_narrow hc]
    cases p.step stop i (charSign c) with
    | error cut => rfl
    | ok q => simp only [hc]
  · have hothers := octetSign_of_wide hc
    have hlength := String.length_utf8EncodeChar c
    rw [charSign_of_wide hc]
    -- The first octet starts a token if none is being read; the others are inside a token.
    cases hbs : String.utf8EncodeChar c with
    | nil =>
      rw [hbs] at hlength
      exact absurd hlength (Nat.ne_of_lt c.utf8Size_pos)
    | cons b bs =>
      rw [hbs] at hothers hlength
      have hstep : p.step stop i (octetSign b) = .ok (p.keep i) := by
        rw [hothers b List.mem_cons_self, step_other]
      have hsize : i + 1 + bs.length = i + c.utf8Size := by
        rw [← hlength, List.length_cons, Nat.add_assoc, Nat.add_comm 1]
      have hrest : ∀ b ∈ bs, octetSign b = .other :=
        fun b hb => hothers b (List.mem_cons_of_mem _ hb)
      rw [List.cons_append, run_cons_ok hstep, run_others (p.keep_keep i) _ _ hrest, hsize,
        step_other]

theorem Pass.run_octets (p : Pass) (stop i : Nat) (cs : List Char) :
    p.run octetSign (fun _ => 1) stop i (cs.flatMap String.utf8EncodeChar) =
      p.run charSign Char.utf8Size stop i cs := by
  induction cs generalizing p i with
  | nil => rfl
  | cons c cs ih =>
    rw [List.flatMap_cons, run_utf8EncodeChar, run]
    cases p.step stop i (charSign c) with
    | error cut => rfl
    | ok q => exact ih ..

theorem octets_eq (text : String) : octets text = text.toList.flatMap String.utf8EncodeChar := by
  obtain ⟨cs, rfl⟩ := text.exists_eq_ofList
  rw [octets, String.toUTF8_eq_toByteArray, String.toByteArray_ofList, List.utf8Encode,
    List.data_toByteArray, String.toList_ofList]

/-- Both passes end in the same way. -/
theorem cutOctets_eq (text : String) : cutOctets text = cutCharacters text := by
  rw [cutOctets, octets_eq, Pass.run_octets, cutCharacters]

/-! ## Parentheses around a token -/

theorem nestingOctets_others {bs : List UInt8} (h : ∀ b ∈ bs, octetSign b = .other) (depth : Nat)
    (rest : List UInt8) : nestingOctets depth (bs ++ rest) = nestingOctets depth rest := by
  induction bs with
  | nil => rfl
  | cons b bs ih =>
    rw [List.cons_append, nestingOctets, h b List.mem_cons_self]
    exact ih fun y hy => h y (List.mem_cons_of_mem _ hy)

theorem nestingOctets_eq (depth : Nat) (cs : List Char) :
    nestingOctets depth (cs.flatMap String.utf8EncodeChar) = nesting depth cs := by
  induction cs generalizing depth with
  | nil => rfl
  | cons c cs ih =>
    rw [List.flatMap_cons, nesting_cons, nesting_singleton]
    by_cases hc : c.utf8Size = 1
    · rw [String.utf8EncodeChar_eq_singleton hc, List.singleton_append, nestingOctets,
        octetSign_of_narrow hc]
      simp only [ih]
    · rw [nestingOctets_others (octetSign_of_wide hc), ih, charSign_of_wide hc]
      rfl

theorem unwrapOctets_eq (token : List Char) : unwrapOctets token = unwrap token := by
  have hinner : ∀ cs,
      nestingOctets 0 (octets (String.ofList cs)) = some 0 ↔ balanced cs = true := by
    intro cs
    rw [octets_eq, String.toList_ofList, nestingOctets_eq, balanced, decide_eq_true_iff]
  simp only [unwrapOctets, hinner]
  rfl

/-! ## Slices -/

theorem width_append (as bs : List Char) : width (as ++ bs) = width as + width bs := by
  rw [width, String.ofList_append, String.utf8ByteSize_append, width, width]

theorem width_cons (c : Char) (cs : List Char) : width (c :: cs) = c.utf8Size + width cs := by
  have h : c :: cs = [c] ++ cs := rfl
  rw [h, width_append]
  congr 1
  rw [width, ← String.singleton_eq_ofList, String.utf8ByteSize_singleton]

theorem isValid_width {text : String} {before after : List Char}
    (h : text.toList = before ++ after) : String.Pos.Raw.IsValid text ⟨width before⟩ := by
  refine String.Pos.Raw.isValid_iff_exists_append.2 ⟨.ofList before, .ofList after, ?_, rfl⟩
  rw [← String.ofList_append, ← h, String.ofList_toList]

theorem Delimits.valid {text : String} {s : Span} {part : List Char} (h : Delimits text s part) :
    s.Valid text := by
  obtain ⟨before, after, htext, rfl⟩ := h
  have hstart : text.toList = before ++ (part ++ after) := by rw [htext, List.append_assoc]
  refine ⟨isValid_width hstart, ?_, Nat.le_add_right ..⟩
  rw [← width_append]
  exact isValid_width htext

theorem extract_of_toList {text : String} {before part after : List Char}
    (h : text.toList = before ++ part ++ after) {b e : text.Pos}
    (hb : b.offset.byteIdx = width before) (he : e.offset.byteIdx = width before + width part) :
    text.extract b e = String.ofList part := by
  have hbytes : text.toByteArray = (String.ofList before).toByteArray ++
      ((String.ofList part).toByteArray ++ (String.ofList after).toByteArray) := by
    rw [← String.toByteArray_append, ← String.toByteArray_append, ← String.ofList_append,
      ← String.ofList_append, ← List.append_assoc, ← h, String.ofList_toList]
  have hsize : ∀ cs, width cs = (String.ofList cs).toByteArray.size := fun _ => rfl
  rw [← String.toByteArray_inj, String.toByteArray_extract, hb, he, hbytes,
    ← Nat.add_zero (width before), Nat.add_assoc, Nat.zero_add,
    ByteArray.extract_append_size_add' (hsize before),
    ByteArray.extract_append_eq_left (hsize part)]

/-- What is between two offsets can be cut off. -/
theorem Delimits.slice? {text : String} {s : Span} {part : List Char} (h : Delimits text s part) :
    s.slice? text = some part := by
  rw [Span.slice?, dif_pos h.valid]
  obtain ⟨before, after, htext, rfl⟩ := h
  rw [extract_of_toList htext rfl rfl, String.toList_ofList]

/-! ## The pass over the characters and the scan -/

section

variable {text : String}

theorem Pass.step_char {p : Pass} {c : Char} {stop i : Nat} (h : ¬ (c = ' ' ∧ p.depth = 0)) :
    p.step stop i (charSign c) =
      match nesting p.depth [c] with
      | none => .error (.unbalanced p.first)
      | some depth => .ok { p.keep i with depth } := by
  have hspace : charSign c = .space ↔ c = ' ' := by
    by_cases hs : c = ' '
    · simp [charSign, hs]
    · by_cases ho : c = '('
      · simp [charSign, ho]
      · by_cases hc : c = ')' <;> simp [charSign, hs, ho, hc]
  have hno : ¬ (charSign c = .space ∧ p.depth = 0) := by rwa [hspace]
  have hstep : p.step stop i (charSign c) =
      match (charSign c).after p.depth with
      | none => .error (.unbalanced p.first)
      | some depth => .ok { p.keep i with depth } := if_neg hno
  rw [hstep, nesting_singleton]

/-- Inside a token that started at an offset, the pass follows the scan to the space where the token
ends, or to the end of the text. -/
theorem Pass.run_token (stop : Nat) (first : Option Span) (start depth i : Nat) (cs : List Char) :
    Pass.run charSign Char.utf8Size stop ⟨first, some start, depth⟩ i cs =
      match takeToken depth cs with
      | none => .unbalanced first
      | some (_, none) => Pass.finish ⟨first, some start, 0⟩ stop
      | some (token, some rest) =>
        Pass.run charSign Char.utf8Size stop ⟨first, some start, 0⟩ (i + width token)
          (' ' :: rest) := by
  -- The offset at which the token starts is kept, so the steps differ in the depth only.
  induction cs generalizing depth i with
  | nil =>
    cases depth with
    | zero => rfl
    | succ d => rfl
  | cons c cs ih =>
    rw [takeToken_cons]
    by_cases hs : c = ' ' ∧ depth = 0
    · obtain ⟨rfl, rfl⟩ := hs
      rfl
    · rw [if_neg hs, run, step_char hs]
      cases nesting depth [c] with
      | none => rfl
      | some k =>
        rw [Option.bind_some]
        show run charSign Char.utf8Size stop ⟨first, some start, k⟩ _ cs = _
        rw [ih]
        cases takeToken k cs with
        | none => rfl
        | some t =>
          obtain ⟨token, rest⟩ := t
          cases rest with
          | none => rfl
          | some rest => simp only [Option.map_some, width_cons, Nat.add_assoc]

/-- Between tokens the pass skips spaces. What comes then starts a token. -/
theorem Pass.run_between (stop : Nat) (first : Option Span) {a cs : List Char} (ha : Spaces a)
    (i : Nat) (hcs : cs.head? ≠ some ' ') :
    Pass.run charSign Char.utf8Size stop ⟨first, none, 0⟩ i (a ++ cs) =
      if cs = [] then Pass.finish ⟨first, none, 0⟩ stop
      else
        Pass.run charSign Char.utf8Size stop ⟨first, some (i + width a), 0⟩ (i + width a) cs := by
  induction a generalizing i with
  | nil =>
    cases cs with
    | nil => rfl
    | cons c cs =>
      have hc : c ≠ ' ' := fun heq => hcs (congrArg some heq)
      rw [if_neg (List.cons_ne_nil _ _), List.nil_append, run, run, step_char fun h => hc h.1,
        step_char fun h => hc h.1]
      cases nesting 0 [c] <;> rfl
  | cons c a ih =>
    obtain ⟨rfl, hspaces⟩ := List.forall_mem_cons.1 ha
    have hstep : Pass.step ⟨first, none, 0⟩ stop i (charSign ' ') = .ok ⟨first, none, 0⟩ := rfl
    rw [List.cons_append, run_cons_ok hstep, ih hspaces, width_cons, Nat.add_assoc]

theorem delimits_end {before part : List Char} (h : text.toList = before ++ part) :
    Delimits text ⟨width before, text.utf8ByteSize⟩ part := by
  have hall : width text.toList = text.utf8ByteSize := by rw [width, String.ofList_toList]
  exact ⟨before, [], by rw [List.append_nil, h], by rw [← width_append, ← h, hall]⟩

/-- Behind the first token there is a second one with an operand behind its space, or a second one
alone, or nothing. -/
theorem Pass.cuts_behind {before rest w : List Char} {s : Span}
    (htext : text.toList = before ++ ' ' :: rest) (hw : Delimits text s w) :
    Cuts text
      (Pass.run charSign Char.utf8Size text.utf8ByteSize ⟨some s, none, 0⟩ (width before + 1) rest)
      (if dropSpaces rest = [] then .single (unwrap w)
      else
        match takeToken 0 (dropSpaces rest) with
        | none => .unbalanced
        | some (_, none) => .dangling
        | some (second, some right) => .binary w second right) := by
  obtain ⟨a, ha, hrest⟩ := exists_spaces_append_dropSpaces rest
  have hhead := dropSpaces_head?_ne rest
  -- What matters of the rest is that it is spaces and then something else, or nothing.
  generalize dropSpaces rest = next at hrest hhead ⊢
  subst hrest
  rw [run_between _ _ ha _ hhead]
  by_cases hnil : next = []
  · rw [if_pos hnil, if_pos hnil]
    exact .single hw
  · have hoffset : width before + 1 + width a = width (before ++ ' ' :: a) := by
      rw [width_append, width_cons, Nat.add_assoc]
      rfl
    rw [if_neg hnil, if_neg hnil, run_token, hoffset]
    cases ht : takeToken 0 next with
    | none =>
      refine .unbalanced fun s' hs' => ?_
      obtain rfl := Option.some.inj hs'
      exact ⟨w, hw⟩
    | some t =>
      obtain ⟨second, right⟩ := t
      obtain rfl := takeToken_some ht
      cases right with
      | none =>
        have hsecond : text.toList = before ++ ' ' :: a ++ second := by simp [htext]
        exact .dangling hw (delimits_end hsecond)
      | some right =>
        have hright : width (before ++ ' ' :: a) + width second + 1 =
            width (before ++ ' ' :: a ++ second ++ [' ']) := by
          rw [width_append (before ++ ' ' :: a ++ second), width_append (before ++ ' ' :: a)]
          rfl
        refine .binary hw ⟨before ++ ' ' :: a, ' ' :: right, by simp [htext], rfl⟩ ?_
        rw [hright]
        exact delimits_end (by simp [htext])

/-- Each stretch that is cut off holds the part that the scan returns. -/
theorem cuts_split (text : String) : Cuts text (cutCharacters text) (split text.toList) := by
  obtain ⟨a, ha, htext⟩ := exists_spaces_append_dropSpaces text.toList
  have hhead := dropSpaces_head?_ne text.toList
  have hrun := Pass.run_between text.utf8ByteSize none ha 0 hhead
  rw [← htext, Nat.zero_add] at hrun
  rw [cutCharacters, Pass.initial, hrun]
  by_cases hnil : dropSpaces text.toList = []
  · rw [if_pos hnil]
    simp only [split, hnil]
    exact .empty
  · rw [if_neg hnil, split_of_takeToken rfl hnil, Pass.run_token]
    cases ht : takeToken 0 (dropSpaces text.toList) with
    | none => exact .unbalanced fun s hs => absurd hs (Option.not_mem_none s)
    | some t =>
      obtain ⟨w, rest⟩ := t
      have hstart := takeToken_some ht
      rw [hstart] at htext
      cases rest with
      | none => exact .single (delimits_end (by simpa using htext))
      | some rest =>
        have hw : Delimits text ⟨width a, width a + width w⟩ w :=
          ⟨a, ' ' :: rest, by simpa using htext, rfl⟩
        have hrest : text.toList = a ++ w ++ ' ' :: rest := by simpa using htext
        have hbehind := Pass.cuts_behind hrest hw
        rw [width_append] at hbehind
        exact hbehind

end

/-! ## The cut by octets -/

theorem Cuts.valid {text : String} {c : Cut} {s : Split} (h : Cuts text c s) :
    ∀ span ∈ c.spans, span.Valid text := by
  cases h with
  | empty => exact nofun
  | single hw => simpa [Cut.spans] using hw.valid
  | binary hl ho hr => simp [Cut.spans, hl.valid, ho.valid, hr.valid]
  | dangling hl ho => simp [Cut.spans, hl.valid, ho.valid]
  | unbalanced hfirst =>
    intro span hspan
    obtain ⟨part, hpart⟩ := hfirst span (Option.mem_toList.1 hspan)
    exact hpart.valid

theorem Cuts.parts? {text : String} {c : Cut} {s : Split} (h : Cuts text c s) :
    c.parts? text = some s := by
  cases h with
  | empty => rfl
  | single hw => simp [Cut.parts?, hw.slice?, unwrapOctets_eq]
  | binary hl ho hr => simp [Cut.parts?, hl.slice?, ho.slice?, hr.slice?]
  | dangling hl ho => simp [Cut.parts?, hl.slice?, ho.slice?]
  | @unbalanced first hfirst =>
    cases first with
    | none => rfl
    | some span =>
      obtain ⟨part, hpart⟩ := hfirst span rfl
      simp [Cut.parts?, hpart.slice?]

/-- Whatever characters a text has, the pass over its octets ends as the pass over its characters
does. Each offset it slices at lies in the text and between two characters, so that the slices
exist, and they are the parts of the cut by characters. The parentheses around a token are told by
its octets as well as by its characters. -/
theorem octets_as_characters (text : String) :
    cutOctets text = cutCharacters text ∧
      (∀ span ∈ (cutOctets text).spans, String.Pos.Raw.IsValid text ⟨span.start⟩ ∧
        String.Pos.Raw.IsValid text ⟨span.stop⟩ ∧ span.start ≤ span.stop) ∧
      splitOctets text = some (split text.toList) ∧
      unwrapOctets text.toList = unwrap text.toList := by
  have hcuts := cuts_split text
  rw [← cutOctets_eq] at hcuts
  exact ⟨cutOctets_eq text, hcuts.valid, hcuts.parts?, unwrapOctets_eq _⟩

/-- In this text three characters take more than one octet, so offset 2 lies inside a character. A
parenthesis without a partner behind the operator does not matter. -/
theorem octets_as_characters_wide :
    let text := "(ü ß) && €)"
    cutOctets text = .binary ⟨0, 7⟩ ⟨8, 10⟩ ⟨11, 15⟩ ∧ ¬ String.Pos.Raw.IsValid text ⟨2⟩ ∧
      (∀ span ∈ [Span.mk 0 7, Span.mk 8 10, Span.mk 11 15], span.Valid text) ∧
      splitOctets text = some (.binary "(ü ß)".toList "&&".toList "€)".toList) := by
  intro text
  obtain ⟨hcut, hvalid, hsplit, -⟩ := octets_as_characters text
  have hspans : cutOctets text = .binary ⟨0, 7⟩ ⟨8, 10⟩ ⟨11, 15⟩ := hcut.trans (by decide)
  have hparts : split text.toList = .binary "(ü ß)".toList "&&".toList "€)".toList := by decide
  rw [hspans] at hvalid
  exact ⟨hspans, by decide, hvalid, hsplit.trans (congrArg some hparts)⟩

end LicenseAudit.Expr
