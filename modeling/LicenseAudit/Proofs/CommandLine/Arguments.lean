import LicenseAudit.Proofs.CommandLine
import Mathlib.Data.List.TakeWhile

/-!
# Arguments in any order

The words behind a command are options and operands, and each of them can be told from its
neighbours: an option with its value is one word with an equals sign or two words, a flag is one
word, and an operand is a word without a dash in front. So arguments may be written in any order,
and the reader finds what was written. The order counts for the values of one option only.

Results:
1. `Gives.readWords_append`: the words that give an option are read as this option.
2. `readWords_of_arguments`: arguments are read back.
3. `parse_of_arguments`: a command line with these arguments asks for the command they make.
-/

namespace LicenseAudit.CommandLine

/-! ## Definitions -/

/-- These words give the option with this value.

* `joined`, `apart`: a long name, and the value behind an equals sign or in a word of its own, which
  must not look like an option.
* `flag`, `short`: an option without a value, by its long or its short name. -/
inductive Gives (g : Grammar) : List String → String → String → Prop
  | joined {o : Switch} {name value : String} : g.long? name = some o → o.takesValue = true →
      o.accepts value = true → Gives g ["--" ++ name ++ "=" ++ value] name value
  | apart {o : Switch} {name value : String} : g.long? name = some o → o.takesValue = true →
      o.accepts value = true → isDashed value.toList = false →
      Gives g ["--" ++ name, value] name value
  | flag {o : Switch} {name : String} : g.long? name = some o → o.takesValue = false →
      name ≠ "version" → name ≠ "help" → Gives g ["--" ++ name] name "true"
  | short {o : Switch} {letter : Char} : g.short? letter = some o → o.takesValue = false →
      o.long ≠ "version" → o.long ≠ "help" → letter ≠ '-' →
      Gives g [String.ofList ['-', letter]] o.long "true"

/-- What is found if the operand comes before everything else. -/
def Found.firstOperand (f : Found) (word : String) : Found :=
  { f with operands := word :: f.operands }

/-- Arguments as they are written, and what is to be found in them. Behind two dashes there are only
operands. -/
inductive Arguments (g : Grammar) : List String → Found → Prop
  | none : Arguments g [] .none
  | option {ws rest : List String} {name value : String} {f : Found} : Gives g ws name value →
      Arguments g rest f → Arguments g (ws ++ rest) (f.first name value)
  | operand {word : String} {rest : List String} {f : Found} : isDashed word.toList = false →
      Arguments g rest f → Arguments g (word :: rest) (f.firstOperand word)
  | plain (words : List String) : Arguments g ("--" :: words) ⟨[], words⟩

/-- Only options with a value may be repeated, and of these only some. -/
def Found.Once (f : Found) (g : Grammar) : Prop :=
  ∀ o ∈ g.options, (o.takesValue && o.repeatable) = false → (f.values o.long).length ≤ 1

instance (f : Found) (g : Grammar) : Decidable (f.Once g) :=
  inferInstanceAs (Decidable (∀ o ∈ g.options, _))

/-- There is room for the operands. A limit of 0 stands for any number. -/
def Grammar.HasRoom (g : Grammar) (operands : List String) : Prop :=
  ∃ limit, g.operands = some limit ∧ (limit = 0 ∨ operands.length ≤ limit)

/-- Long names are told from values by the first equals sign. -/
def Grammar.WellNamed (g : Grammar) : Prop :=
  ∀ o ∈ g.options, o.long ≠ "" ∧ '=' ∉ o.long.toList

instance (g : Grammar) : Decidable g.WellNamed := inferInstanceAs (Decidable (∀ o ∈ g.options, _))

/-- What is found in two parts. -/
def Found.append (f found : Found) : Found :=
  ⟨f.options ++ found.options, f.operands ++ found.operands⟩

variable {g : Grammar} {f found : Found} {name value : String} {words rest ws : List String}

/-! ## What is found -/

theorem Found.mem_values_iff : value ∈ f.values name ↔ (name, value) ∈ f.options := by
  rw [values, List.mem_map]
  constructor
  · rintro ⟨p, hp, rfl⟩
    obtain ⟨hp, hname⟩ := List.mem_filter.1 hp
    rwa [← of_decide_eq_true hname]
  · exact fun h => ⟨_, List.mem_filter.2 ⟨h, decide_eq_true rfl⟩, rfl⟩

theorem Found.append_first (f found : Found) (name value : String) :
    f.append (found.first name value) = (f.addOption name value).append found := by
  simp [append, first, addOption]

theorem Found.append_firstOperand (f found : Found) (word : String) :
    f.append (found.firstOperand word) = (f.addOperand word).append found := by
  simp [append, firstOperand, addOperand]

theorem Found.has_eq_false_iff : f.has name = false ↔ f.values name = [] := by
  rw [has, Option.isSome_eq_false_iff, Option.isNone_iff_eq_none, List.lookup_eq_none_iff, values,
    List.map_eq_nil_iff, List.filter_eq_nil_iff]
  refine forall₂_congr fun p _ => ?_
  rw [bne_iff_ne, decide_eq_true_iff, ne_comm]

/-- What may not be repeated was not found before. -/
theorem Found.Once.has_eq_false {o : Switch} (h : ((f.addOption o.long value).append found).Once g)
    (ho : o ∈ g.options) (hno : (o.takesValue && o.repeatable) = false) :
    f.has o.long = false := by
  have hlen := h o ho hno
  rw [values, append, addOption, List.filter_append, List.filter_append,
    List.filter_cons_of_pos (by simp)] at hlen
  simp only [List.length_map, List.length_append, List.length_cons] at hlen
  rw [has_eq_false_iff, values, List.map_eq_nil_iff, ← List.length_eq_zero_iff]
  omega

theorem Grammar.HasRoom.takesOperand {word : String} {after : List String}
    (h : g.HasRoom (f.operands ++ word :: after)) : g.takesOperand f = true := by
  obtain ⟨limit, hlimit, hroom⟩ := h
  rw [List.length_append, List.length_cons] at hroom
  have hfree : limit = 0 ∨ f.operands.length < limit := hroom.imp_right fun hle => by omega
  simp [Grammar.takesOperand, hlimit, hfree]

/-! ## Words that give an option -/

theorem toList_long (name : String) : ("--" ++ name).toList = '-' :: '-' :: name.toList := by
  rw [String.toList_append]
  rfl

theorem isDashed_long (name : String) : isDashed ("--" ++ name).toList = true := by
  rw [toList_long]
  rfl

theorem long_ne_dashes (h : name ≠ "") : "--" ++ name ≠ "--" := by
  intro heq
  exact h (by simpa using heq)

theorem Grammar.mem_of_long? {o : Switch} (h : g.long? name = some o) :
    o ∈ g.options ∧ o.long = name :=
  ⟨List.mem_of_find?_eq_some h, by simpa using List.find?_some h⟩

/-- Reading goes on behind a word with options, if they can be taken. -/
theorem readWords_dashed {word : String} {waiting : Option Switch} (hg : g.commands = [])
    (hne : word ≠ "--") (hdashed : isDashed word.toList = true)
    (htake : takeDashed g f word.toList = .go found waiting) :
    readWords g f none false (word :: rest) = readWords g found waiting false rest := by
  rw [readWords, if_neg Bool.false_ne_true, hg, if_neg (by simp), if_neg hne, if_pos hdashed,
    if_neg (by simp)]
  simp only [htake]

/-- The value of an option that waits for it is the next word. -/
theorem readWords_waiting {o : Switch} (hvalue : isDashed value.toList = false)
    (htake : takeValue f o value = .go found none) :
    readWords g f (some o) false (value :: rest) = readWords g found none false rest := by
  have hne : value ≠ "--" := by
    rintro rfl
    cases hvalue
  rw [readWords, if_neg Bool.false_ne_true, if_neg (by simp), if_neg hne, hvalue,
    if_neg Bool.false_ne_true]
  simp only [htake]

theorem takeDashed_joined (hname : '=' ∉ name.toList) (value : String) :
    takeDashed g f ("--" ++ (name ++ "=" ++ value)).toList = takeLong g f name (some value) := by
  have hkeep : ∀ c ∈ name.toList, decide (c ≠ '=') = true :=
    fun c hc => decide_eq_true fun heq => hname (heq ▸ hc)
  have hword : (name ++ "=" ++ value).toList = name.toList ++ '=' :: value.toList := by
    simp [String.toList_append]
  rw [toList_long, hword, takeDashed]
  simp only [List.takeWhile_append_of_pos hkeep, List.dropWhile_append_of_pos hkeep]
  simp [String.ofList_toList]

theorem takeDashed_long (hname : '=' ∉ name.toList) :
    takeDashed g f ("--" ++ name).toList = takeLong g f name none := by
  have hkeep : ∀ c ∈ name.toList, decide (c ≠ '=') = true :=
    fun c hc => decide_eq_true fun heq => hname (heq ▸ hc)
  have htake : name.toList.takeWhile (· ≠ '=') = name.toList := List.takeWhile_eq_self_iff.2 hkeep
  have hdrop : name.toList.dropWhile (· ≠ '=') = [] := List.dropWhile_eq_nil_iff.2 hkeep
  rw [toList_long, takeDashed]
  simp only [htake, hdrop, String.ofList_toList]

theorem takeValue_of_once {o : Switch} (ho : o ∈ g.options) (haccepts : o.accepts value = true)
    (htakes : o.takesValue = true) (honce : ((f.addOption o.long value).append found).Once g) :
    takeValue f o value = .go (f.addOption o.long value) none := by
  rw [takeValue, if_neg]
  rw [Bool.or_eq_true, Bool.and_eq_true, haccepts]
  rintro (⟨hhas, hrepeat⟩ | h)
  · have hno : (o.takesValue && o.repeatable) = false := by
      rw [htakes, Bool.true_and]
      simpa using hrepeat
    rw [honce.has_eq_false ho hno] at hhas
    cases hhas
  · cases h

theorem takeFlag_of_once {o : Switch} (ho : o ∈ g.options) (htakes : o.takesValue = false)
    (hversion : o.long ≠ "version") (hhelp : o.long ≠ "help")
    (honce : ((f.addOption o.long "true").append found).Once g) :
    takeFlag f o = .go (f.addOption o.long "true") none := by
  have hhas := honce.has_eq_false ho (by rw [htakes, Bool.false_and])
  rw [takeFlag, if_neg hversion, if_neg hhelp, hhas, if_neg Bool.false_ne_true]

/-- Words that give an option are read as this option, whatever follows. -/
theorem Gives.readWords_append (h : Gives g ws name value) (hg : g.commands = [])
    (hnamed : g.WellNamed) (honce : ((f.addOption name value).append found).Once g) :
    readWords g f none false (ws ++ rest) =
      readWords g (f.addOption name value) none false rest := by
  cases h with
  | @joined o _ _ ho htakes haccepts =>
    obtain ⟨hmem, rfl⟩ := Grammar.mem_of_long? ho
    have hne : o.long ++ "=" ++ value ≠ "" := by simp [(hnamed o hmem).1]
    have hword : "--" ++ o.long ++ "=" ++ value = "--" ++ (o.long ++ "=" ++ value) := by
      simp only [String.append_assoc]
    rw [hword]
    refine readWords_dashed hg (long_ne_dashes hne) (isDashed_long _) ?_
    rw [takeDashed_joined (hnamed o hmem).2]
    simp only [takeLong, ho, htakes, if_true]
    exact takeValue_of_once hmem haccepts htakes honce
  | @apart o _ _ ho htakes haccepts hvalue =>
    obtain ⟨hmem, rfl⟩ := Grammar.mem_of_long? ho
    have htake : takeDashed g f ("--" ++ o.long).toList = .go f (some o) := by
      rw [takeDashed_long (hnamed o hmem).2]
      simp only [takeLong, ho, htakes, if_true]
    rw [List.cons_append,
      readWords_dashed hg (long_ne_dashes (hnamed o hmem).1) (isDashed_long _) htake]
    exact readWords_waiting hvalue (takeValue_of_once hmem haccepts htakes honce)
  | @flag o _ ho htakes hversion hhelp =>
    obtain ⟨hmem, rfl⟩ := Grammar.mem_of_long? ho
    refine readWords_dashed hg (long_ne_dashes (hnamed o hmem).1) (isDashed_long _) ?_
    rw [takeDashed_long (hnamed o hmem).2]
    simp only [takeLong, ho, htakes, Bool.false_eq_true, if_false]
    exact takeFlag_of_once hmem htakes hversion hhelp honce
  | @short o letter ho htakes hversion hhelp hletter =>
    have hmem : o ∈ g.options := List.mem_of_find?_eq_some ho
    have hne : String.ofList ['-', letter] ≠ "--" := by
      intro heq
      have := congrArg String.toList heq
      rw [String.toList_ofList] at this
      exact hletter (List.cons.inj (List.cons.inj this).2).1
    have hrow : takeDashed g f ['-', letter] = takeShort g f [letter] := by
      unfold takeDashed
      split
      · next heq => exact absurd (List.cons.inj (List.cons.inj heq).2).1 hletter
      · rfl
    refine readWords_dashed hg hne (by simp [isDashed]) ?_
    rw [String.toList_ofList, hrow]
    simp only [takeShort, ho, htakes, Bool.false_eq_true, if_false,
      takeFlag_of_once hmem htakes hversion hhelp honce]

/-! ## Arguments -/

theorem readWords_operand (hg : g.commands = []) {word : String}
    (hword : isDashed word.toList = false) (htakes : g.takesOperand f = true) :
    readWords g f none false (word :: rest) = readWords g (f.addOperand word) none false rest := by
  have hne : word ≠ "--" := by
    rintro rfl
    cases hword
  rw [readWords, if_neg Bool.false_ne_true, hg, if_neg (by simp), if_neg hne, hword,
    if_neg Bool.false_ne_true]
  simp only [htakes, if_true]

theorem readWords_plain (hroom : g.HasRoom (f.operands ++ words)) :
    readWords g f none true words = .finished (f.append ⟨[], words⟩) := by
  induction words generalizing f with
  | nil => simp [readWords, Found.append]
  | cons word rest ih =>
    have hrest : g.HasRoom ((f.addOperand word).operands ++ rest) := by
      simpa [Found.addOperand] using hroom
    rw [readWords, if_pos rfl, if_pos (by simp [hroom.takesOperand]), ih hrest]
    simp [Found.addOperand, Found.append]

/-- Arguments are read back, behind whatever was found before, as long as nothing is repeated that
must not be and there is room for all operands. -/
theorem readWords_of_arguments (h : Arguments g words found) (hg : g.commands = [])
    (hnamed : g.WellNamed) (honce : (f.append found).Once g)
    (hroom : g.HasRoom (f.append found).operands) :
    readWords g f none false words = .finished (f.append found) := by
  induction h generalizing f with
  | none => simp [readWords, Found.append, Found.none]
  | option hgives _ ih =>
    rw [Found.append_first] at honce hroom ⊢
    rw [hgives.readWords_append hg hnamed honce, ih honce hroom]
  | operand hword _ ih =>
    have htakes : g.takesOperand f = true := Grammar.HasRoom.takesOperand hroom
    rw [Found.append_firstOperand] at honce hroom ⊢
    rw [readWords_operand hg hword htakes, ih honce hroom]
  | plain words =>
    rw [readWords, if_neg Bool.false_ne_true, hg, if_neg (by simp), if_pos rfl,
      readWords_plain hroom]

/-- A command line with these arguments asks for the command that they make. -/
theorem parse_of_arguments {before : Found} {command : String} {c : Command}
    (hbefore : readWords mainGrammar .none none false words = .command before command rest)
    (h : Arguments (grammarOf command) rest found) (hcommand : command ≠ "help")
    (hg : (grammarOf command).commands = []) (hnamed : (grammarOf command).WellNamed)
    (honce : found.Once (grammarOf command)) (hroom : (grammarOf command).HasRoom found.operands)
    (hc : commandOf? command found = some c) :
    parse words = .run (settingsOf before found) c := by
  have hnone : Found.none.append found = found := rfl
  have hread := readWords_of_arguments (f := .none) h hg hnamed (hnone ▸ honce) (hnone ▸ hroom)
  exact parse_eq_run_iff.2 ⟨before, command, rest, found, hbefore, hcommand, hread, hc, rfl⟩

end LicenseAudit.CommandLine
