import LicenseAudit.CommandLine.Command
import Mathlib.Data.List.Basic

/-!
# One more flag in front

The words of a command line are read one after another, and what was found so far matters for
repetitions only. So a flag that is not given can be put in front of all words: they are read as
before, with this flag found first.

Results:
1. `readWords_first`: words are read in the same way behind another option.
2. `parse_eq_run_iff`: the command lines that ask for a command.
3. `parse_quiet`: a command line can be made quiet.
-/

namespace LicenseAudit.CommandLine

variable {g : Grammar} {f found before : Found} {name value command : String}
  {waiting : Option Switch} {plain : Bool} {words rest : List String}

/-! ## Definitions -/

/-- What is found if the option comes before everything else. -/
def Found.first (f : Found) (name value : String) : Found :=
  { f with options := (name, value) :: f.options }

/-- Taking options in this way leads to no command, and it is the same whether or not this option
comes first, unless it is taken again. -/
structure Ignores (name value : String) (take : Found → Progress) : Prop where
  stop : ∀ f before command rest, take f ≠ .stop (.command before command rest)
  go : ∀ f found waiting, take f = .go found waiting → found.has name = false →
    f.has name = false ∧ take (f.first name value) = .go (found.first name value) waiting

/-! ## Options that were found -/

theorem Found.has_addOption (f : Found) (other value name : String) :
    (f.addOption other value).has name = (f.has name || decide (name = other)) := by
  rw [has, has, addOption, List.lookup_append, Option.isSome_or]
  by_cases h : name = other
  · simp [h]
  · simp [h, List.lookup_cons, beq_eq_false_iff_ne.2 h]

theorem Found.has_first_of_ne {other : String} (h : other ≠ name) (f : Found) (value : String) :
    (f.first name value).has other = f.has other := by
  rw [has, has, first, List.lookup_cons, beq_eq_false_iff_ne.2 h]

theorem Found.has_first_self (f : Found) (name value : String) :
    (f.first name value).has name = true := by
  rw [has, first, List.lookup_cons_self, Option.isSome_some]

theorem Found.values_first_of_ne {other : String} (h : other ≠ name) (f : Found) (value : String) :
    (f.first name value).values other = f.values other := by
  rw [values, values, first, List.filter_cons_of_neg (by simpa using Ne.symm h)]

/-- What was not found at the end was not found before, and is not what came last. -/
theorem Found.has_of_addOption {other : String}
    (h : (f.addOption other value).has name = false) : f.has name = false ∧ other ≠ name := by
  rw [has_addOption, Bool.or_eq_false_iff, decide_eq_false_iff_not] at h
  exact ⟨h.1, Ne.symm h.2⟩

/-! ## Options behind another one -/

section

variable (name value : String) (g : Grammar) (o : Switch)

theorem ignores_go (waiting : Option Switch) : Ignores name value fun f => .go f waiting where
  stop _ _ _ _ h := nomatch h
  go f found waiting' h hfound := by
    obtain ⟨rfl, rfl⟩ := Progress.go.inj h
    exact ⟨hfound, rfl⟩

theorem ignores_misuse : Ignores name value fun _ => .stop .misuse where
  stop _ _ _ _ h := nomatch h
  go _ _ _ h := nomatch h

theorem ignores_takeValue (v : String) : Ignores name value fun f => takeValue f o v where
  stop f before command rest := by
    simp only [takeValue]
    split <;> simp
  go f found waiting h hfound := by
    simp only [takeValue] at h ⊢
    split at h
    · cases h
    · next hok =>
      obtain ⟨rfl, rfl⟩ := Progress.go.inj h
      obtain ⟨hf, hne⟩ := Found.has_of_addOption hfound
      rw [Found.has_first_of_ne hne, if_neg hok]
      exact ⟨hf, rfl⟩

theorem ignores_takeFlag : Ignores name value fun f => takeFlag f o where
  stop f before command rest := by
    simp only [takeFlag]
    repeat' split
    all_goals simp
  go f found waiting h hfound := by
    simp only [takeFlag] at h ⊢
    split at h
    · cases h
    next hversion =>
    split at h
    · cases h
    next hhelp =>
    split at h
    · cases h
    next hrepeated =>
    obtain ⟨rfl, rfl⟩ := Progress.go.inj h
    obtain ⟨hf, hne⟩ := Found.has_of_addOption hfound
    rw [Found.has_first_of_ne hne, if_neg hversion, if_neg hhelp, if_neg hrepeated]
    exact ⟨hf, rfl⟩

theorem ignores_takeLong (long : String) (v : Option String) :
    Ignores name value fun f => takeLong g f long v := by
  unfold takeLong
  cases g.long? long with
  | none => exact ignores_misuse name value
  | some o =>
    cases v with
    | none =>
      simp only
      split
      · exact ignores_go name value _
      · exact ignores_takeFlag name value o
    | some v =>
      simp only
      split
      · exact ignores_takeValue name value o v
      · exact ignores_misuse name value

/-- A flag is taken first, and then the rest of the row behind it. -/
theorem Ignores.takeFlag_then {take : Found → Progress} (h : Ignores name value take) :
    Ignores name value fun f =>
      match takeFlag f o with
      | .stop ending => .stop ending
      | .go f _ => take f where
  stop f before command rest := by
    split
    · next ending hflag =>
      intro heq
      obtain rfl := Progress.stop.inj heq
      exact (ignores_takeFlag name value o).stop f _ _ _ hflag
    · exact h.stop _ before command rest
  go f found waiting hgo hfound := by
    split at hgo
    · cases hgo
    · next f' waiting' hflag =>
      obtain ⟨hf', htake⟩ := h.go f' found waiting hgo hfound
      obtain ⟨hf, hfirst⟩ := (ignores_takeFlag name value o).go f f' waiting' hflag hf'
      simp only [hfirst]
      exact ⟨hf, htake⟩

theorem ignores_takeShort (row : List Char) : Ignores name value fun f => takeShort g f row := by
  induction row with
  | nil => exact ignores_go name value none
  | cons c row ih =>
    unfold takeShort
    cases g.short? c with
    | none => exact ignores_misuse name value
    | some o =>
      simp only
      split
      · split
        · exact ignores_go name value _
        · exact ignores_takeValue name value o _
        · exact ignores_takeValue name value o _
      · exact ih.takeFlag_then name value o

theorem ignores_takeDashed (word : List Char) :
    Ignores name value fun f => takeDashed g f word := by
  unfold takeDashed
  split
  · simp only
    split <;> exact ignores_takeLong name value g _ _
  · exact ignores_takeShort name value g _

end

/-! ## Words behind another option -/

/-- Reading goes on behind an option that is taken, if reading the words behind it does. -/
theorem Ignores.readWords {take : Found → Progress} (htake : Ignores name value take)
    (ih : ∀ {f : Found} {waiting : Option Switch} {plain : Bool},
      CommandLine.readWords g f waiting plain words = .command before command rest →
        f.has name = false ∧ CommandLine.readWords g (f.first name value) waiting plain words =
          .command (before.first name value) command rest)
    (h : (match take f with
      | .stop ending => ending
      | .go f waiting => CommandLine.readWords g f waiting false words) =
        .command before command rest) :
    f.has name = false ∧ (match take (f.first name value) with
      | .stop ending => ending
      | .go f waiting => CommandLine.readWords g f waiting false words) =
        .command (before.first name value) command rest := by
  split at h
  · next ending hstop => exact absurd (h ▸ hstop) (htake.stop f before command rest)
  · next f' waiting hgo =>
    obtain ⟨hf', hwords⟩ := ih h
    obtain ⟨hf, hfirst⟩ := htake.go f f' waiting hgo hf'
    simp only [hfirst]
    exact ⟨hf, hwords⟩

/-- Words that lead to a command are read in the same way behind an option that they do not give. -/
theorem readWords_first (h : readWords g f waiting plain words = .command before command rest)
    (hbefore : before.has name = false) (value : String) :
    f.has name = false ∧ readWords g (f.first name value) waiting plain words =
      .command (before.first name value) command rest := by
  -- What a word may be is tried in order, and no test looks at the options that were found.
  induction words generalizing f waiting plain with
  | nil =>
    rw [readWords] at h
    split at h <;> cases h
  | cons word words ih =>
    have hoperand : g.takesOperand (f.first name value) = g.takesOperand f := rfl
    unfold readWords at h ⊢
    rw [hoperand]
    split at h
    · next hplain =>
      rw [if_pos hplain]
      split at h
      · next htakes =>
        rw [if_pos htakes]
        exact ih h
      · cases h
    next hplain =>
    rw [if_neg hplain]
    split at h
    · next hcommand =>
      obtain ⟨rfl, rfl, rfl⟩ := Ending.command.inj h
      rw [if_pos hcommand]
      exact ⟨hbefore, rfl⟩
    next hcommand =>
    rw [if_neg hcommand]
    split at h
    · next hdashes =>
      rw [if_pos hdashes]
      exact ih h
    next hdashes =>
    rw [if_neg hdashes]
    split at h
    · next hdashed =>
      rw [if_pos hdashed]
      split at h
      · cases h
      · next hwaiting =>
        rw [if_neg hwaiting]
        exact (ignores_takeDashed name value g word.toList).readWords ih h
    next hdashed =>
    rw [if_neg hdashed]
    cases waiting with
    | some o => exact (ignores_takeValue name value o word).readWords ih h
    | none =>
      simp only at h ⊢
      split at h
      · next htakes =>
        rw [if_pos htakes]
        exact ih h
      · cases h

/-! ## Command lines -/

/-- A command line asks for a command if words that may come before it lead to it, and the words
behind it suit it. -/
theorem parse_eq_run_iff {s : Settings} {c : Command} :
    parse words = .run s c ↔ ∃ before name rest behind,
      readWords mainGrammar .none none false words = .command before name rest ∧ name ≠ "help" ∧
      readWords (grammarOf name) .none none false rest = .finished behind ∧
      commandOf? name behind = some c ∧ s = settingsOf before behind := by
  have hhelp : ∀ rest, helpRequest rest ≠ .run s c := by
    intro rest
    unfold helpRequest
    split
    · exact nofun
    · split <;> exact nofun
    · exact nofun
  constructor
  · intro h
    unfold parse at h
    split at h
    · cases h
    · cases h
    · cases h
    · cases h
    next before name rest hbefore =>
    split at h
    · exact absurd h (hhelp rest)
    next hname =>
    split at h
    · next behind hbehind =>
      split at h
      · next found hfound =>
        obtain ⟨rfl, rfl⟩ := Request.run.inj h
        exact ⟨before, name, rest, behind, hbefore, hname, hbehind, hfound, rfl⟩
      · cases h
    · cases h
    · cases h
    · cases h
  · rintro ⟨before, name, rest, behind, hbefore, hname, hbehind, hcommand, rfl⟩
    unfold parse
    simp only [hbefore, if_neg hname, hbehind, hcommand]

theorem settingsOf_quiet (before behind : Found) :
    settingsOf (before.first "quiet" "true") behind =
      { settingsOf before behind with quiet := true } := by
  have hvalue : ∀ other, other ≠ "quiet" →
      (before.first "quiet" "true").value? other = before.value? other := by
    intro other h
    rw [Found.value?, Found.values_first_of_ne h, Found.value?]
  rw [settingsOf, hvalue "config" (by decide), hvalue "log-level" (by decide),
    Found.has_first_of_ne (by decide), Found.has_first_self, Bool.true_or]
  rfl

/-- Any command line that is not quiet can be made so, and it asks for the same command then. -/
theorem parse_quiet {s : Settings} {c : Command} (h : parse words = .run s c)
    (hs : s.quiet = false) : parse ("--quiet" :: words) = .run { s with quiet := true } c := by
  obtain ⟨before, name, rest, behind, hbefore, hname, hbehind, hcommand, rfl⟩ :=
    parse_eq_run_iff.1 h
  have hnot : before.has "quiet" = false := (Bool.or_eq_false_iff.1 hs).1
  have hflag : readWords mainGrammar .none none false ("--quiet" :: words) =
      readWords mainGrammar (Found.none.first "quiet" "true") none false words := rfl
  refine parse_eq_run_iff.2 ⟨_, name, rest, behind, ?_, hname, hbehind, hcommand,
    (settingsOf_quiet before behind).symm⟩
  rw [hflag]
  exact (readWords_first hbefore hnot "true").2

end LicenseAudit.CommandLine
