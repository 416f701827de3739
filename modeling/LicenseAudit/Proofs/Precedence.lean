import LicenseAudit.Proofs.CommandLine.Arguments
import LicenseAudit.Proofs.Effects
import LicenseAudit.Proofs.Recording
import LicenseAudit.Proofs.Workspace

/-!
# Who has the last word

Decisions are laid on top of each other. An evaluation lays the names that it is told to allow on
the decisions of the file, and the names that it is told to deny on top of these. What counts is
which names are told, not how often, nor in which order, nor how the two options take turns.

Results:
1. `overrides_recordAll`: what is decided when names are allowed and then others disallowed.
2. `replies_eval`, `eval_congr`: an evaluation answers by these decisions, and by them only.
3. `Asks.parse`: the options of an evaluation may take turns in any way.
4. `deny_overrides_allow`: the ways to lay names on each other agree, and a denied name is
   disallowed whatever else is said about it.
-/

namespace LicenseAudit

namespace Decisions

/-- These decisions are others with some names allowed and some disallowed, which have the last
word. -/
def Overrides (d' d : Decisions) (allow deny : List String) : Prop :=
  ∀ name, d'.find? name =
    if name ∈ deny then some false else if name ∈ allow then some true else d.find? name

theorem find?_recordAll_names (d : Decisions) (names : List String) (allowed : Bool)
    (name : String) :
    (d.recordAll (names.map (·, allowed))).find? name =
      if name ∈ names then some allowed else d.find? name := by
  induction names generalizing d with
  | nil => rfl
  | cons other names ih =>
    rw [List.map_cons, recordAll_cons, ih]
    by_cases hmem : name ∈ names
    · rw [if_pos hmem, if_pos (List.mem_cons_of_mem _ hmem)]
    · by_cases hname : name = other
      · rw [if_neg hmem, hname, find?_record_self, if_pos List.mem_cons_self]
      · rw [if_neg hmem, d.find?_record_of_ne hname, if_neg (by simp [hname, hmem])]

theorem overrides_recordAll (d : Decisions) (allow deny : List String) :
    ((d.recordAll (allow.map (·, true))).recordAll (deny.map (·, false))).Overrides d allow
      deny := by
  intro name
  rw [find?_recordAll_names, find?_recordAll_names]

/-- Only the names count, not how often they are told or in which order. -/
theorem Overrides.unique {d d' d'' : Decisions} {allow deny allow' deny' : List String}
    (h : d'.Overrides d allow deny) (h' : d''.Overrides d allow' deny')
    (hallow : ∀ name, name ∈ allow' ↔ name ∈ allow)
    (hdeny : ∀ name, name ∈ deny' ↔ name ∈ deny) : d'' = d' := by
  refine ext_find? fun name => ?_
  rw [h name, h' name]
  simp only [hallow, hdeny]

end Decisions

namespace Run

open CommandLine (Found Gives Arguments readWords mainGrammar grammarOf settingsOf listOption flag)

/-- An evaluation that goes by these decisions ends like this: with the verdict, with the names that
are undecided, or with the error. -/
def Replies (d : Decisions) (expression : String) (o : Outcome) : Prop :=
  match d.verdict expression with
  | .ok allowed =>
    o.exit = (if allowed then 0 else 1) ∧ o.out = decisionWord allowed ++ "\n" ∧ o.err = ""
  | .error (.unknownLicense _ _) =>
    o.exit = 2 ∧ o.err = "" ∧ ∃ names, d.undecided expression = .ok names ∧
      o.out = "unknown: " ++ String.intercalate ", " names ++ "\n"
  | .error e => o.exit = 1 ∧ o.out = "" ∧ o.err = (Failure.check e).report

/-- The words ask for the evaluation of an expression, with what was found before the command and
what is given behind it. -/
structure Asks (words : List String) (before given : Found) (expression : String) : Prop where
  reads : ∃ rest, readWords mainGrammar .none none false words = .command before "eval" rest ∧
    Arguments (grammarOf "eval") rest given
  once : given.Once (grammarOf "eval")
  operands : given.operands = [expression]

variable {w : Workspace} {c : Config} {d : Decisions} {expression : String}
  {allow deny words : List String}

theorem replies_eval (hd : w.loadDecisions c.licensesFile = .ok d) (expression : String)
    (allow deny : List String) :
    Replies ((d.recordAll (allow.map (·, true))).recordAll (deny.map (·, false))) expression
      (eval w c expression allow deny) := by
  rw [eval]
  simp only [hd]
  generalize (d.recordAll (allow.map (·, true))).recordAll (deny.map (·, false)) = d'
  rw [Replies]
  rcases d'.verdict_cases expression with
    ⟨source, -, hv, -⟩ | ⟨_, allowed, -, hv, -⟩ | ⟨_, name, rest, -, hv, hu⟩
  · simp [hv, Outcome.failed]
  · cases allowed <;> simp [hv, decisionWord]
  · simp [hv, hu]

/-- Evaluations with the same names are the same. -/
theorem eval_congr {allow' deny' : List String} (hallow : ∀ name, name ∈ allow' ↔ name ∈ allow)
    (hdeny : ∀ name, name ∈ deny' ↔ name ∈ deny) :
    eval w c expression allow' deny' = eval w c expression allow deny := by
  rw [eval, eval]
  cases w.loadDecisions c.licensesFile with
  | error failure => rfl
  | ok d =>
    have hsame := (d.overrides_recordAll allow deny).unique
      (d.overrides_recordAll allow' deny') hallow hdeny
    simp only [hsame]

theorem commandLine_eval {s : Settings}
    (hwords : CommandLine.parse words = .run s (.eval expression allow deny))
    (hconfig : w.loadConfig s.config = .ok c) :
    (commandLine w words).1 = eval w c expression allow deny := by
  rw [commandLine_run hwords, command, withConfig_of_ok hconfig]

/-- However the options take turns, the command line asks for an evaluation with all names. -/
theorem Asks.parse {before given : Found} (h : Asks words before given expression) :
    CommandLine.parse words = .run (settingsOf before given)
      (.eval expression (given.values "allow") (given.values "deny")) := by
  obtain ⟨rest, hread, hargs⟩ := h.reads
  have hroom : (grammarOf "eval").HasRoom given.operands :=
    ⟨1, rfl, .inr (by rw [h.operands]; exact Nat.le_refl 1)⟩
  have hcommand : CommandLine.commandOf? "eval" given =
      some (.eval expression (given.values "allow") (given.values "deny")) := by
    have hname : ("eval" : String) ≠ "check" := by decide
    rw [CommandLine.commandOf?, if_neg hname, if_pos rfl, h.operands]
    rfl
  exact CommandLine.parse_of_arguments hread hargs (by decide) rfl (by decide) h.once hroom hcommand

/-- Decisions of two lists are those of one list of pairs, and those that one gets by recording name
after name: a name that is disallowed is disallowed, whatever else is said about it. An evaluation
answers by the decisions of the file, with the names on top that it is told to allow, and with the
names on top of these that it is told to deny. Another command line with the same names ends in the
same way. The names of a command line are those that its options give, in whichever order the
options and the expression stand. -/
theorem deny_overrides_allow :
    (∀ allow deny : List String,
      Decisions.ofLists allow deny =
          .ofPairs (allow.map (·, true) ++ deny.map (·, false)) ∧
        Decisions.ofLists allow deny =
          deny.foldl (·.record · false) (allow.foldl (·.record · true) .empty) ∧
        (Decisions.ofLists allow deny).Overrides .empty allow deny) ∧
      (∀ (w : Workspace) (c : Config) (d : Decisions) words s expression allow deny,
        CommandLine.parse words = .run s (.eval expression allow deny) →
        w.loadConfig s.config = .ok c → w.DecisionsAt c.licensesFile d →
          (∃ d' : Decisions, d'.Overrides d allow deny ∧
            Replies d' expression (commandLine w words).1) ∧
          ∀ words' s' allow' deny',
            CommandLine.parse words' = .run s' (.eval expression allow' deny') →
            s'.config = s.config → (∀ name, name ∈ allow' ↔ name ∈ allow) →
            (∀ name, name ∈ deny' ↔ name ∈ deny) →
              (commandLine w words').1 = (commandLine w words).1) ∧
      ∀ words before given expression, Asks words before given expression →
        ∃ allow deny, CommandLine.parse words =
            .run (settingsOf before given) (.eval expression allow deny) ∧
          (∀ name, name ∈ allow ↔ ("allow", name) ∈ given.options) ∧
          ∀ name, name ∈ deny ↔ ("deny", name) ∈ given.options := by
  refine ⟨fun allow deny => ⟨?_, ?_, ?_⟩, ?_, fun words before given expression hasks => ?_⟩
  · rw [Decisions.ofPairs, Decisions.recordAll_append, Decisions.ofLists]
  · rw [Decisions.ofLists, Decisions.recordAll, Decisions.recordAll, List.foldl_map, List.foldl_map]
  · exact Decisions.empty.overrides_recordAll allow deny
  · intro w c d words s expression allow deny hwords hconfig hd
    have hload := Workspace.loadDecisions_eq_ok_iff.2 hd
    rw [commandLine_eval hwords hconfig]
    refine ⟨⟨_, d.overrides_recordAll allow deny, replies_eval hload expression allow deny⟩, ?_⟩
    intro words' s' allow' deny' hwords' hsame hallow hdeny
    rw [commandLine_eval hwords' (hsame ▸ hconfig)]
    exact eval_congr hallow hdeny
  · exact ⟨_, _, hasks.parse, fun _ => Found.mem_values_iff, fun _ => Found.mem_values_iff⟩

/-- The file allows `MIT`. It is denied twice, and the option that allows it again comes last and is
without effect. With the options the other way around it is the same. -/
theorem deny_overrides_allow_taking_turns :
    let w : Workspace :=
      ⟨⟨[(["p", ".licenses.yaml"], .text "MIT: true\nGPL: false\n")], [], ["p"]⟩,
        .text "", "/p", false⟩
    let words := ["eval", "--deny", "MIT", "--allow=GPL", "GPL && MIT", "--deny=MIT", "-v",
      "--allow", "MIT"]
    let words' := ["eval", "--allow=MIT", "--allow=GPL", "--deny=MIT", "--", "GPL && MIT"]
    (∃ d' : Decisions, d'.find? "MIT" = some false ∧ d'.find? "GPL" = some true ∧
        Replies d' "GPL && MIT" (commandLine w words).1) ∧
      (commandLine w words').1 = (commandLine w words).1 := by
  intro w words words'
  let d : Decisions := .ofPairs [("MIT", true), ("GPL", false)]
  have hd : w.DecisionsAt ".licenses.yaml" d := .mapping rfl rfl rfl
  let given : Found :=
    ⟨[("deny", "MIT"), ("allow", "GPL"), ("deny", "MIT"), ("verbose", "true"), ("allow", "MIT")],
      ["GPL && MIT"]⟩
  have hargs : Arguments (grammarOf "eval") words.tail given :=
    .option (@Gives.apart _ (listOption "deny") "deny" "MIT" rfl rfl rfl rfl) <|
    .option (@Gives.joined _ (listOption "allow") "allow" "GPL" rfl rfl rfl) <|
    .operand (by decide) <|
    .option (@Gives.joined _ (listOption "deny") "deny" "MIT" rfl rfl rfl) <|
    .option (@Gives.short _ (flag "verbose" (some 'v')) 'v' rfl rfl (by decide) (by decide)
      (by decide)) <|
    .option (@Gives.apart _ (listOption "allow") "allow" "MIT" rfl rfl rfl rfl) .none
  have hasks : Asks words .none given "GPL && MIT" := ⟨⟨_, rfl, hargs⟩, by decide, rfl⟩
  obtain ⟨allow, deny, hwords, hallow, hdeny⟩ := deny_overrides_allow.2.2 _ _ _ _ hasks
  have hwords' : CommandLine.parse words' =
      .run (settingsOf .none ⟨[("allow", "MIT"), ("allow", "GPL"), ("deny", "MIT")], []⟩)
        (.eval "GPL && MIT" ["MIT", "GPL"] ["MIT"]) := rfl
  have hsettings : (settingsOf .none given).config = none := by decide
  have hconfig : w.loadConfig (settingsOf .none given).config = .ok .default := by
    rw [hsettings]
    rfl
  obtain ⟨⟨d', hoverrides, hreplies⟩, hsame⟩ :=
    deny_overrides_allow.2.1 w .default d _ _ _ _ _ hwords hconfig hd
  have hmit := hoverrides "MIT"
  rw [if_pos ((hdeny _).2 (by decide))] at hmit
  have hgpl := hoverrides "GPL"
  rw [if_neg fun h => absurd ((hdeny _).1 h) (by decide), if_pos ((hallow _).2 (by decide))] at hgpl
  refine ⟨⟨d', hmit, hgpl, hreplies⟩, hsame _ _ _ _ hwords' rfl (fun name => ?_) fun name => ?_⟩
  · rw [hallow]
    simp [given, or_comm]
  · rw [hdeny]
    simp [given]

end Run

end LicenseAudit
