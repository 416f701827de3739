/-!
# Words of a command line

A command line is read word by word. A word that starts with two dashes is a long option, one that
starts with a single dash is a row of short options, and a word behind an option that takes a value
is that value. Two dashes alone end the options.
-/

namespace LicenseAudit.CommandLine

/-- An option of a command line. One that may not be repeated is refused the second time. -/
structure Switch where
  long : String
  short : Option Char
  takesValue : Bool
  repeatable : Bool
  accepts : String → Bool

/-- What a word may be: options, commands, and operands, if any are taken. -/
structure Grammar where
  options : List Switch
  commands : List String
  operands : Option Nat

/-- What was found: options with their values, and operands. -/
structure Found where
  options : List (String × String)
  operands : List String
  deriving DecidableEq, Repr

/-- How reading ends. -/
inductive Ending where
  /-- The words are used up. -/
  | finished (found : Found)
  /-- A command follows, with its own words. -/
  | command (found : Found) (name : String) (rest : List String)
  /-- The words make no sense. -/
  | misuse
  /-- The version is asked for. -/
  | version
  /-- An explanation is asked for. -/
  | help
  deriving DecidableEq, Repr

namespace Grammar

/-- The option with a long name. -/
def long? (g : Grammar) (name : String) : Option Switch := g.options.find? (·.long = name)

/-- The option with a short name. -/
def short? (g : Grammar) (name : Char) : Option Switch := g.options.find? (·.short = some name)

end Grammar

namespace Found

/-- Nothing. -/
def none : Found := ⟨[], []⟩

/-- An option was given. -/
def has (f : Found) (name : String) : Bool := (f.options.lookup name).isSome

/-- The values of an option, in order. -/
def values (f : Found) (name : String) : List String :=
  (f.options.filter (·.1 = name)).map Prod.snd

/-- The value of an option that is given once at most. -/
def value? (f : Found) (name : String) : Option String := (f.values name).head?

/-- One more option. -/
def addOption (f : Found) (name value : String) : Found :=
  { f with options := f.options ++ [(name, value)] }

/-- One more operand. -/
def addOperand (f : Found) (word : String) : Found :=
  { f with operands := f.operands ++ [word] }

end Found

/-- What an option leads to: the end of reading, or the options found so far and perhaps an option
that waits for its value. -/
inductive Progress where
  | stop (ending : Ending)
  | go (found : Found) (waiting : Option Switch)

/-- Takes an option with its value, if it is acceptable. -/
def takeValue (f : Found) (o : Switch) (value : String) : Progress :=
  if (f.has o.long && !o.repeatable) || !o.accepts value then .stop .misuse
  else .go (f.addOption o.long value) none

/-- Takes an option that has no value. -/
def takeFlag (f : Found) (o : Switch) : Progress :=
  if o.long = "version" then .stop .version
  else if o.long = "help" then .stop .help
  else if f.has o.long then .stop .misuse
  else .go (f.addOption o.long "true") none

/-- Takes a long option: its name, and the value behind an equals sign. -/
def takeLong (g : Grammar) (f : Found) (name : String) (value : Option String) : Progress :=
  match g.long? name, value with
  | none, _ => .stop .misuse
  | some o, some v => if o.takesValue then takeValue f o v else .stop .misuse
  | some o, none => if o.takesValue then .go f (some o) else takeFlag f o

/-- Takes a row of short options. The rest of the row behind an option that takes a value is that
value, perhaps behind an equals sign. -/
def takeShort (g : Grammar) (f : Found) : List Char → Progress
  | [] => .go f none
  | c :: rest =>
    match g.short? c with
    | none => .stop .misuse
    | some o =>
      if o.takesValue then
        match rest with
        | [] => .go f (some o)
        | '=' :: value => takeValue f o (String.ofList value)
        | value => takeValue f o (String.ofList value)
      else
        match takeFlag f o with
        | .stop ending => .stop ending
        | .go f _ => takeShort g f rest

/-- Takes a word that starts with a dash and is no dash alone. -/
def takeDashed (g : Grammar) (f : Found) (word : List Char) : Progress :=
  match word with
  | '-' :: '-' :: long =>
    let name := String.ofList (long.takeWhile (· ≠ '='))
    match long.dropWhile (· ≠ '=') with
    | [] => takeLong g f name none
    | _ :: value => takeLong g f name (some (String.ofList value))
  | _ => takeShort g f word.tail

/-- A word that starts with a dash and is no dash alone. -/
def isDashed (word : List Char) : Bool :=
  match word with
  | '-' :: _ :: _ => true
  | _ => false

/-- One more operand is taken. -/
def Grammar.takesOperand (g : Grammar) (f : Found) : Bool :=
  g.operands.any fun limit => limit = 0 || f.operands.length < limit

/-- Reads words. `waiting` is the option whose value is the next word, and behind two dashes `plain`
is true. -/
def readWords (g : Grammar) (f : Found) (waiting : Option Switch) (plain : Bool) :
    List String → Ending
  | [] => if waiting.isSome then .misuse else .finished f
  | word :: rest =>
    if plain then
      if waiting.isNone && g.takesOperand f then readWords g (f.addOperand word) none true rest
      else .misuse
    else if waiting.isNone && g.commands.contains word then .command f word rest
    else if word = "--" then readWords g f waiting true rest
    else if isDashed word.toList then
      if waiting.isSome then .misuse
      else
        match takeDashed g f word.toList with
        | .stop ending => ending
        | .go f waiting => readWords g f waiting false rest
    else
      match waiting with
      | some o =>
        match takeValue f o word with
        | .stop ending => ending
        | .go f waiting => readWords g f waiting false rest
      | none =>
        if g.takesOperand f then readWords g (f.addOperand word) none false rest else .misuse

end LicenseAudit.CommandLine
