import GoSplit.Text

/-!
Options and operands on a command line. Words are read from left to right: long options
with their value behind an equals sign or in the next word, short options that can be
run together, and operands; after two dashes everything is an operand. The first word
that does not fit is refused, and a call for help ends the reading.
-/

namespace GoSplit.CommandLine

inductive UsageError where
  | missingCommand
  | unknownCommand (word : Text)
  | unknownOption (word : Text)
  | missingValue (option : String)
  | unneededValue (option : String)
  | invalidValue (name : String) (value : Text)
  | repeated (option : String)
  | unexpectedOperand (word : Text)
  | missing (what : String)
  deriving DecidableEq, Repr

def UsageError.message : UsageError → String
  | .missingCommand => "a command is required"
  | .unknownCommand word => s!"unrecognized command '{word.str}'"
  | .unknownOption word => s!"unexpected argument '{word.str}'"
  | .missingValue option => s!"a value is required for '--{option}'"
  | .unneededValue option => s!"'--{option}' takes no value"
  | .invalidValue name value => s!"invalid value '{value.str}' for '{name}'"
  | .repeated option => s!"'--{option}' cannot be used multiple times"
  | .unexpectedOperand word => s!"unexpected argument '{word.str}'"
  | .missing what => s!"'{what}' was not provided"

structure OptionSpec where
  long : String
  short : Option Char
  takesValue : Bool
  /-- Which values are fine. -/
  accepts : Text → Bool
  repeatable : Bool

namespace OptionSpec

def flag (long : String) (short : Option Char) : OptionSpec :=
  ⟨long, short, false, fun _ => true, false⟩

def text (long : String) : OptionSpec := ⟨long, none, true, fun _ => true, false⟩

/-- A path is never empty. -/
def path (long : String) (short : Option Char) : OptionSpec :=
  ⟨long, short, true, fun value => !value.isEmpty, false⟩

def choice (long : String) (choices : List String) : OptionSpec :=
  ⟨long, none, true, fun value => choices.any fun c => c.toList == value, false⟩

def list (long : String) : OptionSpec := ⟨long, none, true, fun _ => true, true⟩

end OptionSpec

/-- The options given so far, each with its value. -/
abbrev Given := List (String × Text)

namespace Given

def has (given : Given) (option : String) : Bool := given.any fun g => g.1 == option

def value? (given : Given) (option : String) : Option Text := given.lookup option

def values (given : Given) (option : String) : List Text :=
  (given.filter fun g => g.1 == option).map (·.2)

/-- Enters an option; its value has to be fine, and few options can be repeated. -/
def enter (given : Given) (spec : OptionSpec) (value : Text) : Except UsageError Given :=
  if !spec.accepts value then .error (.invalidValue s!"--{spec.long}" value)
  else if given.has spec.long && !spec.repeatable then .error (.repeated spec.long)
  else .ok (given ++ [(spec.long, value)])

end Given

/-- What a word turned out to be. -/
inductive Word where
  | help
  /-- Options complete in themselves, entered. -/
  | entered (given : Given)
  /-- An option whose value is the next word. -/
  | awaiting (given : Given) (spec : OptionSpec)
  | operand

/-- A word that is not taken for a value or an operand. -/
def looksLikeOption : Text → Bool
  | '-' :: _ :: _ => true
  | _ => false

/-- A long option without its dashes. -/
def readLong (specs : List OptionSpec) (given : Given) (body : Text) : Except UsageError Word :=
  let name := body.takeWhile (· != '=')
  let attached := (body.dropWhile (· != '=')).drop 1
  let hasValue := body.contains '='
  if name = "help".toList then
    if hasValue then .error (.unneededValue "help") else .ok .help
  else match specs.find? fun spec => spec.long.toList == name with
    | none => .error (.unknownOption ('-' :: '-' :: body))
    | some spec =>
      if !spec.takesValue then
        if hasValue then .error (.unneededValue spec.long)
        else (given.enter spec []).map .entered
      else if hasValue then (given.enter spec attached).map .entered
      else .ok (.awaiting given spec)

/-- Short options run together, without their dash. The value of an option is the rest
of the word, behind an equals sign or not. -/
def readShorts (specs : List OptionSpec) (given : Given) : Text → Except UsageError Word
  | [] => .ok (.entered given)
  | c :: rest =>
    if c = 'h' then .ok .help
    else match specs.find? fun spec => spec.short == some c with
      | none => .error (.unknownOption ['-', c])
      | some spec =>
        if !spec.takesValue then
          match given.enter spec [] with
          | .error e => .error e
          | .ok given => readShorts specs given rest
        else match rest with
          | [] => .ok (.awaiting given spec)
          | '=' :: value => (given.enter spec value).map .entered
          | value => (given.enter spec value).map .entered

def readWord (specs : List OptionSpec) (given : Given) (word : Text) : Except UsageError Word :=
  match word with
  | '-' :: '-' :: body => readLong specs given body
  | '-' :: c :: rest => readShorts specs given (c :: rest)
  | _ => .ok .operand

inductive Reading where
  | help
  | done (given : Given) (operand : Option Text)

/-- Takes the single operand, which is a path. -/
def enterOperand (name : String) (operand : Option Text) (word : Text) :
    Except UsageError (Option Text) :=
  if operand.isSome then .error (.unexpectedOperand word)
  else if word.isEmpty then .error (.invalidValue name word)
  else .ok (some word)

def readOperands (name : String) (given : Given) (operand : Option Text) :
    List Text → Except UsageError Reading
  | [] => .ok (.done given operand)
  | word :: rest =>
    match enterOperand name operand word with
    | .error e => .error e
    | .ok operand => readOperands name given operand rest

/-- Reads the words of a command with the operand `name`. -/
def readWords (specs : List OptionSpec) (name : String) (given : Given) (operand : Option Text) :
    List Text → Except UsageError Reading
  | [] => .ok (.done given operand)
  | word :: rest =>
    if word = ['-', '-'] then readOperands name given operand rest
    else match readWord specs given word with
      | .error e => .error e
      | .ok .help => .ok .help
      | .ok (.entered given) => readWords specs name given operand rest
      | .ok .operand =>
        match enterOperand name operand word with
        | .error e => .error e
        | .ok operand => readWords specs name given operand rest
      | .ok (.awaiting given spec) =>
        match rest with
        | [] => .error (.missingValue spec.long)
        | value :: rest =>
          if looksLikeOption value then .error (.missingValue spec.long)
          else match given.enter spec value with
            | .error e => .error e
            | .ok given => readWords specs name given operand rest

end GoSplit.CommandLine
