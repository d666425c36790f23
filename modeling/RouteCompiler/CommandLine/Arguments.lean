import RouteCompiler.Text.Number

/-!
# Arguments

Behind the name of a command come switches and at most one operand, in any
order.  A switch is written by its name behind two dashes or by its letter
behind one; letters can share a dash.  The value of a switch is attached to it
or is the next word, which must not look like a switch.  Behind two dashes alone
there are only operands.

No switch is written twice.  A switch that is not written may take its value
from a variable of the environment.
-/

namespace RouteCompiler.CommandLine

/-- How a result is printed. -/
inductive OutputFormat where
  | text
  | json
  deriving DecidableEq, Repr

/-- The format of a name. -/
def OutputFormat.ofName? : String → Option OutputFormat
  | "text" => some text
  | "json" => some json
  | _ => none

/-- Why a command line cannot be understood. -/
inductive UsageError where
  | missingCommand
  | unknownCommand (word : String)
  | unknownSwitch (word : String)
  | surplusOperand (word : String)
  | missing (name : String)
  | missingValue (switch : String)
  | surplusValue (switch : String)
  | invalidValue (name value : String)
  | repeated (switch : String)
  deriving DecidableEq, Repr

namespace UsageError

/-- The text of a usage error. -/
def message : UsageError → String
  | missingCommand => "no command is given"
  | unknownCommand word => s!"'{word}' is no command"
  | unknownSwitch word => s!"unexpected argument '{word}'"
  | surplusOperand word => s!"unexpected argument '{word}'"
  | missing name => s!"'{name}' is required"
  | missingValue switch => s!"'--{switch}' needs a value"
  | surplusValue switch => s!"'--{switch}' takes no value"
  | invalidValue name value => s!"'{value}' is no value for '{name}'"
  | repeated switch => s!"'--{switch}' is given twice"

end UsageError

/-! ## Grammars -/

/-- What values there are. -/
inductive ValueKind where
  | text
  /-- A path, which is not empty. -/
  | path
  | count
  | format
  deriving DecidableEq, Repr

/-- Whether a text is a value of a kind. -/
def ValueKind.accepts : ValueKind → String → Bool
  | text, _ => true
  | path, value => !value.isEmpty
  | count, value => (Text.word? value.toList).isSome
  | format, value => (OutputFormat.ofName? value).isSome

/-- A switch that a command knows. -/
structure Switch where
  name : String
  letter : Option Char := none
  /-- The kind of its value, if it takes one. -/
  value : Option ValueKind := none
  /-- The variable that stands in where the switch is not written. -/
  fallback : Option String := none
  deriving DecidableEq, Repr

/-- What can stand behind the name of a command. -/
structure Grammar where
  switches : List Switch
  /-- What the operand is called, if there is one; it is a path. -/
  operand : Option String := none

/-! ## Words -/

/-- What a command line says: its switches with their values, and its operand. -/
structure Words where
  settings : List (String × String)
  operand : Option String

namespace Words

/-- Nothing. -/
def empty : Words :=
  ⟨[], none⟩

/-- The value of a switch. -/
def value? (w : Words) (switch : String) : Option String :=
  w.settings.lookup switch

/-- Whether a switch is written. -/
def has (w : Words) (switch : String) : Bool :=
  (w.value? switch).isSome

/-- The value of a switch that must be there. -/
def required (w : Words) (switch : String) : Except UsageError String :=
  match w.value? switch with
  | some value => .ok value
  | none => .error (.missing switch)

end Words

/-- Why the words are not read to their end. -/
inductive Stop where
  /-- Somebody asks for help. -/
  | help
  | misuse (e : UsageError)
  deriving DecidableEq, Repr

namespace Grammar

/-- Note a switch with a value. -/
def addValue (w : Words) (s : Switch) (value : String) : Except Stop Words :=
  if w.has s.name then .error (.misuse (.repeated s.name))
  else if s.value.all fun kind => kind.accepts value then
    .ok { w with settings := w.settings ++ [(s.name, value)] }
  else .error (.misuse (.invalidValue s.name value))

/-- Note an operand. -/
def addOperand (g : Grammar) (w : Words) (word : String) : Except Stop Words :=
  match g.operand, w.operand with
  | some name, none =>
      if ValueKind.path.accepts word then .ok { w with operand := some word }
      else .error (.misuse (.invalidValue name word))
  | _, _ => .error (.misuse (.surplusOperand word))

/-- A switch that was read: its value was there, or is the next word. -/
inductive Read where
  | complete (w : Words)
  | needsValue (w : Words) (s : Switch)

/-- Read a switch that is written by its name, with the value attached to it. -/
def readNamed (g : Grammar) (w : Words) (name : String) (attached : Option String) :
    Except Stop Read :=
  if name = "help" then
    .error (if attached.isNone then .help else .misuse (.surplusValue name))
  else
    match g.switches.find? fun s => s.name == name with
    | none => .error (.misuse (.unknownSwitch name))
    | some s =>
        match s.value, attached with
        | none, none => (addValue w s "").map .complete
        | none, some _ => .error (.misuse (.surplusValue name))
        | some _, none => .ok (.needsValue w s)
        | some _, some value => (addValue w s value).map .complete

/-- Read switches that are written by their letters.  What follows the letter of
a switch that takes a value is its value, without an equals sign in front. -/
def readLetters (g : Grammar) : Words → List Char → Except Stop Read
  | w, [] => .ok (.complete w)
  | w, letter :: rest =>
      if letter = 'h' then .error .help
      else
        match g.switches.find? fun s => s.letter == some letter with
        | none => .error (.misuse (.unknownSwitch (String.singleton letter)))
        | some s =>
            match s.value, rest with
            | none, _ => do g.readLetters (← addValue w s "") rest
            | some _, [] => .ok (.needsValue w s)
            | some _, '=' :: value => (addValue w s (String.ofList value)).map .complete
            | some _, value => (addValue w s (String.ofList value)).map .complete

/-- Whether a word looks like a switch. -/
def isSwitch (word : String) : Bool :=
  word.startsWith "-" && word != "-"

/-- Cut a word at its first equals sign. -/
def splitAtEquals (cs : List Char) : String × Option String :=
  let name := cs.takeWhile (· != '=')
  (String.ofList name, (cs.drop name.length).tail?.map String.ofList)

/-- Read a word that looks like a switch. -/
def readSwitch (g : Grammar) (w : Words) (word : String) : Except Stop Read :=
  match word.toList with
  | '-' :: '-' :: cs =>
      let (name, attached) := splitAtEquals cs
      g.readNamed w name attached
  | '-' :: cs => g.readLetters w cs
  | _ => .error (.misuse (.unknownSwitch word))

/-- Read words; the value of a switch may be due. -/
def read (g : Grammar) : Words → Option Switch → List String → Except Stop Words
  | w, none, [] => .ok w
  | _, some s, [] => .error (.misuse (.missingValue s.name))
  | w, some s, word :: rest =>
      if isSwitch word then .error (.misuse (.missingValue s.name))
      else do g.read (← addValue w s word) none rest
  | w, none, word :: rest =>
      if word = "--" then rest.foldlM g.addOperand w
      else if isSwitch word then do
        match ← g.readSwitch w word with
        | .complete w => g.read w none rest
        | .needsValue w s => g.read w (some s) rest
      else do g.read (← g.addOperand w word) none rest

/-- Let the environment stand in for a switch that is not written. -/
def addFallback (environment : String → Option String) (w : Words) (s : Switch) :
    Except Stop Words :=
  match s.fallback.bind environment with
  | some value => if w.has s.name then .ok w else addValue w s value
  | none => .ok w

/-- What the words behind the name of a command say. -/
def words (g : Grammar) (environment : String → Option String) (args : List String) :
    Except Stop Words := do
  g.switches.foldlM (addFallback environment) (← g.read .empty none args)

end Grammar

end RouteCompiler.CommandLine
