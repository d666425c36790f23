import RouteCompiler.Datum.Codec
import RouteCompiler.Generation.Error
import RouteCompiler.Model.Snapshot
import RouteCompiler.Route.Document.Traversal
import RouteCompiler.Text.Number
import RouteCompiler.Text.Quoted

/-!
# Characteristic processors

A characteristic of an endpoint is applied by the processor that is registered
for its kind.  A processor changes the document around the element that refers
to the endpoint, and needs packages of its own.
-/

namespace RouteCompiler

open RouteCompiler.Route

/-- A setting that a kind of characteristic knows. -/
structure PropertyDescriptor where
  name : String
  mandatory : Bool
  default : Option String
  deriving DecidableEq, Repr

/-- A setting as a datum. -/
def PropertyDescriptor.encode (p : PropertyDescriptor) : Datum :=
  .ofMembers [
    .always "name" (Codec.encode p.name),
    .always "mandatory" (.bool p.mandatory),
    .omitIf p.default.isNone "defaultValue" (Codec.encode p.default)]

/-- A kind of characteristic. -/
structure CharacteristicKind where
  name : String
  description : String := ""
  properties : List PropertyDescriptor := []
  deriving DecidableEq, Repr

namespace CharacteristicKind

/-- A kind as a datum. -/
def encode (kind : CharacteristicKind) : Datum :=
  .ofMembers [
    .always "name" (Codec.encode kind.name),
    .omitIf kind.description.isEmpty "description" (Codec.encode kind.description),
    .always "properties" (.list (kind.properties.map PropertyDescriptor.encode))]

/-- The value of a setting: what the characteristic says, else the default. -/
def valueOf (kind : CharacteristicKind) (c : Characteristic) (name : String) : Option String :=
  match c.property? name with
  | some value => some value
  | none => (kind.properties.find? fun p => p.name == name).bind PropertyDescriptor.default

/-- A positive number of 64 bits, with white space around it. -/
def positive? (text : String) : Option Nat :=
  (Text.word? (Text.trimChars text.toList)).filter fun n => 0 < n

/-- The value of a setting that must be a positive number. -/
def positiveValue (kind : CharacteristicKind) (e : Endpoint) (c : Characteristic)
    (name : String) : Except GenerationError Nat :=
  let value := (kind.valueOf c name).getD ""
  match positive? value with
  | some n => .ok n
  | none => .error (.invalidProperty e.name name value)

end CharacteristicKind

/-- What a processor is told of the element it works on. -/
structure Reference where
  /-- The name of the policy. -/
  policy : String
  snapshot : Snapshot
  endpoint : Endpoint
  characteristic : Characteristic

/-- What applies a kind of characteristic. -/
structure Processor where
  kind : CharacteristicKind
  /-- The packages that the changed route needs. -/
  dependencies : Packages
  /-- Change a document around the element that refers to an endpoint. -/
  process : Reference → Document → NodeId → Except GenerationError Document

/-- Processors by the name of their kind. -/
structure Registry where
  processors : SortedMap String Processor

namespace Registry

/-- No processors. -/
def empty : Registry :=
  ⟨.empty⟩

/-- Register a processor, in place of one for the same kind. -/
def register (r : Registry) (p : Processor) : Registry :=
  ⟨r.processors.insert p.kind.name p⟩

/-- The processor for a kind. -/
def find? (r : Registry) (kind : String) : Option Processor :=
  r.processors.find? kind

/-- The known kinds, by name. -/
def kinds (r : Registry) : List CharacteristicKind :=
  r.processors.values.map Processor.kind

/-- A summary of a registry. -/
def summary (r : Registry) : String :=
  "CharacteristicRegistry \x7b types: " ++ Text.quotedList r.processors.keys ++ " \x7d"

end Registry

/-! ## Support beans -/

/-- The element that declares a bean. -/
def beanElement : String := "bean"

/-- Whether a bean is declared below the root. -/
def declaresBean (d : Document) (id : String) : Bool :=
  (d.descendants d.root).any fun n =>
    d.isNamed beanElement n && d.attribute? n "id" == some id

/-- Declare a bean at the end of the root, unless one of that identifier is
declared; the answer says whether it was added. -/
def ensureBean (d : Document) (id className : String) : Document × Bool :=
  if declaresBean d id then (d, false)
  else
    let (d, bean) := d.createElement beanElement
    let d := (d.setAttribute bean "id" id).setAttribute bean "class" className
    (d.appendChild d.root bean, true)

end RouteCompiler
