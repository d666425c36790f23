import RouteCompiler.Model.Coordinate
import RouteCompiler.Model.Uri

/-!
# Endpoints

An endpoint gives a logical name to a physical URI, with the options of each
role and with characteristics, which change the routes that use the name.
-/

namespace RouteCompiler

/-- Named settings. -/
abbrev Settings := SortedMap String String

/-- A behaviour that an endpoint asks for, with its settings. -/
structure Characteristic where
  kind : String
  properties : Settings
  deriving DecidableEq

namespace Characteristic

/-- A characteristic without settings. -/
def ofKind (kind : String) : Characteristic :=
  ⟨kind, .empty⟩

/-- Give a setting a value. -/
def withProperty (c : Characteristic) (key value : String) : Characteristic :=
  { c with properties := c.properties.insert key value }

/-- The value of a setting. -/
def property? (c : Characteristic) (key : String) : Option String :=
  c.properties.find? key

end Characteristic

/-- A physical URI under a logical name. -/
structure Endpoint where
  name : String
  uri : String
  description : String := ""
  characteristics : List Characteristic := []
  dependencies : Packages := .empty
  consumerOptions : Settings := .empty
  producerOptions : Settings := .empty
  deriving DecidableEq

namespace Endpoint

/-- The options of a role. -/
def options (e : Endpoint) : Role → Settings
  | .consumer => e.consumerOptions
  | .producer => e.producerOptions

/-- Whether the endpoint asks for a kind of behaviour. -/
def hasCharacteristic (e : Endpoint) (kind : String) : Bool :=
  e.characteristics.any fun c => c.kind == kind

/-- The failures of an endpoint. -/
def validate (e : Endpoint) : List Failure :=
  Failure.requireText "name" e.name ++
    (if Text.isBlankText e.uri then [.required "uri"]
      else if Uri.isLogical e.uri then
        [.format "uri" "physical URI must not use the logical scheme"]
      else []) ++
    failuresOfItems
      (fun i _ (c : Characteristic) =>
        Failure.requireText s!"characteristics[{i}].type" c.kind)
      [] e.characteristics ++
    e.dependencies.elements.flatMap fun d => d.validate.map (.within "dependencies")

end Endpoint

end RouteCompiler
