import RouteCompiler.Model.Coordinate

/-!
# Policies

A policy owns one route definition, which a snapshot stores beside it, and names
the resources that are packaged with it.
-/

namespace RouteCompiler

/-- A named resource of a policy. -/
structure Resource where
  name : String
  dependencies : Packages := .empty
  deriving DecidableEq

/-- A unit of routing, packaged on its own. -/
structure Policy where
  name : String
  description : String := ""
  resources : List Resource := []
  dependencies : Packages := .empty
  deriving DecidableEq

namespace Policy

/-- The resource of a name. -/
def resource? (p : Policy) (name : String) : Option Resource :=
  p.resources.find? fun r => r.name == name

/-- The failures of a resource, given the resources before it. -/
def validateResource (earlier : List Resource) (r : Resource) : List Failure :=
  if Text.isBlankText r.name then [.required "resources.name"]
  else if (earlier.map Resource.name).contains r.name then [.duplicate "resources" r.name]
  else []

/-- The failures of a policy. -/
def validate (p : Policy) : List Failure :=
  Failure.requireText "name" p.name ++
    failuresOfItems (fun _ => validateResource) [] p.resources

end Policy

end RouteCompiler
