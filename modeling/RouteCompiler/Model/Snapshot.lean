import RouteCompiler.Model.Endpoint
import RouteCompiler.Model.Policy
import RouteCompiler.Model.Error

/-!
# Snapshots

A snapshot is the unit of compilation: the endpoints of a group, its policies,
the route definition of each policy and the contents of its resources.
-/

namespace RouteCompiler

/-- A group of endpoints under one name. -/
structure Group where
  name : String
  description : String := ""
  endpoints : List Endpoint := []
  deriving DecidableEq

namespace Group

/-- The first endpoint of a name. -/
def endpoint? (g : Group) (name : String) : Option Endpoint :=
  g.endpoints.find? fun e => e.name == name

/-- The failures of an endpoint, given its place and the endpoints before it. -/
def validateEndpoint (i : Nat) (earlier : List Endpoint) (e : Endpoint) : List Failure :=
  e.validate.map (.within s!"endpoints[{i}]") ++
    if (earlier.map Endpoint.name).contains e.name then [.duplicate "endpoints" e.name] else []

/-- The failures of a group. -/
def validate (g : Group) : List Failure :=
  Failure.requireText "name" g.name ++ failuresOfItems validateEndpoint [] g.endpoints

end Group

/-- A group with its policies, their definitions and their resources. -/
structure Snapshot where
  group : Group
  policies : List Policy := []
  /-- Route definitions by policy name. -/
  definitions : Settings := .empty
  /-- Contents by policy name and resource name. -/
  resources : SortedMap String Settings := .empty
  deriving DecidableEq

namespace Snapshot

/-! ## Look-up -/

/-- The first endpoint of a name. -/
def endpoint? (s : Snapshot) (name : String) : Option Endpoint :=
  s.group.endpoint? name

/-- The first policy of a name. -/
def policy? (s : Snapshot) (name : String) : Option Policy :=
  s.policies.find? fun p => p.name == name

/-- The route definition of a policy. -/
def definition? (s : Snapshot) (policy : String) : Option String :=
  s.definitions.find? policy

/-- The content that a policy has for a resource. -/
def content? (s : Snapshot) (policy resource : String) : Option String :=
  (s.resources.find? policy).bind fun contents => contents.find? resource

/-- The content that a policy has for a resource it names. -/
def contentOf (s : Snapshot) (policy resource : String) : Except ModelError String :=
  match s.content? policy resource with
  | some content => .ok content
  | none => .error (.missingResource policy resource)

/-- The contents of all resources of a policy, by name; the first resource
without content is reported. -/
def resourceContents (s : Snapshot) (p : Policy) : Except ModelError Settings := do
  let entries ← p.resources.mapM fun r => do
    let content ← s.contentOf p.name r.name
    return (r.name, content)
  return .ofList entries

/-! ## Building -/

/-- Add a policy with its definition. -/
def withPolicy (s : Snapshot) (p : Policy) (definition : String) : Snapshot :=
  { s with
    policies := s.policies ++ [p]
    definitions := s.definitions.insert p.name definition }

/-- Set the content of a resource of a policy. -/
def withContent (s : Snapshot) (policy resource content : String) : Snapshot :=
  let contents := (s.resources.find? policy).getD .empty
  { s with resources := s.resources.insert policy (contents.insert resource content) }

/-! ## Consistency -/

/-- A use of a resource: the policy, the resource, and the content. -/
structure ResourceUse where
  policy : String
  resource : String
  content : String
  deriving DecidableEq

/-- Check one use against the earlier ones: the first use of the same resource
must have the same content. -/
def checkUse (earlier : List ResourceUse) (use : ResourceUse) : Except ModelError Unit :=
  match earlier.find? fun e => e.resource == use.resource with
  | some first =>
      if first.content = use.content then .ok ()
      else .error (.resourceConflict use.resource first.policy use.policy)
  | none => .ok ()

/-- Check uses in order, given as pairs of a policy and a resource name. -/
def checkUses (s : Snapshot) :
    List ResourceUse → List (String × String) → Except ModelError Unit
  | _, [] => .ok ()
  | earlier, (policy, resource) :: rest => do
      let content ← s.contentOf policy resource
      let use := ⟨policy, resource, content⟩
      checkUse earlier use
      s.checkUses (earlier ++ [use]) rest

/-- The uses of resources by all policies, in order. -/
def resourceUses (s : Snapshot) : List (String × String) :=
  s.policies.flatMap fun p => p.resources.map fun r => (p.name, r.name)

/-- Check that every named resource has content, and that uses of one resource
name agree. -/
def validateResources (s : Snapshot) : Except ModelError Unit :=
  s.checkUses [] s.resourceUses

/-- The first endpoint whose name an earlier endpoint has. -/
def repeatedEndpoint? : List String → List Endpoint → Option Endpoint
  | _, [] => none
  | earlier, e :: rest =>
      if earlier.contains e.name then some e else repeatedEndpoint? (earlier ++ [e.name]) rest

/-- Check what generating needs: endpoint names are unique, every policy has a
definition, and resources are consistent. -/
def checkConsistency (s : Snapshot) : Except ModelError Unit :=
  match repeatedEndpoint? [] s.group.endpoints with
  | some e => .error (.duplicateEndpoint s.group.name e.name)
  | none =>
      match s.policies.find? fun p => (s.definition? p.name).isNone with
      | some p => .error (.missingDefinition p.name)
      | none => s.validateResources

/-! ## Validation -/

/-- The failures of a policy of a snapshot, given its place and the policies
before it. -/
def validatePolicy (s : Snapshot) (i : Nat) (earlier : List Policy) (p : Policy) :
    List Failure :=
  p.validate.map (.within s!"policies[{i}]") ++
    (if (earlier.map Policy.name).contains p.name then [.duplicate "policies" p.name] else []) ++
    if (s.definition? p.name).isNone then
      [.constraint s!"definitions.{p.name}" "every policy needs a route definition"]
    else []

/-- The failures of a snapshot. -/
def validate (s : Snapshot) : List Failure :=
  s.group.validate.map (.within "group") ++ failuresOfItems s.validatePolicy [] s.policies

end Snapshot

end RouteCompiler
