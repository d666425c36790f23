import RouteCompiler.Generation.BatchRetry
import RouteCompiler.Generation.Config
import RouteCompiler.Generation.Resolution
import RouteCompiler.Route.Document.Reader

/-!
# Generation

A policy is generated from its route definition: every logical reference on a
marker is resolved, the characteristics of its endpoint are applied right after,
and the packages that the result needs are collected.

Applying a characteristic restructures the document, so the search for the next
reference begins again at the root each time.  Markers are resolved kind by
kind.
-/

namespace RouteCompiler

open RouteCompiler.Route

/-- What is generated for a policy. -/
structure GeneratedPolicy where
  policy : String
  definition : String
  dependencies : Packages
  resources : Settings
  issues : List Issue
  deriving DecidableEq

namespace GeneratedPolicy

/-- A generated policy as a datum. -/
def encode (g : GeneratedPolicy) : Datum :=
  .ofMembers [
    .always "policy" (Codec.encode g.policy),
    .always "definition" (Codec.encode g.definition),
    .always "dependencies" (Codec.encode g.dependencies),
    .omitIf g.resources.isEmpty "resources" (Codec.encode g.resources),
    .omitIf g.issues.isEmpty "issues" (Codec.encode g.issues)]

end GeneratedPolicy

/-- What generates policies. -/
structure Generator where
  registry : Registry
  resolvers : ResolverChain
  baseDependencies : Packages

/-- How far a policy has come. -/
structure Progress where
  document : Document
  packages : Packages
  issues : List Issue
  resolvers : ResolverChain

namespace Generator

/-- The generator of a configuration. -/
def ofConfig (read : FileReader) (config : GeneratorConfig) :
    Except GenerationError Generator := do
  let table ← match config.componentDependencies with
    | none => .ok ComponentTable.builtIn
    | some path => (ComponentTable.load read path).map ComponentTable.builtIn.merge
  let resolvers := ResolverChain.empty.push (.configured table)
  let resolvers := match config.probe with
    | none => resolvers
    | some probe => resolvers.push (.probe probe)
  return ⟨.standard, resolvers, config.baseDependencies⟩

/-! ## One reference -/

/-- The first marker of a kind, in document order, among some nodes whose URI is
logical.  A marker without a URI that comes before it is an error. -/
def nextAmong (d : Document) (marker : Marker) :
    List NodeId → Except GenerationError (Option (NodeId × String))
  | [] => .ok none
  | n :: rest =>
      if d.isNamed marker.tagName n then
        match d.attribute? n Uri.attributeKey with
        | none => .error (.missingUri "" marker.tagName)
        | some uri => if Uri.isLogical uri then .ok (some (n, uri)) else nextAmong d marker rest
      else nextAmong d marker rest

/-- The next reference of a kind below the root, with its URI. -/
def nextReference (d : Document) (marker : Marker) :
    Except GenerationError (Option (NodeId × String)) :=
  nextAmong d marker (d.descendants d.root)

/-- The advice that a characteristic has no processor. -/
def unsupported (policy endpoint kind : String) : Issue where
  severity := .warning
  message := s!"characteristic '{kind}' is not supported and was not applied"
  policy := some policy
  endpoint := some endpoint

/-- Add an issue, unless it is listed. -/
def addIssue (issues : List Issue) (issue : Issue) : List Issue :=
  if issues.contains issue then issues else issues ++ [issue]

/-- Apply one characteristic of an endpoint to the element that refers to it. -/
def applyCharacteristic (registry : Registry) (s : Snapshot) (policy : String) (e : Endpoint)
    (element : NodeId) (p : Progress) (c : Characteristic) :
    Except GenerationError Progress :=
  match registry.find? c.kind with
  | none => .ok { p with issues := addIssue p.issues (unsupported policy e.name c.kind) }
  | some processor => do
      let document ← processor.process ⟨policy, s, e, c⟩ p.document element
      return { p with
        document := document
        packages := p.packages.union processor.dependencies }

/-- Apply characteristics in order. -/
def applyAll (registry : Registry) (s : Snapshot) (policy : String) (e : Endpoint)
    (element : NodeId) : Progress → List Characteristic → Except GenerationError Progress
  | p, [] => .ok p
  | p, c :: rest => do
      let p ← applyCharacteristic registry s policy e element p c
      applyAll registry s policy e element p rest

/-- Resolve the URI of one marker and apply what its endpoint asks for. -/
def resolveElement (g : Generator) (directories : Directories) (s : Snapshot) (policy : String)
    (marker : Marker) (element : NodeId) (uri : String) (p : Progress) :
    Except GenerationError Progress := do
  match ← s.resolveFor marker uri with
  | none => .error (.model (.invalidInput s!"'{uri}' is not a logical reference"))
  | some resolution =>
      let e := resolution.endpoint
      if Uri.isLogical resolution.uri then
        .error (.model (.invalidInput
          s!"endpoint '{e.name}' resolves to another logical reference"))
      else
        let document := p.document.setAttribute element Uri.attributeKey resolution.uri
        let p ← applyAll g.registry s policy e element { p with document } e.characteristics
        let (packages, resolvers) := p.resolvers.packagesForUri directories resolution.uri
        return { p with
          packages := (p.packages.union e.dependencies).union packages
          resolvers }

/-! ## One policy -/

/-- Resolve references of one kind while there are any; `steps` bounds how
many. -/
def resolveKind (g : Generator) (directories : Directories) (s : Snapshot) (policy : String)
    (marker : Marker) : Nat → Progress → Except GenerationError Progress
  | 0, p => .ok p
  | steps + 1, p => do
      match ← nextReference p.document marker with
      | none => return p
      | some (element, uri) =>
          let p ← g.resolveElement directories s policy marker element uri p
          g.resolveKind directories s policy marker steps p

/-- How many references of processors that add references of their own are
resolved at most. -/
def addedReferenceLimit : Nat := 100000

/-- Resolve the references of all kinds in turn.  Resolving a reference adds
none, unless a processor does, so the size of the document bounds their
number. -/
def resolveKinds (g : Generator) (directories : Directories) (s : Snapshot) (policy : String)
    (steps : Nat) : List Marker → Progress → Except GenerationError Progress
  | [], p => .ok p
  | marker :: rest, p => do
      let p ← g.resolveKind directories s policy marker steps p
      g.resolveKinds directories s policy steps rest p

/-- The packages of a policy apart from those of its references. -/
def ownPackages (g : Generator) (policy : Policy) : List Packages :=
  policy.dependencies :: policy.resources.map Resource.dependencies ++ [g.baseDependencies]

/-- Generate a policy from its definition; the chain of resolvers comes back with
what it remembers. -/
def generateWith (g : Generator) (directories : Directories) (resolvers : ResolverChain)
    (s : Snapshot) (policy : Policy) (definition : String) :
    Except GenerationError (GeneratedPolicy × ResolverChain) := do
  let resources ← (s.resourceContents policy).mapError .model
  let document ← (Document.parse definition).mapError fun m =>
    .malformed policy.name m.message
  let steps := document.size + addedReferenceLimit
  let p ← (g.resolveKinds directories s policy.name steps Marker.all
    ⟨document, .empty, [], resolvers⟩).mapError (.inPolicy policy.name)
  let generated := {
    policy := policy.name
    definition := p.document.serialize
    dependencies := (g.ownPackages policy).foldl SortedSet.union p.packages
    resources
    issues := p.issues }
  return (generated, p.resolvers)

/-- Generate a policy from its definition. -/
def generate (g : Generator) (directories : Directories) (s : Snapshot) (policy : Policy)
    (definition : String) : Except GenerationError GeneratedPolicy :=
  (g.generateWith directories g.resolvers s policy definition).map Prod.fst

/-! ## A snapshot -/

/-- Generate policies in order; the first error ends it. -/
def generateAll (g : Generator) (directories : Directories) (s : Snapshot) :
    ResolverChain → List Policy → Except GenerationError (List GeneratedPolicy)
  | _, [] => .ok []
  | resolvers, policy :: rest => do
      let definition ← match s.definition? policy.name with
        | some definition => .ok definition
        | none => .error (.model (.missingDefinition policy.name))
      let (generated, resolvers) ← g.generateWith directories resolvers s policy definition
      let others ← g.generateAll directories s resolvers rest
      return generated :: others

/-- Generate every policy of a consistent snapshot. -/
def generateSnapshot (g : Generator) (directories : Directories) (s : Snapshot) :
    Except GenerationError (List GeneratedPolicy) := do
  s.checkConsistency.mapError .model
  g.generateAll directories s g.resolvers s.policies

end Generator

end RouteCompiler
