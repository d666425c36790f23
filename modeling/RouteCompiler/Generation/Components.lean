import RouteCompiler.Datum.Codec
import RouteCompiler.Files.Path
import RouteCompiler.Model.Encoding
import RouteCompiler.Text.Quoted

/-!
# Packages of components

A physical URI is served by a component, which needs packages when the route
runs.  Resolvers know components; the first one in a chain that supports a
component answers for it, and a component that none supports needs nothing.
The chain remembers its answers.

What a resolver answers may depend on the directories that exist.
-/

namespace RouteCompiler

/-- Which paths lead to directories. -/
abbrev Directories := String → Bool

/-! ## Tables -/

/-- The packages of components by name. -/
structure ComponentTable where
  dependencies : SortedMap String Packages := .empty
  deriving DecidableEq

namespace ComponentTable

/-- A table without components. -/
def empty : ComponentTable :=
  ⟨.empty⟩

/-- The packages that the table holds for a component. -/
def packagesOf (t : ComponentTable) (component : String) : Packages :=
  (t.dependencies.find? component).getD .empty

/-- Add packages to those of a component. -/
def addAll (t : ComponentTable) (component : String) (packages : Packages) : ComponentTable :=
  ⟨t.dependencies.insert component ((t.packagesOf component).union packages)⟩

/-- Add one package to those of a component. -/
def add (t : ComponentTable) (component : String) (package : Coordinate) : ComponentTable :=
  t.addAll component (.ofList [package])

/-- Add what another table holds. -/
def merge (t other : ComponentTable) : ComponentTable :=
  other.dependencies.entries.foldl (fun t e => t.addAll e.1 e.2) t

/-- The table that is always known. -/
def builtIn : ComponentTable :=
  ⟨.ofList [
    ("activemq", .ofList [⟨"org.apache.activemq", "activemq-camel", "5.11.1"⟩]),
    ("cxf", .ofList [⟨"org.apache.camel", "camel-cxf", "2.15.0"⟩]),
    ("cxfrs", .ofList [⟨"org.apache.camel", "camel-cxf", "2.15.0"⟩]),
    ("http4s", .ofList [⟨"org.apache.camel", "camel-http4", "2.15.0"⟩]),
    ("sjms", .ofList [
      ⟨"org.apache.camel", "camel-sjms", "2.15.0"⟩,
      ⟨"org.apache.activemq", "activemq-client", "5.11.1"⟩])]⟩

instance : Codec ComponentTable where
  encode t := .ofMembers [.always "dependencies" (encode t.dependencies)]
  decode d := do
    let fields ← d.fields? ["dependencies"]
    return { dependencies := ← fields.optional "dependencies" .empty }

end ComponentTable

/-! ## Resolvers -/

/-- Something that knows the packages of components. -/
structure Resolver where
  name : String
  supports : Directories → String → Bool
  packages : Directories → String → Packages

namespace Resolver

/-- The resolver that looks components up in a table; an entry without packages
is no support. -/
def configured (t : ComponentTable) : Resolver where
  name := "configured"
  supports _ component := !(t.packagesOf component).isEmpty
  packages _ component := t.packagesOf component

end Resolver

/-- Where the packages of a release are looked for. -/
structure ProbeConfig where
  repositoryRoot : String
  camelVersion : String
  deriving DecidableEq, Repr

namespace ProbeConfig

/-- The release that is looked for where nothing else is said. -/
def defaultVersion : String := "2.15.0"

/-- The package repository of a user. -/
def default (home : String) : ProbeConfig :=
  ⟨Path.join (Path.join home ".m2") "repository", defaultVersion⟩

/-- The configuration as a datum. -/
def encode (c : ProbeConfig) : Datum :=
  .ofMembers [
    .always "repositoryRoot" (Codec.encode c.repositoryRoot),
    .always "camelVersion" (Codec.encode c.camelVersion)]

/-- The configuration of a datum; what is left out is as for the user. -/
def decode (home : String) (d : Datum) : Option ProbeConfig := do
  let fields ← d.fields? ["repositoryRoot", "camelVersion"]
  return {
    repositoryRoot := ← fields.optional "repositoryRoot" (default home).repositoryRoot
    camelVersion := ← fields.optional "camelVersion" (default home).camelVersion }

/-- The group of the packages that are looked for. -/
def groupId : String := "org.apache.camel"

/-- The package that serves a component. -/
def artifactId (component : String) : String :=
  s!"camel-{component}"

/-- Whether a component may be a part of a package name. -/
def isPlausible (component : String) : Bool :=
  !component.isEmpty &&
    component.toList.all fun c => c.isAlphanum || c == '-' || c == '_'

/-- The directory of the package that serves a component. -/
def packageDirectory (c : ProbeConfig) (component : String) : String :=
  ["org", "apache", "camel", artifactId component, c.camelVersion].foldl
    Path.join c.repositoryRoot

end ProbeConfig

namespace Resolver

/-- The resolver that looks whether the package of a component is in a
repository. -/
def probe (c : ProbeConfig) : Resolver where
  name := "camel-probe"
  supports isDirectory component :=
    ProbeConfig.isPlausible component && isDirectory (c.packageDirectory component)
  packages isDirectory component :=
    if ProbeConfig.isPlausible component && isDirectory (c.packageDirectory component) then
      .ofList [⟨ProbeConfig.groupId, ProbeConfig.artifactId component, c.camelVersion⟩]
    else .empty

end Resolver

/-! ## Chains -/

/-- Resolvers in order, and the answers given so far. -/
structure ResolverChain where
  resolvers : List Resolver
  answers : SortedMap String Packages

namespace ResolverChain

/-- A chain without resolvers. -/
def empty : ResolverChain :=
  ⟨[], .empty⟩

/-- Put a resolver at the end of the chain, which forgets its answers. -/
def push (c : ResolverChain) (r : Resolver) : ResolverChain :=
  ⟨c.resolvers ++ [r], .empty⟩

/-- The chain of some resolvers. -/
def ofList (resolvers : List Resolver) : ResolverChain :=
  resolvers.foldl push empty

/-- What the resolvers say of a component: the first that supports it
answers. -/
def ask (c : ResolverChain) (directories : Directories) (component : String) : Packages :=
  match c.resolvers.find? fun r => r.supports directories component with
  | some r => r.packages directories component
  | none => .empty

/-- The packages of a component, and the chain that remembers the answer. -/
def packagesFor (c : ResolverChain) (directories : Directories) (component : String) :
    Packages × ResolverChain :=
  match c.answers.find? component with
  | some packages => (packages, c)
  | none =>
      let packages := c.ask directories component
      (packages, { c with answers := c.answers.insert component packages })

/-- The packages of the component that serves a URI. -/
def packagesForUri (c : ResolverChain) (directories : Directories) (uri : String) :
    Packages × ResolverChain :=
  c.packagesFor directories (Uri.component uri)

/-- The packages that any resolver knows for a component. -/
def allPackagesFor (c : ResolverChain) (directories : Directories) (component : String) :
    Packages :=
  (c.resolvers.filter fun r => r.supports directories component).foldl
    (fun all r => all.union (r.packages directories component)) .empty

/-- A summary of a chain. -/
def summary (c : ResolverChain) : String :=
  "DependencyResolverChain \x7b resolvers: " ++
    Text.quotedList (c.resolvers.map Resolver.name) ++
    s!", cached: {c.answers.size} \x7d"

end ResolverChain

end RouteCompiler
