import RouteCompiler.Build.Tracker
import RouteCompiler.Digest.Sha256
import RouteCompiler.Generation.Generator
import RouteCompiler.Json.Printer

/-!
# Manifests

A deployment is described by a manifest: what was built, when, by which build,
and for each policy a digest of its definition, the number of packages it needs
and the names of its resources.
-/

namespace RouteCompiler

/-- What a manifest says of a policy. -/
structure DeployedPolicy where
  name : String
  sha256 : String
  dependencies : UInt64
  resources : List String := []
  deriving DecidableEq

namespace DeployedPolicy

/-- What a manifest says of a generated policy. -/
def ofGenerated (g : GeneratedPolicy) : DeployedPolicy where
  name := g.policy
  sha256 := Sha256.digest g.definition
  dependencies := .ofNat g.dependencies.size
  resources := g.resources.keys

instance : Codec DeployedPolicy where
  encode p := .ofMembers [
    .always "name" (encode p.name),
    .always "sha256" (encode p.sha256),
    .always "dependencies" (encode p.dependencies),
    .omitIf p.resources.isEmpty "resources" (encode p.resources)]
  decode d := do
    let fields ← d.fields? ["name", "sha256", "dependencies", "resources"]
    return {
      name := ← fields.required "name"
      sha256 := ← fields.required "sha256"
      dependencies := ← fields.required "dependencies"
      resources := ← fields.optional "resources" [] }

end DeployedPolicy

/-- A description of a deployment. -/
structure Manifest where
  org : String
  group : String
  tag : String
  buildId : BuildId
  deployedAt : Instant
  policies : List DeployedPolicy
  deriving DecidableEq

namespace Manifest

/-- The description of generated policies deployed under a tag. -/
def ofGenerated (key : TagKey) (id : BuildId) (now : Instant) (policies : List GeneratedPolicy) :
    Manifest where
  org := key.org
  group := key.group
  tag := key.tag
  buildId := id
  deployedAt := now
  policies := policies.map .ofGenerated

instance : Codec Manifest where
  encode m := .ofMembers [
    .always "org" (encode m.org),
    .always "group" (encode m.group),
    .always "tag" (encode m.tag),
    .always "buildId" (encode m.buildId),
    .always "deployedAt" (encode m.deployedAt),
    .always "policies" (encode m.policies)]
  decode d := do
    let fields ← d.fields? ["org", "group", "tag", "buildId", "deployedAt", "policies"]
    return {
      org := ← fields.required "org"
      group := ← fields.required "group"
      tag := ← fields.required "tag"
      buildId := ← fields.required "buildId"
      deployedAt := ← fields.required "deployedAt"
      policies := ← fields.required "policies" }

/-- Read a manifest from its text. -/
def ofText (text : String) : Except BuildError Manifest :=
  match (Json.parse text).bind decode with
  | some m => .ok m
  | none => .error (.model .malformedJson)

/-- The text of a manifest. -/
def toText (m : Manifest) : String :=
  Json.pretty (encode m)

end Manifest

end RouteCompiler
