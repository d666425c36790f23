import RouteCompiler.Files.FileSystem
import RouteCompiler.Generation.Components
import RouteCompiler.Generation.Error
import RouteCompiler.Json.Reader
import RouteCompiler.Yaml.Reader

/-!
# Configuration of generation

What every generated policy needs, further packages of components, and where
packages are looked for.  A configuration leaves out what shall be as usual.
-/

namespace RouteCompiler

/-- The configuration of a generator. -/
structure GeneratorConfig where
  baseDependencies : Packages
  /-- The path of a table of components. -/
  componentDependencies : Option String
  probe : Option ProbeConfig
  deriving DecidableEq

namespace GeneratorConfig

/-- What every policy needs where nothing else is said. -/
def usualDependencies : Packages :=
  .ofList [
    ⟨"org.springframework", "spring-web", "4.1.1.RELEASE"⟩,
    ⟨"org.apache.camel", "camel-spring", "2.15.0"⟩,
    ⟨"org.apache.camel", "camel-jsonpath", "2.15.0"⟩]

/-- The configuration of a user where nothing else is said. -/
def default (home : String) : GeneratorConfig :=
  ⟨usualDependencies, none, some (.default home)⟩

/-- The configuration as a datum. -/
def encode (c : GeneratorConfig) : Datum :=
  .ofMembers [
    .always "baseDependencies" (Codec.encode c.baseDependencies),
    .omitIf c.componentDependencies.isNone "componentDependencies"
      (Codec.encode c.componentDependencies),
    .omitIf c.probe.isNone "probe" ((c.probe.map ProbeConfig.encode).getD .null)]

/-- A probe, or none where the datum says that there is nothing. -/
def decodeProbe (home : String) (d : Datum) : Option (Option ProbeConfig) :=
  d.isNothing?.bind fun isNothing =>
    if isNothing then some none else (ProbeConfig.decode home d).map some

/-- The configuration of a datum; what is left out is as usual. -/
def decode (home : String) (d : Datum) : Option GeneratorConfig := do
  let fields ← d.fields? ["baseDependencies", "componentDependencies", "probe"]
  return {
    baseDependencies := ← fields.optional "baseDependencies" usualDependencies
    componentDependencies := ← fields.optional "componentDependencies" none
    probe := ← match fields "probe" with
      | none => some (some (.default home))
      | some d => decodeProbe home d }

end GeneratorConfig

/-! ## Texts in files -/

/-- Read a text in the format that the name of its file tells, and decode it. -/
def decodeFile {α : Type} (decoder : Datum → Option α) (path text : String) :
    Except ModelError α :=
  if Path.hasExtension "json" path then
    match (Json.parse text).bind decoder with
    | some a => .ok a
    | none => .error .malformedJson
  else
    match (Yaml.parse text).bind decoder with
    | some a => .ok a
    | none => .error .malformedYaml

/-- Read a table of components from a file. -/
def ComponentTable.load (read : FileReader) (path : String) :
    Except GenerationError ComponentTable := do
  let text ← (read path).mapError fun fault => .file path fault.message
  (decodeFile decode path text).mapError .model

/-- Read a snapshot from a file. -/
def Snapshot.load (read : FileReader) (path : String) : Except ModelError Snapshot := do
  let text ← (read path).mapError fun fault => .unreadableSnapshot path fault.message
  decodeFile decode path text

end RouteCompiler
