import RouteCompiler.Build.Error
import RouteCompiler.Generation.Config

/-!
# Configuration of builds

How many builds run and wait at a time, how many finished ones are remembered,
and the configuration of the whole program, which is kept in a file.
-/

namespace RouteCompiler

/-- How many builds run and wait at a time. -/
structure SchedulerConfig where
  poolSize : UInt64 := 10
  maxQueueSize : UInt64 := 100
  deriving DecidableEq, Repr

namespace SchedulerConfig

/-- A summary of a configuration. -/
def summary (c : SchedulerConfig) : String :=
  s!"SchedulerConfig \x7b pool_size: {c.poolSize}, max_queue_size: {c.maxQueueSize} \x7d"

instance : Codec SchedulerConfig where
  encode c := .ofMembers [
    .always "poolSize" (encode c.poolSize),
    .always "maxQueueSize" (encode c.maxQueueSize)]
  decode d := do
    let fields ← d.fields? ["poolSize", "maxQueueSize"]
    return {
      poolSize := ← fields.optional "poolSize" 10
      maxQueueSize := ← fields.optional "maxQueueSize" 100 }

end SchedulerConfig

/-- The configuration of a build server. -/
structure ServerConfig where
  scheduler : SchedulerConfig := {}
  /-- How many finished builds are remembered. -/
  historyLimit : UInt64 := 100
  deriving DecidableEq, Repr

namespace ServerConfig

/-- Check that builds can run and wait. -/
def validate (c : ServerConfig) : Except BuildError Unit :=
  if c.scheduler.poolSize = 0 then
    .error (.invalidConfig "scheduler.poolSize must be at least 1")
  else if c.scheduler.maxQueueSize = 0 then
    .error (.invalidConfig "scheduler.maxQueueSize must be at least 1")
  else .ok ()

instance : Codec ServerConfig where
  encode c := .ofMembers [
    .always "scheduler" (encode c.scheduler),
    .always "historyLimit" (encode c.historyLimit)]
  decode d := do
    let fields ← d.fields? ["scheduler", "historyLimit"]
    return {
      scheduler := ← fields.optional "scheduler" {}
      historyLimit := ← fields.optional "historyLimit" 100 }

end ServerConfig

/-- The configuration of the program. -/
structure Configuration where
  builder : ServerConfig
  generator : GeneratorConfig
  /-- Where builds are deployed, if not in the directory of the user. -/
  deployRoot : Option String
  deriving DecidableEq

namespace Configuration

/-- The configuration of a user where nothing else is said. -/
def default (home : String) : Configuration :=
  ⟨{}, .default home, none⟩

/-- The configuration as a datum. -/
def encode (c : Configuration) : Datum :=
  .ofMembers [
    .always "builder" (Codec.encode c.builder),
    .always "generator" c.generator.encode,
    .omitIf c.deployRoot.isNone "deployRoot" (Codec.encode c.deployRoot)]

/-- The configuration of a datum; what is left out is as usual. -/
def decode (home : String) (d : Datum) : Option Configuration := do
  let fields ← d.fields? ["builder", "generator", "deployRoot"]
  return {
    builder := ← fields.optional "builder" {}
    generator := ← match fields "generator" with
      | none => some (.default home)
      | some d => GeneratorConfig.decode home d
    deployRoot := ← fields.optional "deployRoot" none }

/-- Read the configuration of a user from a file. -/
def load (home : String) (read : FileReader) (path : String) :
    Except BuildError Configuration := do
  let text ← (read path).mapError fun fault => .file path fault.message
  let c ← (decodeFile (decode home) path text).mapError .model
  c.builder.validate
  return c

end Configuration

end RouteCompiler
