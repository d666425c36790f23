import RouteCompiler.Build.Run
import RouteCompiler.CommandLine.Report

/-!
# The program

Each command reads what it needs from files, does its work and makes a report.
The commands run wherever there are files, a clock and identifiers.
-/

namespace RouteCompiler.CommandLine

/-- What the commands need from outside, apart from files. -/
structure Host (m : Type → Type) where
  /-- A reading of the clock. -/
  now : m Instant
  /-- An identifier that was never drawn before, and is greater than those that
  were. -/
  freshId : m BuildId
  /-- The directory of the user. -/
  home : String

section Commands

variable {m : Type → Type} [Monad m] [Files m]

/-- Go on with a result, or end with a diagnosis of what failed. -/
def orDiagnose {ε α : Type} (diagnose : ε → Diagnosis) (r : Except ε α) :
    ExceptT Diagnosis m α :=
  ExceptT.mk (pure (r.mapError diagnose))

/-- What there is to read at one path. -/
def readerOf (path : Option String) : m FileReader := do
  match path with
  | none => return fun _ => .error .notFound
  | some path =>
      let content ← Files.readText path
      return fun _ => content

/-- The configuration in a file, or the usual one. -/
def loadConfiguration (home : String) (path : Option String) :
    ExceptT Diagnosis m Configuration := do
  match path with
  | none => return .default home
  | some path =>
      let read ← readerOf (m := m) (some path)
      orDiagnose (fun e => (Diagnosis.ofBuild e).within s!"Failed to load configuration from {path}")
        (Configuration.load home read path)

/-- The snapshot in a file, which must be valid. -/
def loadSnapshot (path : String) : ExceptT Diagnosis m Snapshot := do
  let read ← readerOf (m := m) (some path)
  let s ← orDiagnose (fun e => (Diagnosis.ofModel e).within s!"Failed to load snapshot from {path}")
    (Snapshot.load read path)
  let failures := s.validate
  if failures.isEmpty then return s
  else throw ⟨s!"Snapshot {path} is invalid: {Failure.listText failures}", []⟩

/-- The generator of a configuration. -/
def makeGenerator (config : GeneratorConfig) : ExceptT Diagnosis m Generator := do
  let read ← readerOf (m := m) config.componentDependencies
  orDiagnose (fun e => (Diagnosis.ofGeneration e).within "Failed to initialize generator")
    (Generator.ofConfig read config)

/-- The directories that a probe looks for on behalf of a snapshot. -/
def probeDirectories (probe : Option ProbeConfig) (s : Snapshot) : m Directories := do
  match probe with
  | none => return fun _ => false
  | some config =>
      let paths := (s.components.filter ProbeConfig.isPlausible).map config.packageDirectory
      let found ← paths.filterM fun path => Files.isDirectory path
      return fun path => found.contains path

/-- How what was generated for a build is deployed below a directory. -/
abbrev Deployer (m : Type → Type) :=
  String → BuildRequest → List GeneratedPolicy → m DeployOutcome

/-- The deployer that writes files. -/
def fileDeployer (host : Host m) : Deployer m := fun root request policies => do
  match ← (Deployment.deploy root request.key request.id (← host.now) policies).run with
  | .ok _ => return .done
  | .error e => return .failed e

/-- What a build server needs from outside. -/
def surroundings (host : Host m) (generator : Generator) (probe : Option ProbeConfig)
    (deploy : BuildRequest → List GeneratedPolicy → m DeployOutcome) : Surroundings m where
  now := host.now
  freshId := host.freshId
  generate s := return generator.generateSnapshot (← probeDirectories probe s) s
  deploy := deploy

/-- Submit a tag to a server, wait for its build, and shut the server down. -/
def buildTag (site : Surroundings m) (server : Server Repository) (key : TagKey) :
    m (Except BuildError BuildRecord × Server Repository) := do
  let noAnswer : BuildError := .internal "no answer"
  let (answer, server) ← server.submit site key
  match answer.getD (.error noAnswer) with
  | .error e => return (.error e, server)
  | .ok id =>
      let (answer, server) ← server.wait site id
      return (answer.getD (.error noAnswer), ← server.shutDown site)

/-- Tag a snapshot, build it and hand the result to a deployer. -/
def compileWith (host : Host m) (deployer : Deployer m) (r : CompileRequest) :
    ExceptT Diagnosis m CompileReport := do
  let config ← loadConfiguration host.home r.config
  let scheduler := { config.builder.scheduler with
    poolSize := r.poolSize.getD config.builder.scheduler.poolSize }
  let root := (r.output.orElse fun _ => config.deployRoot).getD (Deployment.defaultRoot host.home)
  let s ← loadSnapshot r.snapshot
  let key : TagKey := ⟨r.org, s.group.name, r.tag⟩
  let tag : Tag := {
    name := r.tag
    description := s!"compiled from {r.snapshot}"
    createdAt := ← host.now }
  let (_, repository) ← orDiagnose .ofBuild
    ((Repository.empty.putGroup r.org s).createTag key.groupKey tag)
  let generator ← makeGenerator config.generator
  let server ← orDiagnose .ofBuild (Server.start { config.builder with scheduler } repository)
  let site := surroundings host generator config.generator.probe (deployer root)
  let (outcome, server) ← buildTag (m := m) site server key
  let build ← orDiagnose .ofBuild outcome
  match server.store.tag? key with
  | none => throw ⟨s!"Tag {key.toText} disappeared during the build", []⟩
  | some tag => return ⟨key, build, tag, Deployment.tagDirectory root key⟩

/-- Tag a snapshot, build it and deploy the result. -/
def compile (host : Host m) (r : CompileRequest) : ExceptT Diagnosis m Report := do
  return (← compileWith host (fileDeployer host) r).toReport r.format

/-- What is generated for one policy of a snapshot. -/
def generatePolicy (host : Host m) (r : GenerateRequest) :
    ExceptT Diagnosis m GeneratedPolicy := do
  let config ← loadConfiguration host.home r.config
  let config := { config.generator with probe := if r.probes then config.generator.probe else none }
  let s ← loadSnapshot r.snapshot
  orDiagnose .ofModel s.checkConsistency
  match s.policy? r.policy with
  | none => throw ⟨s!"Policy '{r.policy}' not found in {r.snapshot}", []⟩
  | some policy =>
      match s.definition? policy.name with
      | none => throw ⟨s!"Policy '{policy.name}' has no definition", []⟩
      | some definition =>
          let generator ← makeGenerator config
          let directories ← probeDirectories (m := m) config.probe s
          orDiagnose .ofGeneration (generator.generate directories s policy definition)

/-- Generate one policy of a snapshot. -/
def generate (host : Host m) (r : GenerateRequest) : ExceptT Diagnosis m Report := do
  return generateReport (← generatePolicy host r) r.format

/-- Show the deployed tags of a group. -/
def status (host : Host m) (r : StatusRequest) : ExceptT Diagnosis m Report := do
  let root := r.deployRoot.getD (Deployment.defaultRoot host.home)
  let tags ← orDiagnose .ofBuild (← (Deployment.deployedTags (m := m) root r.org r.group).run)
  let manifests ← tags.filterMapM fun tag => do
    let key : TagKey := ⟨r.org, r.group, tag⟩
    orDiagnose .ofBuild (← (Deployment.readManifest (m := m) root key).run)
  return statusReport r manifests

/-- Carry out a command. -/
def Command.run (host : Host m) : Command → m Report
  | .compile r => settle (CommandLine.compile host r)
  | .generate r => settle (CommandLine.generate host r)
  | .characteristics format => return characteristicsReport Registry.standard.kinds format
  | .status r => settle (CommandLine.status host r)
  | .version => return versionReport
  | .help => return { output := usageText }
where
  /-- The report of a command, or of its failure. -/
  settle (work : ExceptT Diagnosis m Report) : m Report := do
    match ← work.run with
    | .ok report => return report
    | .error d => return failureReport d

/-- Carry out what a command line asks for. -/
def run (host : Host m) (environment : String → Option String) (args : List String) : m Report :=
  match Command.ofArguments environment args with
  | .ok command => command.run host
  | .error e => return usageReport e

end Commands

end RouteCompiler.CommandLine
