import RouteCompiler.Build.Deployment
import RouteCompiler.CommandLine.Command
import RouteCompiler.CommandLine.Diagnosis
import RouteCompiler.Time.Epoch

/-!
# Reports

What the program prints, and the code with which it ends.
-/

namespace RouteCompiler.CommandLine

/-- What the program leaves behind when it ends. -/
structure Report where
  code : UInt32 := 0
  output : String := ""
  errors : String := ""
  deriving DecidableEq, Repr

/-- The name under which the program is called. -/
def programName : String := "hodos"

/-- The version of the program. -/
def programVersion : String := "0.1.0"

/-- Lines, each with its end. -/
def unlines (lines : List String) : String :=
  String.join (lines.map fun line => line ++ "\n")

/-- A datum for other programs. -/
def jsonOutput (d : Datum) : String :=
  Json.pretty d ++ "\n"

/-! ## Compiling -/

/-- What came of a build. -/
structure CompileReport where
  key : TagKey
  build : BuildRecord
  tag : Tag
  /-- Where the build is deployed, if it was successful. -/
  output : String

namespace CompileReport

/-- The report as a datum. -/
def encode (r : CompileReport) : Datum :=
  .ofMembers [
    .always "key" (Codec.encode r.key),
    .always "build" r.build.encode,
    .always "tag" (Codec.encode r.tag),
    .always "output" (Codec.encode r.output)]

/-- The sign of a status. -/
def sign : BuildStatus → String
  | .successful => "✓"
  | .failed => "✗"
  | _ => "?"

/-- How long the build ran. -/
def durationLines (build : BuildRecord) : List String :=
  match build.startedAt, build.endedAt with
  | some started, some ended => [s!"  Duration: {started.millisecondsTo ended}ms"]
  | _, _ => []

/-- The issues of a build. -/
def issueLines (issues : List Issue) : List String :=
  if issues.isEmpty then []
  else "" :: "Issues:" :: issues.map fun i => s!"  {i.toText}"

/-- The report for a reader. -/
def toText (r : CompileReport) : String :=
  unlines ([s!"{sign r.tag.status} {r.key.toText} [{r.tag.status.name}]",
      s!"  Build: {r.build.id}"] ++
    durationLines r.build ++
    (if r.tag.status = .successful then [s!"  Output: {r.output}"] else []) ++
    issueLines r.tag.issues)

/-- The report in a format; the program ends with a failure if the build did. -/
def toReport (r : CompileReport) (format : OutputFormat) : Report where
  code := if r.tag.status = .failed then 1 else 0
  output := match format with
    | .text => r.toText
    | .json => jsonOutput r.encode

end CompileReport

/-! ## Generating -/

/-- What was generated for a policy; its issues go beside it. -/
def generateReport (g : GeneratedPolicy) : OutputFormat → Report
  | .text => {
      output := g.definition ++
        unlines ("" :: "Dependencies:" :: g.dependencies.elements.map fun c => s!"  {c.toText}")
      errors := unlines (g.issues.map Issue.toText) }
  | .json => { output := jsonOutput g.encode }

/-! ## Characteristics -/

/-- The line of a setting. -/
def propertyLine (p : PropertyDescriptor) : String :=
  let mandatory := if p.mandatory then " (mandatory)" else ""
  let default := match p.default with
    | some value => s!" [default: {value}]"
    | none => ""
  s!"    {p.name}" ++ mandatory ++ default

/-- The lines of a kind of characteristic. -/
def kindLines (kind : CharacteristicKind) : List String :=
  kind.name :: (if kind.description.isEmpty then [] else [s!"  {kind.description}"]) ++
    kind.properties.map propertyLine

/-- The kinds of characteristics. -/
def characteristicsReport (kinds : List CharacteristicKind) : OutputFormat → Report
  | .text => { output := unlines (kinds.flatMap kindLines) }
  | .json => { output := jsonOutput (.list (kinds.map CharacteristicKind.encode)) }

/-! ## Deployments -/

/-- The lines of a deployed policy. -/
def policyLines (p : DeployedPolicy) : List String :=
  s!"    {p.name} sha256:{p.sha256} ({p.dependencies} dependencies)" ::
    p.resources.map fun name => s!"      resource: {name}"

/-- The lines of a deployment, with those of its policies if they are wanted. -/
def manifestLines (verbose : Bool) (m : Manifest) : List String :=
  [s!"✓ {m.org}/{m.group}/{m.tag} deployed {m.deployedAt.toTextWithOffset}",
      s!"  Build: {m.buildId}"] ++
    (if verbose then m.policies.flatMap policyLines
      else [s!"  Policies: {m.policies.length}"]) ++
    [""]

/-- The deployments of a group. -/
def statusReport (r : StatusRequest) (manifests : List Manifest) : Report where
  output := match r.format with
    | .json => jsonOutput (encode manifests)
    | .text =>
        if manifests.isEmpty then
          unlines [s!"No deployments found for {r.org}/{r.group}.", "",
            s!"Run '{programName} compile' to build and deploy a tag."]
        else unlines (manifests.flatMap (manifestLines r.verbose))

/-! ## The program itself -/

/-- The version of the program. -/
def versionReport : Report where
  output := unlines [s!"{programName} {programVersion}"]

/-- How the program is called. -/
def usageText : String :=
  unlines [
    s!"Usage: {programName} <COMMAND>",
    "",
    "Commands:",
    "  compile          Tag a snapshot, build it and deploy the result",
    "  generate         Print what is generated for one policy",
    "  characteristics  List the supported kinds of characteristics",
    "  status           Show the deployed tags of a group",
    "  version          Print the version"]

/-- A command line that cannot be understood. -/
def usageReport (e : UsageError) : Report where
  code := 2
  errors := s!"error: {e.message}\n\n" ++ usageText

/-- A command that could not be carried out. -/
def failureReport (d : Diagnosis) : Report where
  code := 1
  errors := d.toText

end RouteCompiler.CommandLine
