import RouteCompiler.CommandLine.Arguments

/-!
# Commands

What the program can be asked to do, and how it is asked.
-/

namespace RouteCompiler.CommandLine

/-- Tag a snapshot, build it and deploy the result. -/
structure CompileRequest where
  snapshot : String
  org : String
  tag : String
  output : Option String
  config : Option String
  poolSize : Option UInt64
  format : OutputFormat
  deriving DecidableEq, Repr

/-- Generate one policy of a snapshot. -/
structure GenerateRequest where
  snapshot : String
  policy : String
  config : Option String
  /-- Whether packages are looked for. -/
  probes : Bool
  format : OutputFormat
  deriving DecidableEq, Repr

/-- Show the deployed tags of a group. -/
structure StatusRequest where
  org : String
  group : String
  deployRoot : Option String
  verbose : Bool
  format : OutputFormat
  deriving DecidableEq, Repr

/-- What the program is asked to do. -/
inductive Command where
  | compile (r : CompileRequest)
  | generate (r : GenerateRequest)
  /-- List the supported kinds of characteristics. -/
  | characteristics (format : OutputFormat)
  | status (r : StatusRequest)
  | version
  | help
  deriving DecidableEq, Repr

/-! ## Grammars -/

/-- The switch that selects a format. -/
def formatSwitch : Switch :=
  { name := "format", letter := some 'f', value := some .format }

/-- The switch that names a configuration. -/
def configSwitch : Switch :=
  { name := "config", letter := some 'c', value := some .path }

/-- The variable that holds the directory for deployments. -/
def deployRootVariable : String := "HODOS_DEPLOY_ROOT"

/-- The variable that holds the number of workers. -/
def poolSizeVariable : String := "HODOS_POOL_SIZE"

/-- What can stand behind `compile`. -/
def compileGrammar : Grammar where
  switches := [
    { name := "org", value := some .text },
    { name := "tag", letter := some 't', value := some .text },
    { name := "output", letter := some 'o', value := some .path,
      fallback := some deployRootVariable },
    configSwitch,
    { name := "pool-size", value := some .count, fallback := some poolSizeVariable },
    formatSwitch]
  operand := some "snapshot"

/-- What can stand behind `generate`. -/
def generateGrammar : Grammar where
  switches := [
    { name := "policy", letter := some 'p', value := some .text },
    configSwitch,
    { name := "no-probe" },
    formatSwitch]
  operand := some "snapshot"

/-- What can stand behind `characteristics`. -/
def characteristicsGrammar : Grammar where
  switches := [formatSwitch]

/-- What can stand behind `status`. -/
def statusGrammar : Grammar where
  switches := [
    { name := "org", value := some .text },
    { name := "group", letter := some 'g', value := some .text },
    { name := "deploy-root", value := some .path, fallback := some deployRootVariable },
    formatSwitch,
    { name := "verbose", letter := some 'v' }]

/-- What can stand behind `version`. -/
def versionGrammar : Grammar where
  switches := []

/-! ## Requests -/

namespace Words

/-- The operand, which must be there. -/
def requiredOperand (w : Words) (name : String) : Except UsageError String :=
  match w.operand with
  | some word => .ok word
  | none => .error (.missing name)

/-- The selected format. -/
def format (w : Words) : OutputFormat :=
  ((w.value? "format").bind OutputFormat.ofName?).getD .text

/-- What is to be compiled. -/
def toCompile (w : Words) : Except UsageError Command := do
  return .compile {
    snapshot := ← w.requiredOperand "snapshot"
    org := ← w.required "org"
    tag := ← w.required "tag"
    output := w.value? "output"
    config := w.value? "config"
    poolSize := ((w.value? "pool-size").bind fun value => Text.word? value.toList).map .ofNat
    format := w.format }

/-- What is to be generated. -/
def toGenerate (w : Words) : Except UsageError Command := do
  return .generate {
    snapshot := ← w.requiredOperand "snapshot"
    policy := ← w.required "policy"
    config := w.value? "config"
    probes := !w.has "no-probe"
    format := w.format }

/-- What is to be shown. -/
def toStatus (w : Words) : Except UsageError Command := do
  return .status {
    org := ← w.required "org"
    group := ← w.required "group"
    deployRoot := w.value? "deploy-root"
    verbose := w.has "verbose"
    format := w.format }

end Words

namespace Command

/-- The command that the words behind its name make up. -/
def ofWords (g : Grammar) (toCommand : Words → Except UsageError Command)
    (environment : String → Option String) (args : List String) : Except UsageError Command :=
  match g.words environment args with
  | .ok w => toCommand w
  | .error .help => .ok .help
  | .error (.misuse e) => .error e

/-- The names of commands. -/
def names : List String :=
  ["compile", "generate", "characteristics", "status", "version", "help"]

/-- Help is given for the program, or for one command. -/
def helpOn : List String → Except UsageError Command
  | [] => .ok .help
  | [name] => if names.contains name then .ok .help else .error (.unknownCommand name)
  | name :: word :: _ => .error (.unknownCommand (if names.contains name then word else name))

/-- The command that a command line asks for. -/
def ofArguments (environment : String → Option String) :
    List String → Except UsageError Command
  | [] => .error .missingCommand
  | "--help" :: _ => .ok .help
  | "--version" :: _ => .ok .version
  | "help" :: path => helpOn path
  | "compile" :: args => ofWords compileGrammar Words.toCompile environment args
  | "generate" :: args => ofWords generateGrammar Words.toGenerate environment args
  | "characteristics" :: args =>
      ofWords characteristicsGrammar (fun w => .ok (.characteristics w.format)) environment args
  | "status" :: args => ofWords statusGrammar Words.toStatus environment args
  | "version" :: args => ofWords versionGrammar (fun _ => .ok .version) environment args
  | word :: _ =>
      if "-h".toList.isPrefixOf word.toList then .ok .help
      else if "-V".toList.isPrefixOf word.toList then .ok .version
      else if Grammar.isSwitch word then .error (.unknownSwitch word)
      else .error (.unknownCommand word)

end Command

end RouteCompiler.CommandLine
