import RouteCompiler.Build.Manifest
import RouteCompiler.Files.Access

/-!
# Deployment

What a build generated is laid out below a root directory:

    <root>/<org>/<group>/<tag>/manifest.json
    <root>/<org>/<group>/<tag>/<policy>/definition.xml
    <root>/<org>/<group>/<tag>/<policy>/dependencies.json
    <root>/<org>/<group>/<tag>/<policy>/resources/<name>

All is written to a staging directory beside that of the tag, and moved into
place once it is complete.  Names that would lead elsewhere are refused before
anything is written.
-/

namespace RouteCompiler.Deployment

/-! ## Names of files -/

/-- The file that holds the manifest. -/
def manifestFile : String := "manifest.json"

/-- The file that holds the definition of a policy. -/
def definitionFile : String := "definition.xml"

/-- The file that lists the packages of a policy. -/
def dependenciesFile : String := "dependencies.json"

/-- The directory that holds the resources of a policy. -/
def resourcesDirectory : String := "resources"

/-- What the name of a staging directory ends in. -/
def stagingSuffix : String := ".staging"

/-- Where deployments of a user are put where nothing else is said. -/
def defaultRoot (home : String) : String :=
  Path.join (Path.join home ".hodos") "deployments"

/-- The directory of a group. -/
def groupDirectory (root org group : String) : String :=
  Path.join (Path.join root org) group

/-- The directory of a tag. -/
def tagDirectory (root : String) (key : TagKey) : String :=
  Path.join (groupDirectory root key.org key.group) key.tag

/-- The directory in which the deployment of a tag is made ready. -/
def stagingDirectory (root : String) (key : TagKey) : String :=
  Path.withFileName (tagDirectory root key) (key.tag ++ stagingSuffix)

/-- Whether a name is that of a staging directory. -/
def isStaging (name : String) : Bool :=
  stagingSuffix.toList.isSuffixOf name.toList

/-! ## Checks -/

/-- A deployment is refused. -/
def refuse {α : Type} (key : TagKey) (reason : String) : Except BuildError α :=
  .error (.deployment key reason)

/-- Check that a part of a key can name a directory. -/
def checkDirectoryName (key : TagKey) (name : String) : Except BuildError Unit :=
  if Path.isSingleName name then .ok ()
  else refuse key s!"'{name}' is not a valid directory name"

/-- Check that a policy can name a directory, and its resources files in it. -/
def checkPolicy (key : TagKey) (g : GeneratedPolicy) : Except BuildError Unit :=
  if !Path.isSingleName g.policy then
    refuse key s!"policy name '{g.policy}' is not a valid directory name"
  else
    match g.resources.keys.find? fun name => !Path.isRelative name with
    | some name => refuse key s!"resource name '{name}' is not a relative path"
    | none => .ok ()

/-- Check all names of a deployment. -/
def checkNames (key : TagKey) (policies : List GeneratedPolicy) : Except BuildError Unit := do
  checkDirectoryName key key.org
  checkDirectoryName key key.group
  checkDirectoryName key key.tag
  policies.forM (checkPolicy key)

/-! ## Steps -/

section Steps

variable {m : Type → Type} [Monad m] [Files m]

/-- Do something with a path; a fault is reported with that path. -/
def attempt {α : Type} (path : String) (action : m (Except FileFault α)) :
    ExceptT BuildError m α := do
  match ← action with
  | .ok a => return a
  | .error fault => throw (.file path fault.message)

/-- Make a directory with those above it. -/
def makeDirectory (path : String) : ExceptT BuildError m Unit :=
  attempt path (Files.makeDirectories path)

/-- Write a file. -/
def writeFile (path text : String) : ExceptT BuildError m Unit :=
  attempt path (Files.writeText path text)

/-- Remove a directory with everything in it, if it is there. -/
def removeDirectory (path : String) : ExceptT BuildError m Unit := do
  match ← (Files.removeTree path : m (Except FileFault Unit)) with
  | .ok _ | .error .notFound => return
  | .error fault => throw (.file path fault.message)

/-- Write a resource of a policy, with the directories that its name asks
for. -/
def writeResource (directory : String) (entry : String × String) :
    ExceptT BuildError m Unit := do
  let path := Path.join (Path.join directory resourcesDirectory) entry.1
  match Path.parent? path with
  | some above => makeDirectory above
  | none => pure ()
  writeFile path entry.2

/-- Write what was generated for a policy into a directory. -/
def writePolicy (directory : String) (g : GeneratedPolicy) : ExceptT BuildError m Unit := do
  makeDirectory directory
  writeFile (Path.join directory definitionFile) g.definition
  writeFile (Path.join directory dependenciesFile) (Json.pretty (encode g.dependencies))
  g.resources.entries.forM (writeResource directory)

/-- Put a directory in the place of another. -/
def moveInto (path newPath : String) : ExceptT BuildError m Unit :=
  attempt newPath (Files.rename path newPath)

/-- Deploy what a build generated. -/
def deploy (root : String) (key : TagKey) (id : BuildId) (now : Instant)
    (policies : List GeneratedPolicy) : ExceptT BuildError m Manifest := do
  ExceptT.mk (pure (checkNames key policies))
  let target := tagDirectory root key
  let staging := stagingDirectory root key
  removeDirectory staging
  makeDirectory staging
  policies.forM fun g => writePolicy (Path.join staging g.policy) g
  let manifest := Manifest.ofGenerated key id now policies
  writeFile (Path.join staging manifestFile) manifest.toText
  removeDirectory target
  moveInto staging target
  return manifest

/-! ## Looking -/

/-- The tags of a group that are deployed, by name. -/
def deployedTags (root org group : String) : ExceptT BuildError m (List String) := do
  let directory := groupDirectory root org group
  match ← (Files.listNames directory : m (Except FileFault (List String))) with
  | .error .notFound => return []
  | .error fault => throw (.file directory fault.message)
  | .ok names =>
      let deployed ← (names.filter fun name => !isStaging name).filterM fun name =>
        (Files.pathExists (Path.join (Path.join directory name) manifestFile) : m Bool)
      return (SortedSet.ofList deployed).elements

/-- The manifest of a deployed tag. -/
def readManifest (root : String) (key : TagKey) : ExceptT BuildError m (Option Manifest) := do
  let path := Path.join (tagDirectory root key) manifestFile
  match ← (Files.readText path : m (Except FileFault String)) with
  | .ok text => (ExceptT.mk (pure (Manifest.ofText text)) : ExceptT BuildError m Manifest)
  | .error .notFound => return none
  | .error fault => throw (.file path fault.message)

end Steps

end RouteCompiler.Deployment
