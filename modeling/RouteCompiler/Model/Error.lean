import RouteCompiler.Model.Issue

/-!
# Errors of the model

What can be wrong with a snapshot, or with an operation on stored snapshots.
-/

namespace RouteCompiler

/-- What is wrong with a snapshot or with an operation on it. -/
inductive ModelError where
  /-- Two policies hold different contents for one resource name. -/
  | resourceConflict (resource first second : String)
  /-- A policy names a resource without content. -/
  | missingResource (policy resource : String)
  /-- A policy has no route definition. -/
  | missingDefinition (policy : String)
  /-- A group has two endpoints of one name. -/
  | duplicateEndpoint (group endpoint : String)
  /-- Only the working copy can be changed. -/
  | immutableTag (tag : String)
  /-- A text is no package coordinate. -/
  | invalidCoordinate (text : String)
  /-- A snapshot file cannot be read. -/
  | unreadableSnapshot (path reason : String)
  /-- A text is not the JSON that was expected. -/
  | malformedJson
  /-- A text is not the YAML that was expected. -/
  | malformedYaml
  /-- An operation was given an argument it does not accept. -/
  | invalidInput (reason : String)
  deriving DecidableEq, Repr

namespace ModelError

/-- The text of an error. -/
def message : ModelError → String
  | resourceConflict resource first second =>
      s!"resource '{resource}' differs between policies '{first}' and '{second}'"
  | missingResource policy resource =>
      s!"resource '{resource}' referenced by policy '{policy}' has no definition"
  | missingDefinition policy => s!"policy '{policy}' has no definition"
  | duplicateEndpoint group endpoint => s!"duplicate endpoint '{endpoint}' in group '{group}'"
  | immutableTag tag => s!"tag '{tag}' is immutable; only 'master' can be modified"
  | invalidCoordinate text =>
      s!"invalid dependency coordinate '{text}': expected 'groupId:artifactId:version'"
  | unreadableSnapshot path reason => s!"failed to load snapshot from {path}: {reason}"
  | malformedJson => "serialization error"
  | malformedYaml => "YAML error"
  | invalidInput reason => s!"invalid input: {reason}"

/-- Whether the error lies in what the user wrote, not in the machinery. -/
def isInputError : ModelError → Bool
  | unreadableSnapshot _ _ | malformedJson | malformedYaml => false
  | _ => true

/-- The error as an issue of a build. -/
def toIssue (e : ModelError) : Issue :=
  let issue : Issue := ⟨.error, e.message, none, none, none⟩
  match e with
  | resourceConflict resource _ second =>
      { issue with policy := some second, resource := some resource }
  | missingResource policy resource =>
      { issue with policy := some policy, resource := some resource }
  | missingDefinition policy => { issue with policy := some policy }
  | duplicateEndpoint _ endpoint => { issue with endpoint := some endpoint }
  | _ => issue

end ModelError

end RouteCompiler
