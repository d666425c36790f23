import RouteCompiler.Model.Error

/-!
# Errors of generation

What can keep a route definition from being generated.  Errors found while a
single element is resolved do not know their policy yet; it is filled in by the
caller.
-/

namespace RouteCompiler

/-- Why a policy cannot be generated. -/
inductive GenerationError where
  /-- The definition of a policy is no route document. -/
  | malformed (policy message : String)
  /-- A marker has no URI. -/
  | missingUri (policy element : String)
  /-- A marker refers to an endpoint that does not exist. -/
  | unknownEndpoint (policy endpoint : String)
  /-- An element that is no marker was to be resolved. -/
  | invalidMarker (policy element : String)
  /-- A template cannot be used. -/
  | invalidTemplate (name message : String)
  /-- A setting of a characteristic has a value that cannot be used. -/
  | invalidProperty (endpoint property value : String)
  /-- The configuration cannot be used. -/
  | invalidConfig (message : String)
  /-- A file cannot be read. -/
  | file (path reason : String)
  /-- The snapshot is at fault. -/
  | model (e : ModelError)
  deriving DecidableEq, Repr

namespace GenerationError

/-- The text of an error. -/
def message : GenerationError → String
  | malformed policy message => s!"failed to parse definition of '{policy}': {message}"
  | missingUri policy element =>
      s!"'{element}' element in policy '{policy}' has no uri attribute"
  | unknownEndpoint policy endpoint =>
      s!"unable to find endpoint '{endpoint}' referenced by policy '{policy}'"
  | invalidMarker policy element => s!"invalid marker element '{element}' in policy '{policy}'"
  | invalidTemplate name message => s!"invalid template '{name}': {message}"
  | invalidProperty endpoint property value =>
      s!"invalid value '{value}' for property '{property}' on endpoint '{endpoint}'"
  | invalidConfig message => s!"generator configuration error: {message}"
  | file path reason => s!"I/O error at {path}: {reason}"
  | model e => e.message

/-- Whether the error lies in what the user wrote, not in the machinery. -/
def isInputError : GenerationError → Bool
  | invalidTemplate _ _ | invalidConfig _ | file _ _ => false
  | model e => e.isInputError
  | _ => true

/-- Name the policy, where an error has a place for it that is empty. -/
def inPolicy (name : String) : GenerationError → GenerationError
  | malformed policy message => malformed (if policy.isEmpty then name else policy) message
  | missingUri policy element => missingUri (if policy.isEmpty then name else policy) element
  | unknownEndpoint policy endpoint =>
      unknownEndpoint (if policy.isEmpty then name else policy) endpoint
  | invalidMarker policy element =>
      invalidMarker (if policy.isEmpty then name else policy) element
  | e => e

/-- The error as an issue of a build. -/
def toIssue (e : GenerationError) : Issue :=
  let issue : Issue := ⟨.error, e.message, none, none, none⟩
  match e with
  | malformed policy _ | missingUri policy _ | invalidMarker policy _ =>
      { issue with policy := some policy }
  | unknownEndpoint policy endpoint =>
      { issue with policy := some policy, endpoint := some endpoint }
  | invalidProperty endpoint _ _ => { issue with endpoint := some endpoint }
  | model e => e.toIssue
  | _ => issue

end GenerationError

end RouteCompiler
