import RouteCompiler.Text.Slice

/-!
# Issues

An issue is a remark on a build: advice, or the reason why it failed, with the
policy, the endpoint and the resource that it concerns where they are known.
-/

namespace RouteCompiler

/-- How grave an issue is. -/
inductive Severity where
  | warning
  | error
  deriving DecidableEq, Repr

namespace Severity

/-- The name of a severity. -/
def name : Severity → String
  | warning => "warning"
  | error => "error"

end Severity

/-- A remark on a build. -/
structure Issue where
  severity : Severity
  message : String
  policy : Option String := none
  endpoint : Option String := none
  resource : Option String := none
  deriving DecidableEq, Repr

namespace Issue

/-- A part of the text of an issue that is left out where nothing is known. -/
def part (label : String) : Option String → String
  | none => ""
  | some value => s!" {label}={value}"

/-- The text of an issue. -/
def toText (i : Issue) : String :=
  s!"[{i.severity.name}]" ++ part "policy" i.policy ++ part "endpoint" i.endpoint ++
    part "resource" i.resource ++ s!": {i.message}"

end Issue

end RouteCompiler
