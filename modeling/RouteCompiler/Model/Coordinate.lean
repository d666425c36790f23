import RouteCompiler.Model.Validation
import RouteCompiler.Ordered.Set

/-!
# Package coordinates

A package is named by group, artifact and version.  Its text form puts colons
between the three parts; coordinates are ordered by the parts in turn.

Main results:

- Instances that make the order of coordinates a lawful total order, as ordered
  sets need it.
-/

namespace RouteCompiler

/-- The coordinate of a package. -/
structure Coordinate where
  groupId : String
  artifactId : String
  version : String
  deriving DecidableEq, Repr

namespace Coordinate

/-- The order of the parts: the group decides, then the artifact, then the
version. -/
def compareParts (c d : Coordinate) : Ordering :=
  (compare c.groupId d.groupId).then
    ((compare c.artifactId d.artifactId).then (compare c.version d.version))

instance : Ord Coordinate := ⟨compareParts⟩

instance : Std.TransOrd Coordinate :=
  inferInstanceAs (Std.TransCmp (compareLex (compareOn groupId)
    (compareLex (compareOn artifactId) (compareOn version))))

instance : Std.LawfulEqOrd Coordinate where
  eq_of_compare {c d} h := by
    simp only [compare, compareParts, Ordering.then_eq_eq] at h
    cases c
    cases d
    simp only [mk.injEq]
    exact ⟨Std.LawfulEqOrd.eq_of_compare h.1, Std.LawfulEqOrd.eq_of_compare h.2.1,
      Std.LawfulEqOrd.eq_of_compare h.2.2⟩

/-- The text of a coordinate. -/
def toText (c : Coordinate) : String :=
  s!"{c.groupId}:{c.artifactId}:{c.version}"

/-- Read a coordinate: three parts, none of them empty. -/
def parse? (text : String) : Option Coordinate :=
  match Text.splitOn ':' text.toList with
  | [group, artifact, version] =>
      if group.isEmpty || artifact.isEmpty || version.isEmpty then none
      else some ⟨String.ofList group, String.ofList artifact, String.ofList version⟩
  | _ => none

/-- The failures of one part: it is blank, or it holds the separator. -/
def validatePart (field value : String) : List Failure :=
  if Text.isBlankText value then [.required field]
  else if value.toList.contains ':' then [.format field "must not contain ':'"]
  else []

/-- The failures of a coordinate. -/
def validate (c : Coordinate) : List Failure :=
  validatePart "groupId" c.groupId ++ validatePart "artifactId" c.artifactId ++
    validatePart "version" c.version

end Coordinate

/-- The packages that something needs. -/
abbrev Packages := SortedSet Coordinate

end RouteCompiler
