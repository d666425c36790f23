import RouteCompiler.Generation.Error
import RouteCompiler.Model.Snapshot

/-!
# Resolution of references

A logical URI on a marker is resolved to the endpoint it names and to the
physical URI of that endpoint, with the options of the marker's role added to
its query.
-/

namespace RouteCompiler

/-- An endpoint with the URI under which a marker uses it. -/
structure Resolution where
  endpoint : Endpoint
  uri : String
  deriving DecidableEq

namespace Snapshot

/-- Resolve the URI of a marker.  A physical URI needs no resolution. -/
def resolveFor (s : Snapshot) (marker : Marker) (uri : String) :
    Except GenerationError (Option Resolution) :=
  match Uri.endpointName? uri with
  | none => .ok none
  | some name =>
      match s.endpoint? name with
      | none => .error (.unknownEndpoint "" name)
      | some endpoint =>
          .ok (some ⟨endpoint, Uri.appendOptions endpoint.uri (endpoint.options marker.role)⟩)

/-- Resolve the URI of an element, which must be a marker. -/
def resolve (s : Snapshot) (element uri : String) :
    Except GenerationError (Option Resolution) :=
  match Marker.ofTagName? element with
  | none => .error (.invalidMarker "" element)
  | some marker => s.resolveFor marker uri

/-- The components that serve the URIs to which references can be resolved. -/
def components (s : Snapshot) : List String :=
  s.group.endpoints.flatMap fun e =>
    Marker.all.map fun marker => Uri.component (Uri.appendOptions e.uri (e.options marker.role))

end Snapshot

end RouteCompiler
