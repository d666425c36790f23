import RouteCompiler.Ordered.Map
import RouteCompiler.Text.Slice

/-!
# References and roles

A route names an endpoint by a logical URI on one of three marker elements.
What follows a question mark in a logical URI is ignored.  The marker decides
the role in which the endpoint is used.
-/

namespace RouteCompiler

namespace Uri

/-- What every logical URI begins with. -/
def logicalScheme : String := "logical:"

/-- The attribute of a marker that holds its URI. -/
def attributeKey : String := "uri"

/-- What follows the logical scheme, if the URI begins with it. -/
def afterScheme? (uri : String) : Option (List Char) :=
  if logicalScheme.toList.isPrefixOf uri.toList then
    some (uri.toList.drop logicalScheme.length)
  else none

/-- Whether a URI is logical. -/
def isLogical (uri : String) : Bool :=
  (afterScheme? uri).isSome

/-- The name of the endpoint that a logical URI refers to. -/
def endpointName? (uri : String) : Option String :=
  (afterScheme? uri).map fun rest => String.ofList (rest.takeWhile (· != '?'))

/-- The component that serves a physical URI: what comes before its first
colon. -/
def component (uri : String) : String :=
  String.ofList (uri.toList.takeWhile (· != ':'))

/-- One option as written in a query. -/
def optionText (option : String × String) : List Char :=
  option.1.toList ++ '=' :: option.2.toList

/-- Put each option behind the separator that it needs. -/
def appendOptionTexts (uri : List Char) : List (String × String) → List Char
  | [] => uri
  | option :: options =>
      let separator := if uri.contains '?' then '&' else '?'
      appendOptionTexts (uri ++ separator :: optionText option) options

/-- Add options to the query of a URI, in the order of their keys. -/
def appendOptions (uri : String) (options : SortedMap String String) : String :=
  String.ofList (appendOptionTexts uri.toList options.entries)

end Uri

/-- How a route uses an endpoint. -/
inductive Role where
  | consumer
  | producer
  deriving DecidableEq, Repr

namespace Role

/-- The name of a role. -/
def name : Role → String
  | consumer => "consumer"
  | producer => "producer"

end Role

/-- The elements that refer to endpoints. -/
inductive Marker where
  | consumer
  | producer
  | oneWayProducer
  deriving DecidableEq, Repr

namespace Marker

/-- All markers, in the order in which they are resolved. -/
def all : List Marker :=
  [consumer, producer, oneWayProducer]

/-- The element name of a marker. -/
def tagName : Marker → String
  | consumer => "from"
  | producer => "to"
  | oneWayProducer => "inOnly"

/-- The marker of an element name. -/
def ofTagName? (name : String) : Option Marker :=
  all.find? fun m => m.tagName == name

/-- The role in which a marker uses its endpoint. -/
def role : Marker → Role
  | consumer => .consumer
  | producer => .producer
  | oneWayProducer => .producer

@[simp] theorem ofTagName_tagName (m : Marker) : ofTagName? m.tagName = some m := by
  cases m <;> decide

end Marker

end RouteCompiler
