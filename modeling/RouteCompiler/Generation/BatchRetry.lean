import RouteCompiler.Generation.BatchRetryTemplate
import RouteCompiler.Generation.Processor

/-!
# Batching with retry

Sending to a batching endpoint collects messages in batches.  Consuming from one
splits each batch, runs the actions of the route for each message, and sends
messages that failed back to the endpoint.

A one-way producer is put inside an aggregation.  A consumer is expanded only
where it is the first action of a route at the top level; what follows it in the
route moves into the slots of a template.
-/

namespace RouteCompiler.BatchRetry

open RouteCompiler.Route

/-! ## The kind of characteristic -/

/-- The name of the characteristic. -/
def kindName : String := "BatchWithRetryOnFailure"

/-- The characteristic with its settings. -/
def kind : CharacteristicKind where
  name := kindName
  description := "Batches produced messages and retries failed ones on consumption"
  properties := [
    ⟨"batchInterval", true, some "1000"⟩,
    ⟨"batchSize", true, some "100"⟩,
    ⟨"maxRetry", true, some "3"⟩]

/-- The packages that batching needs when the route runs. -/
def dependencies : Packages :=
  .ofList [⟨"io.hodos", "hodos-runtime", "0.1.0"⟩]

/-- Declare the bean that collects messages. -/
def ensureAggregator (d : Document) : Document :=
  (ensureBean d "aggregatorStrategy" "io.hodos.runtime.ListAggregator").1

/-- Declare the bean that keeps track of attempts. -/
def ensureRetrySupport (d : Document) : Document :=
  (ensureBean d "retrySupport" "io.hodos.runtime.RetrySupport").1

/-- A constant expression. -/
def constant (value : String) : Tree :=
  .element "constant" [] [.text value]

/-! ## Producers -/

/-- An aggregation without the element that it is for. -/
def aggregation (size interval : Nat) : Tree :=
  .element "aggregate" [
    ⟨"strategyRef", "aggregatorStrategy"⟩,
    ⟨"completionSize", toString size⟩,
    ⟨"completionInterval", toString interval⟩] [
    .element "correlationExpression" [] [constant "true"],
    .element "setHeader" [⟨"headerName", "retryCount"⟩] [constant "0"]]

/-- Put an element inside an aggregation. -/
def wrap (d : Document) (element : NodeId) (size interval : Nat) : Document :=
  let (d, aggregate) := d.graft (aggregation size interval)
  ensureAggregator ((d.replace element aggregate).appendChild aggregate element)

/-- Batch what is sent by an element. -/
def processProducer (r : Reference) (d : Document) (element : NodeId) :
    Except GenerationError Document := do
  let size ← kind.positiveValue r.endpoint r.characteristic "batchSize"
  let interval ← kind.positiveValue r.endpoint r.characteristic "batchInterval"
  return wrap d element size interval

/-! ## Consumers -/

/-- The route that an element is the first action of, if that route stands at
the top level. -/
def leadingRoute? (d : Document) (element : NodeId) : Option NodeId :=
  (d.parent? element).filter fun route =>
    d.isNamed "route" route &&
      (d.parent? route).any (d.isNamed "camelContext") &&
      (d.elementChildren route).head? == some element

/-- Whether a node sends to a batching endpoint. -/
def sendsToBatch (s : Snapshot) (d : Document) (node : NodeId) : Bool :=
  d.isNamed Marker.oneWayProducer.tagName node &&
    (((d.attribute? node Uri.attributeKey).bind Uri.endpointName?).bind s.endpoint?).any
      fun e => e.hasCharacteristic kindName

/-- The siblings behind an element. -/
def siblingsBehind (d : Document) (route element : NodeId) : List NodeId :=
  ((d.children route).dropWhile (· != element)).drop 1

/-- What follows an element in its route: the actions it contains, and the
longest end that only sends to batching endpoints. -/
def partitionActions (s : Snapshot) (d : Document) (route element : NodeId) :
    List NodeId × List NodeId :=
  let reversed := (siblingsBehind d route element).reverse
  ((reversed.dropWhile (sendsToBatch s d)).reverse,
    (reversed.takeWhile (sendsToBatch s d)).reverse)

/-- Append copies of trees to a node; the addresses are those of the copies. -/
def appendCopies (d : Document) (parent : NodeId) : List Tree → Document × List NodeId
  | [] => (d, [])
  | tree :: trees =>
      let (d, copy) := d.graft tree
      let (d, copies) := appendCopies (d.appendChild parent copy) parent trees
      (d, copy :: copies)

/-- The first element of a name among some nodes and below them. -/
def findAmong? (d : Document) (nodes : List NodeId) (name : String) : Option NodeId :=
  nodes.findSome? fun n => if d.isNamed name n then some n else d.findDescendant? n name

/-- Put nodes in the place of a slot, if it is there. -/
def fillSlot (d : Document) (copies : List NodeId) (slot : String) (nodes : List NodeId) :
    Document :=
  match findAmong? d copies slot with
  | some target => d.replaceWithMany target nodes
  | none => d

/-- Put a tree in the place of a slot, if it is there. -/
def fillWithTree (d : Document) (copies : List NodeId) (slot : String) (tree : Tree) :
    Document :=
  match findAmong? d copies slot with
  | some target =>
      let (d, copy) := d.graft tree
      d.replace target copy
  | none => d

/-- The element that sends messages back to where a consumer takes them. -/
def sender (uri : String) : Tree :=
  .element Marker.oneWayProducer.tagName [⟨Uri.attributeKey, uri⟩] []

/-- Move what follows a consumer into the slots of a template. -/
def spread (s : Snapshot) (d : Document) (route element : NodeId) (maxRetry : Nat) :
    Document :=
  let (contained, next) := partitionActions s d route element
  let template := if next.isEmpty then consumerOnly else consumerProducer
  let (d, copies) := appendCopies d route template
  let d := fillSlot d copies actionsSlot contained
  let d := fillSlot d copies nextSlot next
  let d := fillWithTree d copies maxRetrySlot (constant (toString maxRetry))
  let d := fillWithTree d copies retrySlot
    (sender ((d.attribute? element Uri.attributeKey).getD ""))
  ensureRetrySupport (ensureAggregator d)

/-- Take batches apart behind a consumer. -/
def processConsumer (r : Reference) (d : Document) (element : NodeId) :
    Except GenerationError Document :=
  match leadingRoute? d element with
  | none => .ok d
  | some route => do
      let maxRetry ← kind.positiveValue r.endpoint r.characteristic "maxRetry"
      return spread r.snapshot d route element maxRetry

/-! ## The processor -/

/-- Change a document around an element; only one-way producers and consumers
are batched. -/
def process (r : Reference) (d : Document) (element : NodeId) :
    Except GenerationError Document :=
  match (d.name? element).bind Marker.ofTagName? with
  | some .oneWayProducer => processProducer r d element
  | some .consumer => processConsumer r d element
  | _ => .ok d

/-- The processor of the characteristic. -/
def processor : Processor where
  kind := kind
  dependencies := dependencies
  process := process

end RouteCompiler.BatchRetry

namespace RouteCompiler.Registry

/-- The processors that are always known. -/
def standard : Registry :=
  empty.register BatchRetry.processor

end RouteCompiler.Registry
