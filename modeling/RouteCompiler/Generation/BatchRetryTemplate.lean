import RouteCompiler.Route.Tree

/-!
# Templates of batching consumers

What follows a consumer that takes batches.  Each batch is split, the actions of
the route run for each message, and messages that failed go back to the endpoint
until they have failed too often.  Elements with names in capitals are slots.

Where the route goes on with further batching endpoints, the second template
sends them what is left of the batch.
-/

namespace RouteCompiler.BatchRetry

open RouteCompiler.Route

/-! ## Slots -/

/-- The slot for the actions of the route. -/
def actionsSlot : String := "ACTIONS"

/-- The slot for the batching endpoints that come next. -/
def nextSlot : String := "NEXT"

/-- The slot for the element that sends messages back. -/
def retrySlot : String := "RETRY"

/-- The slot for the number of attempts. -/
def maxRetrySlot : String := "MAX_RETRY"

/-! ## Parts -/

/-- An element that is a slot. -/
def slot (name : String) : Tree :=
  .element name [] []

/-- A call of a method of the bean that keeps track of attempts. -/
def call (method : String) : Tree :=
  .element "bean" [⟨"ref", "retrySupport"⟩, ⟨"method", method⟩] []

/-- An expression. -/
def simple (expression : String) : Tree :=
  .element "simple" [] [.text expression]

/-- A header, given its value. -/
def setHeader (name : String) (value : Tree) : Tree :=
  .element "setHeader" [⟨"headerName", name⟩] [value]

/-- A header without a value. -/
def clearHeader (name : String) : Tree :=
  setHeader name (.element "simple" [] [])

/-- The actions that pass a condition on. -/
def filter (condition : String) (actions : List Tree) : Tree :=
  .element "filter" [] (simple condition :: actions)

/-- Run the actions for each message of a batch, and note those that fail. -/
def splitBatch : Tree :=
  .element "split" [⟨"parallelProcessing", "true"⟩, ⟨"strategyRef", "aggregatorStrategy"⟩] [
    simple "${body}",
    .element "doTry" [] [
      call "saveContent",
      slot actionsSlot,
      .element "doCatch" [] [
        .element "exception" [] [.text "java.lang.Throwable"],
        filter "${header.retryCount} < ${header.maxRetry}" [call "addToRetryList"],
        .element "setBody" [] [simple "${null}"]]]]

/-- Send the messages that failed back. -/
def sendBack : Tree :=
  filter "${header.retryList.size} > 0" [
    .element "setBody" [] [simple "${header.retryList}"],
    clearHeader "retryList",
    slot retrySlot]

/-- Send what is left of the batch on. -/
def sendOn : Tree :=
  filter "${body.size} > 0" [
    clearHeader "retryList",
    setHeader "retryCount" (simple "0"),
    slot nextSlot]

/-- What both templates begin with. -/
def opening : List Tree := [
  call "init",
  setHeader "maxRetry" (slot maxRetrySlot),
  splitBatch]

/-! ## Templates -/

/-- What follows a consumer whose route ends with its own actions. -/
def consumerOnly : List Tree :=
  opening ++ [sendBack]

/-- What follows a consumer whose route goes on with batching endpoints. -/
def consumerProducer : List Tree :=
  opening ++ [
    .element "multicast" [] [
      .element "pipeline" [] [sendBack],
      .element "pipeline" [] [sendOn]]]

end RouteCompiler.BatchRetry
