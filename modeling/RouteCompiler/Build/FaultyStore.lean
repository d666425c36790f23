import RouteCompiler.Build.Repository

/-!
# Stores with faults

Stores elsewhere can fail, or lose what was there a moment ago.  A faulty store
does so at chosen calls: the call does not reach the store behind it.  Only a
look-up can miss what is there; at any other call such a fault changes nothing.
-/

namespace RouteCompiler

/-- The operations that a build needs of a store. -/
inductive StoreMethod where
  | getTag
  | getSnapshot
  | updateTag
  deriving DecidableEq, Repr

/-- A call that goes wrong. -/
structure Fault where
  method : StoreMethod
  /-- The number of the call among those of the same operation; the first call is
  number 1. -/
  call : Nat
  /-- The error of the call, or none if it only misses what is there. -/
  error : Option BuildError
  deriving DecidableEq, Repr

/-- A store, the calls that go wrong, and the calls that were made. -/
structure FaultyStore (σ : Type) where
  store : σ
  faults : List Fault
  calls : List StoreMethod := []

namespace FaultyStore

variable {σ α : Type}

/-- The fault of a call. -/
def fault? (s : FaultyStore σ) (method : StoreMethod) (call : Nat) : Option Fault :=
  s.faults.find? fun f => f.method == method && f.call == call

/-- Make a call.  A look-up has an answer for what is absent. -/
def call (method : StoreMethod) (absent : Option α) (operation : σ → Except BuildError α × σ)
    (s : FaultyStore σ) : Except BuildError α × FaultyStore σ :=
  let calls := method :: s.calls
  let fault := s.fault? method (calls.count method)
  match fault.bind Fault.error, absent.filter fun _ => fault.isSome with
  | some e, _ => (.error e, { s with calls })
  | none, some answer => (.ok answer, { s with calls })
  | none, none =>
      let (answer, store) := operation s.store
      (answer, { s with store, calls })

instance [Store σ] : Store (FaultyStore σ) where
  getTag key := call .getTag (some none) (Store.getTag key)
  getSnapshot key := call .getSnapshot (some none) (Store.getSnapshot key)
  updateTag key tag := call .updateTag none (Store.updateTag key tag)

end FaultyStore

end RouteCompiler
