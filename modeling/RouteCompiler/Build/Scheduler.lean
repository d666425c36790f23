import RouteCompiler.Build.Config

/-!
# The queue of builds

Workers take builds in the order in which they were scheduled.  A place in the
queue is reserved before a build is accepted; a reserved place that is not used
is given back.  Once shut down, the queue lets nobody reserve a place, and what
is queued is still worked off.  Should all workers be lost, nothing that waits
will ever run, and the queue is closed.
-/

namespace RouteCompiler

/-- A queue with its workers. -/
structure Scheduler (α : Type) where
  config : SchedulerConfig
  /-- The number of reserved places. -/
  reserved : Nat
  /-- What waits, in the order in which it was scheduled. -/
  queue : List α
  /-- The number of workers that are left. -/
  workers : Nat
  isShutDown : Bool

namespace Scheduler

variable {α : Type}

/-- An empty queue with its workers, at least one of them. -/
def start (config : SchedulerConfig) : Scheduler α :=
  ⟨config, 0, [], max 1 config.poolSize.toNat, false⟩

/-- How many builds can wait; there is always a place for one. -/
def capacity (s : Scheduler α) : Nat :=
  max 1 s.config.maxQueueSize.toNat

/-- How many places are taken. -/
def occupied (s : Scheduler α) : Nat :=
  s.reserved + s.queue.length

/-- The number of builds that wait or have a place reserved. -/
def queueLength (s : Scheduler α) : Nat :=
  if s.isShutDown then 0 else s.occupied

/-! ## Places -/

/-- Reserve a place. -/
def reserve (s : Scheduler α) : Except BuildError (Scheduler α) :=
  if s.isShutDown || s.workers == 0 then .error .shuttingDown
  else if s.capacity ≤ s.occupied then .error (.queueFull s.config.maxQueueSize)
  else .ok { s with reserved := s.reserved + 1 }

/-- Give a reserved place back. -/
def release (s : Scheduler α) : Scheduler α :=
  { s with reserved := s.reserved - 1 }

/-- Use a reserved place. -/
def schedule (s : Scheduler α) (a : α) : Scheduler α :=
  { s with reserved := s.reserved - 1, queue := s.queue ++ [a] }

/-! ## Work -/

/-- What a worker takes next. -/
def take? (s : Scheduler α) : Option (α × Scheduler α) :=
  if s.workers = 0 then none
  else
    match s.queue with
    | [] => none
    | a :: rest => some (a, { s with queue := rest })

/-- Lose a worker. -/
def loseWorker (s : Scheduler α) : Scheduler α :=
  let workers := s.workers - 1
  { s with workers, queue := if workers = 0 then [] else s.queue }

/-- Whether a worker that finds nothing in the queue can stop for good. -/
def isExhausted (s : Scheduler α) : Bool :=
  s.isShutDown && s.reserved == 0 && s.queue.isEmpty

/-- Accept nothing any more. -/
def shutDown (s : Scheduler α) : Scheduler α :=
  { s with isShutDown := true }

/-- Work off the queue, at most `steps` builds.  The handler says whether the
worker is left. -/
def workOff {σ : Type} (handler : σ → α → σ × Bool) :
    Nat → Scheduler α → σ → Scheduler α × σ
  | 0, s, state => (s, state)
  | steps + 1, s, state =>
      match s.take? with
      | none => (s, state)
      | some (a, s) =>
          let (state, isLeft) := handler state a
          workOff handler steps (if isLeft then s else s.loseWorker) state

/-- Work off all that waits. -/
def drain {σ : Type} (handler : σ → α → σ × Bool) (s : Scheduler α) (state : σ) :
    Scheduler α × σ :=
  workOff handler s.queue.length s state

/-- A summary of a queue. -/
def summary (s : Scheduler α) : String :=
  "BuildScheduler \x7b config: " ++ s.config.summary ++
    s!", shut_down: {s.isShutDown}, .. \x7d"

end Scheduler

end RouteCompiler
