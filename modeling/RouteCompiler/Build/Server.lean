import RouteCompiler.Build.Repository
import RouteCompiler.Build.Scheduler
import RouteCompiler.Build.Tracker
import RouteCompiler.Generation.Generator

/-!
# The build server

Calls that submit tags and workers that run builds go on side by side.  Each of
them makes one move at a time, and a move makes at most one call to the store,
the tracker or the queue.  Which of them moves next is decided outside, so every
run of the server is a list of moves.

What a move needs from outside comes with it: a fresh identifier, a reading of
the clock, and what became of a deployment.

A call that submits a tag looks the tag up, registers a build, reserves a place
in the queue, marks the tag and puts the build into the queue.  If a later step
fails, the build is withdrawn.  A worker fetches the tag and its snapshot, marks
the tag, generates and deploys, and records the outcome on the tag and with the
tracker.  Nothing that goes wrong in a worker reaches the caller.
-/

namespace RouteCompiler

/-- A build that waits in the queue. -/
structure BuildRequest where
  id : BuildId
  key : TagKey
  deriving DecidableEq, Repr

/-! ## Submissions -/

/-- What a call that submits a tag does next. -/
inductive SubmissionStage where
  /-- Look the tag up. -/
  | lookUp
  /-- Register a build. -/
  | register
  /-- Reserve a place in the queue. -/
  | reserve (id : BuildId)
  /-- Look the tag up again, which another build may have changed. -/
  | refresh (id : BuildId)
  /-- Mark the tag as scheduled. -/
  | mark (id : BuildId) (tag : Tag)
  /-- Put the build into the queue. -/
  | enqueue (id : BuildId)
  /-- Forget the build, and give a reserved place back. -/
  | withdraw (id : BuildId) (holdsPlace : Bool) (e : BuildError)
  /-- Nothing: the call has its answer. -/
  | answered (answer : Except BuildError BuildId)

/-- A call that submits a tag. -/
structure Submission where
  key : TagKey
  stage : SubmissionStage

/-! ## Jobs -/

/-- What became of a deployment. -/
inductive DeployOutcome where
  /-- It is done. -/
  | done
  /-- It was refused or failed. -/
  | failed (e : BuildError)
  /-- It broke off, with a text if it left one. -/
  | crashed (text : Option String)
  deriving DecidableEq, Repr

/-- What came of a build: the issues of a success, or an error. -/
abbrev BuildOutcome := Except BuildError (List Issue)

/-- What a worker does next for its build. -/
inductive JobStage where
  /-- Fetch the tag. -/
  | fetchTag
  /-- Fetch the snapshot. -/
  | fetchSnapshot (tag : Tag)
  /-- Mark the tag as building. -/
  | mark (tag : Tag) (snapshot : Snapshot)
  /-- Tell the tracker that the build runs. -/
  | start (tag : Tag) (snapshot : Snapshot)
  /-- Generate. -/
  | generate (tag : Tag) (snapshot : Snapshot)
  /-- Deploy what was generated. -/
  | deploy (tag : Tag) (policies : List GeneratedPolicy)
  /-- Record the outcome on the tag. -/
  | record (tag : Tag) (outcome : BuildOutcome)
  /-- Tell the tracker that the build has ended, and what went wrong. -/
  | report (failure : Option String)

/-- A build that a worker runs. -/
structure Job where
  request : BuildRequest
  stage : JobStage

/-- A worker. -/
inductive Worker where
  | idle
  | busy (job : Job)
  /-- The worker has left: nothing will be queued any more. -/
  | stopped

/-- Whether a worker has left. -/
def Worker.isStopped : Worker → Bool
  | stopped => true
  | _ => false

/-! ## The server -/

/-- A build server with its store, the calls made to it and its workers. -/
structure Server (σ : Type) where
  store : σ
  tracker : Tracker
  scheduler : Scheduler BuildRequest
  submissions : List Submission
  workers : List Worker

/-- What happens next. -/
inductive Move where
  /-- Somebody submits a tag. -/
  | submit (key : TagKey)
  /-- A call that submits a tag goes on. -/
  | advance (call : Nat) (fresh : BuildId) (now : Instant)
  /-- A worker goes on. -/
  | work (worker : Nat) (deployment : DeployOutcome) (now : Instant)
  /-- No more builds are accepted. -/
  | shutDown

/-- How snapshots are generated. -/
abbrev Compiler := Snapshot → Except GenerationError (List GeneratedPolicy)

namespace Server

variable {σ : Type} [Store σ]

omit [Store σ] in
/-- Start a server. -/
def start (config : ServerConfig) (store : σ) : Except BuildError (Server σ) := do
  config.validate
  let scheduler := Scheduler.start config.scheduler
  return {
    store
    tracker := .empty config.historyLimit.toNat
    scheduler
    submissions := []
    workers := List.replicate scheduler.workers .idle }

/-! ## Moves of submissions -/

/-- A tag that was looked up must be there. -/
def requireTag (key : TagKey) : Except BuildError (Option Tag) → Except BuildError Tag
  | .ok (some tag) => .ok tag
  | .ok none => .error (.tagNotFound key)
  | .error e => .error e

/-- The record of a tag whose build is queued. -/
def scheduledTag (tag : Tag) : Tag :=
  { tag with status := .scheduled, issues := [] }

/-- One move of a submission: its next stage, and the server after it. -/
def advanceStage (s : Server σ) (key : TagKey) (fresh : BuildId) (now : Instant) :
    SubmissionStage → SubmissionStage × Server σ
  | .lookUp =>
      let (answer, store) := Store.getTag key s.store
      let s := { s with store }
      match requireTag key answer with
      | .ok _ => (.register, s)
      | .error e => (.answered (.error e), s)
  | .register =>
      let (registration, tracker) := s.tracker.register key fresh now
      let s := { s with tracker }
      match registration with
      | .fresh id => (.reserve id, s)
      | .existing id => (.answered (.ok id), s)
  | .reserve id =>
      match s.scheduler.reserve with
      | .ok scheduler => (.refresh id, { s with scheduler })
      | .error e => (.withdraw id false e, s)
  | .refresh id =>
      let (answer, store) := Store.getTag key s.store
      let s := { s with store }
      match requireTag key answer with
      | .ok tag => (.mark id tag, s)
      | .error e => (.withdraw id true e, s)
  | .mark id tag =>
      let (answer, store) := Store.updateTag key (scheduledTag tag) s.store
      let s := { s with store }
      match answer with
      | .ok () => (.enqueue id, s)
      | .error e => (.withdraw id true e, s)
  | .enqueue id =>
      (.answered (.ok id), { s with scheduler := s.scheduler.schedule ⟨id, key⟩ })
  | .withdraw id holdsPlace e =>
      (.answered (.error e), { s with
        tracker := s.tracker.discard id
        scheduler := if holdsPlace then s.scheduler.release else s.scheduler })
  | .answered answer => (.answered answer, s)

/-- One move of a call. -/
def advance (s : Server σ) (call : Nat) (fresh : BuildId) (now : Instant) : Server σ :=
  match s.submissions[call]? with
  | none => s
  | some submission =>
      let (stage, s) := s.advanceStage submission.key fresh now submission.stage
      { s with submissions := s.submissions.set call { submission with stage } }

/-! ## Moves of workers -/

/-- The record of a tag whose build runs. -/
def buildingTag (tag : Tag) : Tag :=
  { tag with status := .building }

/-- The record of a tag whose build has ended. -/
def finishedTag (tag : Tag) (outcome : BuildOutcome) (now : Instant) : Tag :=
  match outcome with
  | .ok issues => { tag with status := .successful, issues, builtAt := some now }
  | .error e => { tag with status := .failed, issues := [e.toIssue], builtAt := some now }

/-- The text of what went wrong. -/
def failureOf : BuildOutcome → Option String
  | .ok _ => none
  | .error e => some e.message

/-- The issues of policies, each once. -/
def issuesOf (policies : List GeneratedPolicy) : List Issue :=
  (policies.flatMap GeneratedPolicy.issues).foldl Generator.addIssue []

/-- The outcome of a build, once it was deployed. -/
def outcomeOf (policies : List GeneratedPolicy) : DeployOutcome → BuildOutcome
  | .done => .ok (issuesOf policies)
  | .failed e => .error e
  | .crashed text => .error (.internal ("build panicked: " ++ text.getD "unknown panic"))

/-- The tracker after an operation, which changes nothing if it fails. -/
def trackerAfter (s : Server σ) (result : Except BuildError Tracker) : Server σ :=
  match result with
  | .ok tracker => { s with tracker }
  | .error _ => s

/-- One move of a job: its next stage, if it has one, and the server after
it. -/
def workStage (compile : Compiler) (s : Server σ) (request : BuildRequest)
    (deployment : DeployOutcome) (now : Instant) : JobStage → Option JobStage × Server σ
  | .fetchTag =>
      let (answer, store) := Store.getTag request.key s.store
      let s := { s with store }
      match requireTag request.key answer with
      | .ok tag => (some (.fetchSnapshot tag), s)
      | .error e => (some (.report (some e.message)), s)
  | .fetchSnapshot tag =>
      let (answer, store) := Store.getSnapshot request.key s.store
      let s := { s with store }
      match answer with
      | .ok (some snapshot) => (some (.mark tag snapshot), s)
      | .ok none => (some (.record tag (.error (.snapshotNotFound request.key))), s)
      | .error e => (some (.record tag (.error e)), s)
  | .mark tag snapshot =>
      let tag := buildingTag tag
      let (answer, store) := Store.updateTag request.key tag s.store
      let s := { s with store }
      match answer with
      | .ok () => (some (.start tag snapshot), s)
      | .error e => (some (.record tag (.error e)), s)
  | .start tag snapshot =>
      (some (.generate tag snapshot), s.trackerAfter (s.tracker.start request.id now))
  | .generate tag snapshot =>
      match compile snapshot with
      | .ok policies => (some (.deploy tag policies), s)
      | .error e => (some (.record tag (.error (.generation e))), s)
  | .deploy tag policies => (some (.record tag (outcomeOf policies deployment)), s)
  | .record tag outcome =>
      let (answer, store) :=
        Store.updateTag request.key (finishedTag tag outcome now) s.store
      let s := { s with store }
      match answer with
      | .ok () => (some (.report (failureOf outcome)), s)
      | .error e => (some (.report (some ((failureOf outcome).getD e.message))), s)
  | .report failure => (none, s.trackerAfter (s.tracker.finish request.id failure now))

/-- Set what a worker does. -/
def setWorker (s : Server σ) (i : Nat) (w : Worker) : Server σ :=
  { s with workers := s.workers.set i w }

/-- One move of a worker. -/
def work (compile : Compiler) (s : Server σ) (i : Nat) (deployment : DeployOutcome)
    (now : Instant) : Server σ :=
  match s.workers[i]? with
  | none | some .stopped => s
  | some .idle =>
      match s.scheduler.take? with
      | some (request, scheduler) =>
          { s with scheduler }.setWorker i (.busy ⟨request, .fetchTag⟩)
      | none => if s.scheduler.isExhausted then s.setWorker i .stopped else s
  | some (.busy job) =>
      match s.workStage compile job.request deployment now job.stage with
      | (some stage, s) => s.setWorker i (.busy { job with stage })
      | (none, s) => s.setWorker i .idle

/-! ## Runs -/

/-- The server after a move.  A move that nobody can make changes nothing. -/
def step (compile : Compiler) (s : Server σ) : Move → Server σ
  | .submit key => { s with submissions := s.submissions ++ [⟨key, .lookUp⟩] }
  | .advance call fresh now => s.advance call fresh now
  | .work worker deployment now => s.work compile worker deployment now
  | .shutDown => { s with scheduler := s.scheduler.shutDown }

/-- The server after some moves. -/
def run (compile : Compiler) (s : Server σ) (moves : List Move) : Server σ :=
  moves.foldl (step compile) s

/-- Whether the server has shut down: it accepts nothing, and all workers have
left. -/
def hasShutDown (s : Server σ) : Bool :=
  s.scheduler.isShutDown && s.workers.all Worker.isStopped

/-- A summary of a server. -/
def summary (s : Server σ) : String :=
  "BuildServer \x7b scheduler: " ++ s.scheduler.summary ++ ", .. \x7d"

end Server

end RouteCompiler
