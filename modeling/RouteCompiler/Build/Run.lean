import RouteCompiler.Build.Server

/-!
# Running a build server

This module chooses the moves of a server, one after the other.  A submission
makes all its moves before anything else happens.  Workers move only while
somebody waits: in turn, each until it has nothing to do or is about to
generate, which takes long.
-/

namespace RouteCompiler

/-- What a server needs from outside. -/
structure Surroundings (m : Type → Type) where
  /-- A reading of the clock. -/
  now : m Instant
  /-- An identifier that was never drawn before, and is greater than those that
  were. -/
  freshId : m BuildId
  /-- Generate a snapshot. -/
  generate : Snapshot → m (Except GenerationError (List GeneratedPolicy))
  /-- Deploy what a build generated. -/
  deploy : BuildRequest → List GeneratedPolicy → m DeployOutcome

namespace Server

variable {σ : Type} [Store σ] {m : Type → Type} [Monad m]

/-- What a server computes by itself in a move that generates nothing. -/
def noCompiler : Compiler :=
  fun _ => .ok []

/-! ## Submissions -/

/-- No call makes more moves. -/
def submissionMoves : Nat := 6

/-- Let a call make some moves. -/
def advanceBy (site : Surroundings m) (call : Nat) : Nat → Server σ → m (Server σ)
  | 0, s => return s
  | moves + 1, s => do
      let fresh ← match s.submissions[call]?.map Submission.stage with
        | some .register => site.freshId
        | _ => pure ""
      let now ← site.now
      advanceBy site call moves (s.step noCompiler (.advance call fresh now))

/-- The answer of a call, if it has one. -/
def answerOf? (s : Server σ) (call : Nat) : Option (Except BuildError BuildId) :=
  match s.submissions[call]?.map Submission.stage with
  | some (.answered answer) => some answer
  | _ => none

/-- Submit a tag while nothing else happens. -/
def submit (site : Surroundings m) (s : Server σ) (key : TagKey) :
    m (Option (Except BuildError BuildId) × Server σ) := do
  let call := s.submissions.length
  let s ← advanceBy site call submissionMoves (s.step noCompiler (.submit key))
  return (s.answerOf? call, s)

/-! ## Workers -/

/-- Let a worker make a move. -/
def workOnce (site : Surroundings m) (s : Server σ) (i : Nat) : m (Server σ) := do
  match s.workers[i]? with
  | some (.busy ⟨_, .generate _ snapshot⟩) =>
      let generated ← site.generate snapshot
      return s.step (fun _ => generated) (.work i .done (← site.now))
  | some (.busy ⟨request, .deploy _ policies⟩) =>
      let outcome ← site.deploy request policies
      return s.step noCompiler (.work i outcome (← site.now))
  | _ => return s.step noCompiler (.work i .done (← site.now))

/-- Whether a worker has nothing to do. -/
def isAtRest (s : Server σ) (i : Nat) : Bool :=
  match s.workers[i]? with
  | none | some .stopped => true
  | some .idle => s.scheduler.queue.isEmpty && !s.scheduler.isExhausted
  | some (.busy _) => false

/-- Whether a worker is about to generate. -/
def isAboutToGenerate (s : Server σ) (i : Nat) : Bool :=
  match s.workers[i]? with
  | some (.busy ⟨_, .generate _ _⟩) => true
  | _ => false

/-- No job makes more moves. -/
def jobMoves : Nat := 9

/-- How many moves a worker makes at most before it pauses. -/
def movesToPause (s : Server σ) : Nat :=
  jobMoves * (s.scheduler.queue.length + 2)

/-- Let a worker move until it pauses. -/
def workToPause (site : Surroundings m) (i : Nat) : Nat → Server σ → m (Server σ)
  | 0, s => return s
  | moves + 1, s => do
      if s.isAtRest i || s.isAboutToGenerate i then return s
      else workToPause site i moves (← s.workOnce site i)

/-- Let a worker take its turn. -/
def turn (site : Surroundings m) (s : Server σ) (i : Nat) : m (Server σ) := do
  if s.isAtRest i then return s
  else
    let s ← s.workOnce site i
    workToPause site i s.movesToPause s

/-- Let every worker take a turn. -/
def round (site : Surroundings m) (s : Server σ) : m (Server σ) :=
  (List.range s.workers.length).foldlM (turn site) s

/-- How many rounds it takes at most until nothing is left to do. -/
def roundsLeft (s : Server σ) : Nat :=
  s.scheduler.queue.length + s.workers.length + 2

/-- Let workers take turns until somebody who waits for a build is told of its
end. -/
def waitFor (site : Surroundings m) (id : BuildId) : Nat → Server σ →
    m (Option (Except BuildError BuildRecord) × Server σ)
  | 0, s => return (s.tracker.answer? id, s)
  | rounds + 1, s => do
      match s.tracker.answer? id with
      | some answer => return (some answer, s)
      | none => waitFor site id rounds (← s.round site)

/-- Wait for the end of a build. -/
def wait (site : Surroundings m) (s : Server σ) (id : BuildId) :
    m (Option (Except BuildError BuildRecord) × Server σ) :=
  waitFor site id s.roundsLeft s

/-- Let workers take turns until they have left. -/
def roundsToEnd (site : Surroundings m) : Nat → Server σ → m (Server σ)
  | 0, s => return s
  | rounds + 1, s => do
      if s.hasShutDown then return s
      else roundsToEnd site rounds (← s.round site)

/-- Accept no more builds, and wait until those that were accepted have
ended. -/
def shutDown (site : Surroundings m) (s : Server σ) : m (Server σ) :=
  let s := s.step noCompiler .shutDown
  roundsToEnd site s.roundsLeft s

end Server

end RouteCompiler
