import RouteCompiler.Proofs.Build.Holding
import RouteCompiler.Proofs.Build.Storing
import RouteCompiler.Proofs.Build.Tracking

/-!
# What is handed to the deployer

A worker hands what was generated for its build to the deployer.  This module accounts
for every such hand-over: it goes back to the stored snapshot, it is the last word on a
build that succeeds, and there is at most one for each call.

Main definitions:

- `Server.handOvers`: what a run hands over.
- `Server.Accounts`: jobs and records go back to the store and to what was handed over.
- `Server.pending`: how many builds may still be handed over.

Main results:

- Theorem `Accounts.run`: every run keeps accounts.
- Theorem `length_handOvers_le`: a run hands over at most one build for each call.
- Theorem `handOvers_eq_singleton`: where a single call was made and its build is recorded
  as successful, exactly what was generated for it was handed over.
-/

namespace RouteCompiler

/-- A build, and what was generated for it. -/
structure HandOver where
  request : BuildRequest
  policies : List GeneratedPolicy
  deriving DecidableEq

/-- What the next move of a job hands to the deployer. -/
def Job.handOver? (job : Job) : Option HandOver :=
  match job.stage with
  | .deploy _ policies => some ⟨job.request, policies⟩
  | _ => none

namespace Server

variable {σ : Type}

/-- What a move hands to the deployer. -/
def handOver? (s : Server σ) : Move → Option HandOver
  | .work worker _ _ =>
      match s.workers[worker]? with
      | some (.busy job) => job.handOver?
      | _ => none
  | .submit _ | .advance .. | .shutDown => none

/-- What the moves of a run hand to the deployer, in order. -/
def handOvers [Store σ] (compile : Compiler) (s : Server σ) : List Move → List HandOver
  | [] => []
  | move :: moves => (s.handOver? move).toList ++ (s.step compile move).handOvers compile moves

theorem run_append [Store σ] (compile : Compiler) (s : Server σ) (moves later : List Move) :
    s.run compile (moves ++ later) = (s.run compile moves).run compile later :=
  List.foldl_append

theorem handOvers_append [Store σ] (compile : Compiler) (s : Server σ)
    (moves later : List Move) :
    s.handOvers compile (moves ++ later) =
      s.handOvers compile moves ++ (s.run compile moves).handOvers compile later := by
  induction moves generalizing s with
  | nil => rfl
  | cons move moves ih =>
      rw [List.cons_append, handOvers, handOvers, ih, List.append_assoc]
      rfl

end Server

/-! ## Where it comes from -/

section Sources

variable (compile : Compiler) (stored : TagKey → Option Snapshot)

/-- What is handed over was generated from what is stored under the key of the build. -/
def HandOver.IsGenerated (h : HandOver) : Prop :=
  ∃ snapshot, stored h.request.key = some snapshot ∧ compile snapshot = .ok h.policies

/-- A job goes back to what is stored, or to what was handed over. -/
def Job.IsFounded (handed : List HandOver) (job : Job) : Prop :=
  match job.stage with
  | .fetchTag | .fetchSnapshot _ => True
  | .mark _ snapshot | .start _ snapshot | .generate _ snapshot =>
      stored job.request.key = some snapshot
  | .deploy _ policies => HandOver.IsGenerated compile stored ⟨job.request, policies⟩
  | .record _ outcome => outcome.isOk → ∃ h ∈ handed, h.request = job.request
  | .report failure => failure = none → ∃ h ∈ handed, h.request = job.request

/-- A record is kept under its own identifier, and a build that is recorded as successful
was handed over. -/
def BuildRecord.IsCredited (handed : List HandOver) (id : BuildId) (r : BuildRecord) : Prop :=
  r.id = id ∧ (r.status = .successful → ∃ h ∈ handed, h.request.id = id)

/-- Jobs and records of a server go back to what is stored, and to what was handed
over. -/
structure Server.Accounts (s : Server Repository) (handed : List HandOver) : Prop where
  store : ∀ key, s.store.stored? key = stored key
  generated : ∀ h ∈ handed, h.IsGenerated compile stored
  jobs : ∀ job, Worker.busy job ∈ s.workers → job.IsFounded compile stored handed
  records : s.tracker.Every (BuildRecord.IsCredited handed)

end Sources

variable {compile : Compiler} {stored : TagKey → Option Snapshot} {handed new : List HandOver}

theorem Job.IsFounded.append {job : Job} (h : job.IsFounded compile stored handed)
    (new : List HandOver) : job.IsFounded compile stored (handed ++ new) := by
  obtain ⟨request, stage⟩ := job
  have hmore (h : ∃ h ∈ handed, h.request = request) :
      ∃ h ∈ handed ++ new, h.request = request := by
    obtain ⟨h, hmem, hrequest⟩ := h
    exact ⟨h, List.mem_append_left _ hmem, hrequest⟩
  cases stage with
  | record tag outcome => exact fun hok => hmore (h hok)
  | report failure => exact fun hnone => hmore (h hnone)
  | fetchTag | fetchSnapshot | mark | start | generate | deploy => exact h

/-- What a founded job hands over was generated. -/
theorem Job.IsFounded.isGenerated {job : Job} (h : job.IsFounded compile stored handed) :
    ∀ x ∈ job.handOver?.toList, x.IsGenerated compile stored := by
  intro x hx
  obtain ⟨request, stage⟩ := job
  cases stage with
  | deploy tag policies =>
      rw [List.mem_singleton.mp hx]
      exact h
  | fetchTag | fetchSnapshot | mark | start | generate | record | report => cases hx

theorem BuildRecord.IsCredited.append {id : BuildId} {r : BuildRecord} (h : r.IsCredited handed id)
    (new : List HandOver) : r.IsCredited (handed ++ new) id := by
  refine ⟨h.1, fun hstatus => ?_⟩
  obtain ⟨h, hmem, hid⟩ := h.2 hstatus
  exact ⟨h, List.mem_append_left _ hmem, hid⟩

namespace Server

variable {s s' : Server Repository}

/-- A server that has started owes no account. -/
theorem accounts_start {config : ServerConfig} {store : Repository}
    (h : Server.start config store = .ok s) : s.Accounts compile store.stored? [] := by
  obtain ⟨-, -, hs⟩ := Outcome.of_bind_eq_ok h
  simp only [pure, Except.pure, Except.ok.injEq] at hs
  subst hs
  refine ⟨fun key => rfl, fun h hh => (by cases hh), fun job hjob => ?_, fun id r hr => ?_⟩
  · cases List.eq_of_mem_replicate hjob
  · cases hr

/-- As long as workers go on with what they do, accounts are kept where records are. -/
theorem Accounts.of_records (h : s.Accounts compile stored handed)
    (hworkers : s'.workers = s.workers)
    (hstore : ∀ key, s'.store.stored? key = s.store.stored? key)
    (hrecords : s'.tracker.Every (BuildRecord.IsCredited handed)) :
    s'.Accounts compile stored handed where
  store := fun key => (hstore key).trans (h.store key)
  generated := h.generated
  jobs := fun job hjob => h.jobs job (hworkers ▸ hjob)
  records := hrecords

/-- Accounts are kept where more is handed over, if that was generated. -/
theorem Accounts.append (h : s.Accounts compile stored handed)
    (hnew : ∀ x ∈ new, x.IsGenerated compile stored) :
    s.Accounts compile stored (handed ++ new) where
  store := h.store
  generated := fun x hx => (List.mem_append.mp hx).elim (h.generated x) (hnew x)
  jobs := fun job hjob => (h.jobs job hjob).append new
  records := fun id r hr => (h.records id r hr).append new

/-- Accounts are kept where a worker goes on with a job that is founded. -/
theorem Accounts.setWorker (h : s.Accounts compile stored handed) (i : Nat) {w : Worker}
    (hw : ∀ job, w = .busy job → job.IsFounded compile stored handed) :
    (s.setWorker i w).Accounts compile stored handed where
  store := h.store
  generated := h.generated
  jobs := fun job hjob => (List.mem_or_eq_of_mem_set hjob).elim (h.jobs job)
    fun heq => hw job heq.symm
  records := h.records

/-- An operation of the tracker keeps accounts, whether it succeeds or not. -/
theorem Accounts.trackerAfter (h : s.Accounts compile stored handed)
    {result : Except BuildError Tracker}
    (hresult : ∀ t, result = .ok t → t.Every (BuildRecord.IsCredited handed)) :
    (s.trackerAfter result).Accounts compile stored handed := by
  cases result with
  | ok t => exact h.of_records rfl (fun _ => rfl) (hresult t rfl)
  | error e => exact h

/-- A move of a call keeps accounts. -/
theorem Accounts.advance (h : s.Accounts compile stored handed) (call : Nat) (fresh : BuildId)
    (now : Instant) : (s.advance call fresh now).Accounts compile stored handed := by
  rw [Server.advance]
  split
  · exact h
  next c hc =>
  obtain ⟨key, stage⟩ := c
  cases stage with
  | lookUp | refresh =>
      simp only [advanceStage]
      split <;> exact h.of_records rfl (fun _ => rfl) h.records
  | register =>
      have hrecords : (s.tracker.register key fresh now).2.Every
          (BuildRecord.IsCredited handed) :=
        h.records.register ⟨rfl, fun hstatus => by cases hstatus⟩
      simp only [advanceStage]
      split <;> exact h.of_records rfl (fun _ => rfl) hrecords
  | reserve id =>
      simp only [advanceStage]
      split <;> exact h.of_records rfl (fun _ => rfl) h.records
  | mark id tag =>
      have hstore := s.store.stored_store_updateTag key (scheduledTag tag)
      simp only [advanceStage]
      split <;> exact h.of_records rfl hstore h.records
  | enqueue id => exact h.of_records rfl (fun _ => rfl) h.records
  | withdraw id holdsPlace e => exact h.of_records rfl (fun _ => rfl) (h.records.discard id)
  | answered answer => exact h.of_records rfl (fun _ => rfl) h.records

/-- A move of a job leads to a job that is founded. -/
theorem Accounts.isFounded_workStage (h : s.Accounts compile stored handed)
    {request : BuildRequest} {stage stage' : JobStage}
    (hjob : Job.IsFounded compile stored handed ⟨request, stage⟩) {deployment : DeployOutcome}
    {now : Instant} (hstage : (s.workStage compile request deployment now stage).1 = some stage') :
    Job.IsFounded compile stored (handed ++ (Job.handOver? ⟨request, stage⟩).toList)
      ⟨request, stage'⟩ := by
  cases stage with
  | deploy tag policies =>
      obtain rfl := Option.some.inj hstage
      exact fun _ => ⟨⟨request, policies⟩, List.mem_append_right _ (List.mem_singleton_self _), rfl⟩
  | fetchTag =>
      refine Job.IsFounded.append ?_ _
      simp only [Server.workStage] at hstage
      split at hstage <;> obtain rfl := Option.some.inj hstage
      · trivial
      · exact fun hnone => by cases hnone
  | fetchSnapshot tag =>
      refine Job.IsFounded.append ?_ _
      simp only [Server.workStage] at hstage
      split at hstage <;> obtain rfl := Option.some.inj hstage
      · next hanswer =>
        exact (h.store request.key).symm.trans (Repository.stored_of_snapshot hanswer)
      · exact fun hok => by cases hok
      · exact fun hok => by cases hok
  | mark tag snapshot =>
      refine Job.IsFounded.append ?_ _
      simp only [Server.workStage] at hstage
      split at hstage <;> obtain rfl := Option.some.inj hstage
      · exact hjob
      · exact fun hok => by cases hok
  | start tag snapshot =>
      obtain rfl := Option.some.inj hstage
      exact hjob
  | generate tag snapshot =>
      refine Job.IsFounded.append ?_ _
      simp only [Server.workStage] at hstage
      split at hstage <;> obtain rfl := Option.some.inj hstage
      · next hcompile => exact ⟨snapshot, hjob, hcompile⟩
      · exact fun hok => by cases hok
  | record tag outcome =>
      refine Job.IsFounded.append ?_ _
      simp only [Server.workStage] at hstage
      split at hstage <;> obtain rfl := Option.some.inj hstage
      · cases outcome with
        | ok issues => exact fun _ => hjob rfl
        | error e => exact fun hnone => by cases hnone
      · exact fun hnone => by cases hnone
  | report failure => cases hstage

/-- A move of a job keeps accounts, with what it hands over. -/
theorem Accounts.workStage (h : s.Accounts compile stored handed) {request : BuildRequest}
    {stage : JobStage} (hjob : Job.IsFounded compile stored handed ⟨request, stage⟩)
    (deployment : DeployOutcome) (now : Instant) :
    (s.workStage compile request deployment now stage).2.Accounts compile stored
      (handed ++ (Job.handOver? ⟨request, stage⟩).toList) := by
  have hkept := h.append hjob.isGenerated
  cases stage with
  | deploy tag policies => exact hkept
  | fetchTag | fetchSnapshot =>
      simp only [Server.workStage]
      split <;> exact hkept.of_records rfl (fun _ => rfl) hkept.records
  | mark tag snapshot =>
      have hstore := s.store.stored_store_updateTag request.key (buildingTag tag)
      simp only [Server.workStage]
      split <;> exact hkept.of_records rfl hstore hkept.records
  | start tag snapshot =>
      refine hkept.trackerAfter fun t ht => ?_
      exact hkept.records.start (fun r hr => ⟨hr.1, fun hstatus => by cases hstatus⟩) ht
  | generate tag snapshot =>
      simp only [Server.workStage]
      split <;> exact hkept
  | record tag outcome =>
      have hstore := s.store.stored_store_updateTag request.key (finishedTag tag outcome now)
      simp only [Server.workStage]
      split <;> exact hkept.of_records rfl hstore hkept.records
  | report failure =>
      refine hkept.trackerAfter fun t ht => ?_
      refine hkept.records.finish (fun r hr => ⟨hr.1, fun hstatus => ?_⟩) ht
      cases failure with
      | none =>
          obtain ⟨x, hx, hrequest⟩ := hjob rfl
          exact ⟨x, List.mem_append_left _ hx, congrArg BuildRequest.id hrequest⟩
      | some text => cases hstatus

/-- A move of a worker keeps accounts, with what it hands over. -/
theorem Accounts.work (h : s.Accounts compile stored handed) (i : Nat)
    (deployment : DeployOutcome) (now : Instant) :
    (s.work compile i deployment now).Accounts compile stored
      (handed ++ (s.handOver? (.work i deployment now)).toList) := by
  cases hw : s.workers[i]? with
  | none =>
      simp only [Server.work, handOver?, hw, Option.toList_none, List.append_nil]
      exact h
  | some w =>
      cases w with
      | stopped =>
          simp only [Server.work, handOver?, hw, Option.toList_none, List.append_nil]
          exact h
      | idle =>
          simp only [Server.work, handOver?, hw, Option.toList_none, List.append_nil]
          split
          · next request scheduler htake =>
            have htaken : ({ s with scheduler } : Server Repository).Accounts compile stored
              handed := h.of_records rfl (fun _ => rfl) h.records
            refine htaken.setWorker i fun job hjob => ?_
            rw [← Worker.busy.inj hjob]
            trivial
          · split
            · exact h.setWorker i fun job hjob => by cases hjob
            · exact h
      | busy job =>
          obtain ⟨request, stage⟩ := job
          have hfounded := h.jobs _ (List.mem_of_getElem? hw)
          have hkept := h.workStage hfounded deployment now
          simp only [Server.work, handOver?, hw]
          split
          · next stage' s' hstage =>
            rw [hstage] at hkept
            refine hkept.setWorker i fun job hjob => ?_
            rw [← Worker.busy.inj hjob]
            exact h.isFounded_workStage hfounded (congrArg Prod.fst hstage)
          · next s' hstage =>
            rw [hstage] at hkept
            exact hkept.setWorker i fun job hjob => by cases hjob

/-- Every move keeps accounts, with what it hands over. -/
theorem Accounts.step (h : s.Accounts compile stored handed) (move : Move) :
    (s.step compile move).Accounts compile stored (handed ++ (s.handOver? move).toList) := by
  cases move with
  | submit key =>
      rw [handOver?, Option.toList_none, List.append_nil]
      exact h.of_records rfl (fun _ => rfl) h.records
  | advance call fresh now =>
      rw [handOver?, Option.toList_none, List.append_nil]
      exact h.advance call fresh now
  | work worker deployment now => exact h.work worker deployment now
  | shutDown =>
      rw [handOver?, Option.toList_none, List.append_nil]
      exact h.of_records rfl (fun _ => rfl) h.records

/-- Every run keeps accounts, with what it hands over. -/
theorem Accounts.run (h : s.Accounts compile stored handed) (moves : List Move) :
    (s.run compile moves).Accounts compile stored (handed ++ s.handOvers compile moves) := by
  induction moves generalizing s handed with
  | nil =>
      rw [handOvers, List.append_nil]
      exact h
  | cons move moves ih =>
      rw [handOvers, ← List.append_assoc]
      exact ih (h.step move)

end Server

/-! ## At most one hand-over for each call -/

/-- Whether a call has no answer yet. -/
def Submission.isOpen (c : Submission) : Bool :=
  match c.stage with
  | .answered _ => false
  | _ => true

/-- Whether a worker may hand something over before it takes another build. -/
def Worker.mayHandOver : Worker → Bool
  | .busy ⟨_, .record ..⟩ | .busy ⟨_, .report _⟩ | .idle | .stopped => false
  | .busy _ => true

/-- Whether a move makes a call. -/
def Move.isSubmission : Move → Bool
  | .submit _ => true
  | .advance .. | .work .. | .shutDown => false

namespace Server

variable {σ : Type}

/-- How many builds may still be handed over, without another call: those that calls may
register, those in the queue, and those that workers have not handed over. -/
def pending (s : Server σ) : Nat :=
  s.submissions.countP Submission.isOpen + s.scheduler.queue.length +
    s.workers.countP Worker.mayHandOver

/-- A server that has started has nothing to hand over. -/
theorem pending_start {config : ServerConfig} {store : σ} {s : Server σ}
    (h : Server.start config store = .ok s) : s.pending = 0 := by
  obtain ⟨-, -, hs⟩ := Outcome.of_bind_eq_ok h
  simp only [pure, Except.pure, Except.ok.injEq] at hs
  subst hs
  simp [pending, Scheduler.start, List.countP_replicate, Worker.mayHandOver]

section Moves

variable [Store σ]

/-- A call that goes on queues no more than the build that it was to queue. -/
theorem pending_advanceStage (s : Server σ) (key : TagKey) (fresh : BuildId) (now : Instant)
    (stage : SubmissionStage) :
    (s.advanceStage key fresh now stage).2.submissions = s.submissions ∧
    (s.advanceStage key fresh now stage).2.workers = s.workers ∧
    (Submission.isOpen ⟨key, (s.advanceStage key fresh now stage).1⟩).toNat +
        (s.advanceStage key fresh now stage).2.scheduler.queue.length ≤
      (Submission.isOpen ⟨key, stage⟩).toNat + s.scheduler.queue.length := by
  cases stage with
  | lookUp | refresh | mark | register =>
      simp only [advanceStage]
      split <;> simp [Submission.isOpen]
  | reserve id =>
      simp only [advanceStage]
      split
      · next scheduler hreserve =>
        simp [Submission.isOpen, Scheduler.queue_of_reserve hreserve]
      · simp [Submission.isOpen]
  | enqueue id => simp [advanceStage, Submission.isOpen, Scheduler.schedule, Nat.add_comm]
  | withdraw id holdsPlace e =>
      have hqueue : (if holdsPlace then s.scheduler.release else s.scheduler).queue =
          s.scheduler.queue := by split <;> rfl
      simp [advanceStage, Submission.isOpen, hqueue]
  | answered answer => exact ⟨rfl, rfl, Nat.le_refl _⟩

theorem pending_advance (s : Server σ) (call : Nat) (fresh : BuildId) (now : Instant) :
    (s.advance call fresh now).pending ≤ s.pending := by
  rw [advance]
  split
  · exact Nat.le_refl _
  · next c hc =>
    obtain ⟨key, stage⟩ := c
    obtain ⟨hcalls, hworkers, hqueue⟩ := s.pending_advanceStage key fresh now stage
    have hset := countP_set_add (p := Submission.isOpen) hc
      ⟨key, (s.advanceStage key fresh now stage).1⟩
    simp only [pending, hcalls, hworkers]
    omega

/-- A job that goes on leads to no more than the hand-over that it was to lead to. -/
theorem pending_workStage (compile : Compiler) (s : Server σ) (request : BuildRequest)
    (deployment : DeployOutcome) (now : Instant) (stage : JobStage) :
    let after := s.workStage compile request deployment now stage
    after.2.submissions = s.submissions ∧ after.2.scheduler = s.scheduler ∧
    after.2.workers = s.workers ∧
    ((after.1.map fun stage => Worker.mayHandOver (.busy ⟨request, stage⟩)).getD false).toNat +
        (Job.handOver? ⟨request, stage⟩).toList.length ≤
      (Worker.mayHandOver (.busy ⟨request, stage⟩)).toNat := by
  cases stage with
  | start tag snapshot =>
      obtain ⟨tracker, hserver, -⟩ := s.exists_trackerAfter_eq (s.tracker.start request.id now)
      simp [workStage, hserver, Worker.mayHandOver, Job.handOver?]
  | report failure =>
      obtain ⟨tracker, hserver, -⟩ :=
        s.exists_trackerAfter_eq (s.tracker.finish request.id failure now)
      simp [workStage, hserver, Worker.mayHandOver, Job.handOver?]
  | fetchTag | fetchSnapshot | mark | generate | record =>
      simp only [workStage]
      split <;> simp [Worker.mayHandOver, Job.handOver?]
  | deploy tag policies => simp [workStage, Worker.mayHandOver, Job.handOver?]

theorem pending_work (compile : Compiler) (s : Server σ) (i : Nat) (deployment : DeployOutcome)
    (now : Instant) :
    (s.work compile i deployment now).pending +
      (s.handOver? (.work i deployment now)).toList.length ≤ s.pending := by
  cases hw : s.workers[i]? with
  | none => simp [work, handOver?, hw]
  | some w =>
      cases w with
      | stopped => simp [work, handOver?, hw]
      | idle =>
          have hset (w : Worker) := countP_set_add (p := Worker.mayHandOver) hw w
          simp only [work, handOver?, hw, Option.toList_none, List.length_nil, Nat.add_zero]
          split
          · next request scheduler htake =>
            have hset := hset (.busy ⟨request, .fetchTag⟩)
            simp only [pending, setWorker, Scheduler.queue_of_take htake, List.length_cons]
            simp only [Worker.mayHandOver, Bool.toNat_true, Bool.toNat_false] at hset
            omega
          · split
            · have hset := hset .stopped
              simp only [pending, setWorker]
              simp only [Worker.mayHandOver, Bool.toNat_false] at hset
              omega
            · exact Nat.le_refl _
      | busy job =>
          obtain ⟨request, stage⟩ := job
          have hset (w : Worker) := countP_set_add (p := Worker.mayHandOver) hw w
          have hle := s.pending_workStage compile request deployment now stage
          simp only [work, handOver?, hw]
          split
          · next stage' s' hstage =>
            simp only [hstage] at hle
            obtain ⟨hcalls, hscheduler, hworkers, hle⟩ := hle
            have hset := hset (.busy ⟨request, stage'⟩)
            simp only [pending, setWorker, hcalls, hscheduler, hworkers]
            simp only [Option.map_some, Option.getD_some] at hle
            omega
          · next s' hstage =>
            simp only [hstage] at hle
            obtain ⟨hcalls, hscheduler, hworkers, hle⟩ := hle
            have hidle : (Worker.mayHandOver .idle).toNat = 0 := rfl
            have hset := hset .idle
            simp only [pending, setWorker, hcalls, hscheduler, hworkers]
            simp only [Option.map_none, Option.getD_none] at hle
            omega

/-- What a move hands over is no longer pending, and only a call adds to what is. -/
theorem pending_step (compile : Compiler) (s : Server σ) (move : Move) :
    (s.step compile move).pending + (s.handOver? move).toList.length ≤
      s.pending + move.isSubmission.toNat := by
  cases move with
  | submit key =>
      simp [step, pending, handOver?, Move.isSubmission, Submission.isOpen]
      omega
  | advance call fresh now => exact s.pending_advance call fresh now
  | work worker deployment now => exact pending_work compile s worker deployment now
  | shutDown => exact Nat.le_refl _

/-- A run hands over at most one build for each call, and one for each that was pending. -/
theorem length_handOvers_le (compile : Compiler) (s : Server σ) (moves : List Move) :
    (s.run compile moves).pending + (s.handOvers compile moves).length ≤
      s.pending + moves.countP Move.isSubmission := by
  induction moves generalizing s with
  | nil => exact Nat.le_refl _
  | cons move moves ih =>
      have hfirst := s.pending_step compile move
      have hrest := ih (s.step compile move)
      have hmove : (if move.isSubmission then 1 else 0) = move.isSubmission.toNat := by
        cases move.isSubmission <;> rfl
      rw [handOvers, List.length_append, List.countP_cons, hmove, run, List.foldl_cons]
      rw [run] at hrest
      omega

end Moves

/-! ## A single build -/

/-- Where a single call was made, and a build is recorded as successful, exactly what was
generated for that build from the store was handed over. -/
theorem handOvers_eq_singleton {config : ServerConfig} {store : Repository}
    {s : Server Repository} {before later : List Move} {id : BuildId} {build : BuildRecord}
    (hstart : Server.start config store = .ok s)
    (hcalls : (before ++ later).countP Move.isSubmission = 1)
    (hbuild : (s.run compile before).tracker.builds.find? id = some build)
    (hsuccess : build.status = .successful) :
    ∃ h : HandOver, s.handOvers compile (before ++ later) = [h] ∧ h.request.id = build.id ∧
      h.IsGenerated compile store.stored? := by
  have haccounts : s.Accounts compile store.stored? [] := accounts_start hstart
  obtain ⟨hid, hcredit⟩ := (haccounts.run before).records id build hbuild
  obtain ⟨h, hmem, hrequest⟩ := hcredit hsuccess
  have hhanded : h ∈ s.handOvers compile (before ++ later) := by
    rw [handOvers_append]
    exact List.mem_append_left _ hmem
  have hlength := s.length_handOvers_le compile (before ++ later)
  rw [pending_start hstart, hcalls] at hlength
  obtain ⟨h', hh'⟩ : ∃ h', s.handOvers compile (before ++ later) = [h'] := by
    refine List.length_eq_one_iff.mp (Nat.le_antisymm (by omega) ?_)
    exact List.length_pos_of_mem hhanded
  rw [hh', List.mem_singleton] at hhanded
  refine ⟨h, by rw [hh', hhanded], hrequest.trans hid.symm, ?_⟩
  refine (haccounts.run (before ++ later)).generated h ?_
  rw [List.nil_append, hh', hhanded]
  exact List.mem_singleton_self _

end Server

end RouteCompiler
