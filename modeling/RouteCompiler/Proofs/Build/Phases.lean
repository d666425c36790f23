import RouteCompiler.Proofs.Build.HandOver
import RouteCompiler.Proofs.Build.Interleaving

/-!
# How far builds have come

Every build in flight is at some point of its way from the call that registered it, through
the queue, to the worker that ends it.  A move takes at most one build from one phase to
another, and leaves all others where they are.

Main definitions:

- `Phase`: a point of that way.
- `Server.phases`: the builds in flight, each with its phase.
- `Server.Shifts`: the phase of one build changes, or one build comes or goes.
- `Server.Turn`: what a worker does when it is its turn.

Main results:

- Theorem `turn_work`: every move of a worker is one of these.
- Theorems `shifts_advance`, `shifts_take` and `shifts_work`: what calls and workers do to
  phases.
- Theorem `Shifts.forall`: what holds of every build in its phase after a shift.
-/

namespace RouteCompiler

/-- A point of the way of a build. -/
inductive Phase where
  /-- A call that submits the tag holds the build. -/
  | submitted (stage : SubmissionStage)
  /-- The build waits in the queue. -/
  | queued
  /-- A worker holds the build. -/
  | running (stage : JobStage)

/-- Whether a worker has the build. -/
def Phase.isRunning : Phase → Bool
  | .submitted _ | .queued => false
  | .running _ => true

/-- The build that a call holds, with its phase. -/
def Submission.phase? (c : Submission) : Option (BuildRequest × Phase) :=
  c.held?.map fun r => (r, .submitted c.stage)

/-- A call holds a build of the tag that it submits. -/
theorem Submission.key_of_phase {c : Submission} {r : BuildRequest} {phase : Phase}
    (h : c.phase? = some (r, phase)) : r.key = c.key := by
  obtain ⟨key, stage⟩ := c
  cases stage with
  | lookUp | register | answered => cases h
  | reserve | refresh | mark | enqueue | withdraw =>
      obtain ⟨rfl, -⟩ := Prod.mk.inj (Option.some.inj h)
      rfl

theorem Submission.eq_submitted_of_phase {c : Submission} {x : BuildRequest × Phase}
    (h : c.phase? = some x) : x.2 = .submitted c.stage := by
  obtain ⟨r, -, rfl⟩ := Option.map_eq_some_iff.mp h
  rfl

theorem Submission.isRunning_of_phase {c : Submission} {x : BuildRequest × Phase}
    (h : c.phase? = some x) : x.2.isRunning = false := by
  rw [eq_submitted_of_phase h]
  rfl

/-- The build that a worker holds, with its phase. -/
def Worker.phase? : Worker → Option (BuildRequest × Phase)
  | .busy job => some (job.request, .running job.stage)
  | .idle | .stopped => none

/-- Replacing an item of a list changes a selection in the place of that item only. -/
theorem exists_rest_of_getElem {α β : Type} {l : List α} {i : Nat} {a : α} (f : α → Option β)
    (h : l[i]? = some a) :
    ∃ rest, (l.filterMap f).Perm ((f a).toList ++ rest) ∧
      ∀ b, ((l.set i b).filterMap f).Perm ((f b).toList ++ rest) := by
  obtain ⟨hi, rfl⟩ := List.getElem?_eq_some_iff.mp h
  have hmove (b : α) : ((l.take i ++ b :: l.drop (i + 1)).filterMap f).Perm
      ((f b).toList ++ ((l.take i).filterMap f ++ (l.drop (i + 1)).filterMap f)) := by
    rw [List.filterMap_append]
    cases hb : f b with
    | none => simp [hb]
    | some c =>
        rw [List.filterMap_cons_some hb]
        exact List.perm_middle
  refine ⟨(l.take i).filterMap f ++ (l.drop (i + 1)).filterMap f, ?_, fun b => ?_⟩
  · have hl := hmove l[i]
    rw [List.getElem_cons_drop, List.take_append_drop] at hl
    exact hl
  · rw [List.set_eq_take_append_cons_drop, if_pos hi]
    exact hmove b

namespace Server

variable {σ : Type} {s s' : Server σ} {old new : Option (BuildRequest × Phase)}

/-- The builds in flight, each with its phase. -/
def phases (s : Server σ) : List (BuildRequest × Phase) :=
  s.submissions.filterMap Submission.phase? ++
    (s.scheduler.queue.map (·, .queued) ++ s.workers.filterMap Worker.phase?)

/-- The builds with phases are those that are held. -/
theorem map_fst_phases (s : Server σ) : s.phases.map Prod.fst = s.held := by
  have hcalls : (s.submissions.filterMap Submission.phase?).map Prod.fst =
      s.submissions.filterMap Submission.held? := by
    rw [List.map_filterMap]
    congr 1
    funext c
    simp [Submission.phase?, Option.map_map, Function.comp_def]
  have hworkers : (s.workers.filterMap Worker.phase?).map Prod.fst =
      s.workers.filterMap Worker.held? := by
    rw [List.map_filterMap]
    congr 1
    funext w
    cases w <;> rfl
  simp [phases, held, hcalls, hworkers, Function.comp_def]

theorem mem_held_of_mem_phases {x : BuildRequest × Phase} (hx : x ∈ s.phases) :
    x.1 ∈ s.held := by
  rw [← map_fst_phases]
  exact List.mem_map_of_mem hx

theorem mem_phases_of_call {call : Nat} {c : Submission} {x : BuildRequest × Phase}
    (hc : s.submissions[call]? = some c) (hx : c.phase? = some x) : x ∈ s.phases :=
  List.mem_append_left _ (List.mem_filterMap.mpr ⟨c, List.mem_of_getElem? hc, hx⟩)

theorem mem_phases_of_queue {r : BuildRequest} (hr : r ∈ s.scheduler.queue) :
    (r, .queued) ∈ s.phases :=
  List.mem_append_right _ (List.mem_append_left _ (List.mem_map_of_mem hr))

theorem mem_phases_of_take {r : BuildRequest} {scheduler : Scheduler BuildRequest}
    (htake : s.scheduler.take? = some (r, scheduler)) : (r, .queued) ∈ s.phases := by
  refine mem_phases_of_queue ?_
  rw [Scheduler.queue_of_take htake]
  exact List.mem_cons_self

theorem mem_phases_of_worker {i : Nat} {r : BuildRequest} {stage : JobStage}
    (hw : s.workers[i]? = some (.busy ⟨r, stage⟩)) : (r, .running stage) ∈ s.phases :=
  List.mem_append_right _ (List.mem_append_right _
    (List.mem_filterMap.mpr ⟨_, List.mem_of_getElem? hw, rfl⟩))

/-- A server that has started has no builds. -/
theorem phases_start {config : ServerConfig} {store : σ}
    (h : Server.start config store = .ok s) : s.phases = [] := by
  rw [eq_of_start h]
  simp [phases, Scheduler.start, Worker.phase?]

/-! ## Shifts -/

/-- The phase of one build changes, or one build comes or goes; all others stay where they
are. -/
def Shifts (s s' : Server σ) (old new : Option (BuildRequest × Phase)) : Prop :=
  ∃ rest, s.phases.Perm (old.toList ++ rest) ∧ s'.phases.Perm (new.toList ++ rest)

/-- Where the phases are as they were, no build comes or goes. -/
theorem shifts_of_eq (h : s'.phases = s.phases) : Shifts s s' none none :=
  ⟨s.phases, .refl _, .of_eq h⟩

theorem Shifts.perm (h : Shifts s s' none none) : s'.phases.Perm s.phases := by
  obtain ⟨rest, hbefore, hafter⟩ := h
  exact hafter.trans hbefore.symm

/-- What a shift changes in the count of a test. -/
theorem Shifts.countP_add (h : Shifts s s' old new) (p : BuildRequest × Phase → Bool) :
    s'.phases.countP p + (old.any p).toNat = s.phases.countP p + (new.any p).toNat := by
  have hcount (o : Option (BuildRequest × Phase)) : o.toList.countP p = (o.any p).toNat := by
    cases o with
    | none => rfl
    | some x => cases hp : p x <;> simp [hp]
  obtain ⟨rest, hbefore, hafter⟩ := h
  rw [hbefore.countP_eq, hafter.countP_eq, List.countP_append, List.countP_append, hcount, hcount]
  omega

/-- A call goes on with a build, comes to hold one, or gives it up. -/
theorem shifts_of_call {call : Nat} {c c' : Submission} (hc : s.submissions[call]? = some c)
    (hcalls : s'.submissions = s.submissions.set call c') (hworkers : s'.workers = s.workers)
    (hqueue : s'.scheduler.queue = s.scheduler.queue) : Shifts s s' c.phase? c'.phase? := by
  obtain ⟨rest, hold, hnew⟩ := exists_rest_of_getElem Submission.phase? hc
  refine ⟨rest ++ (s.scheduler.queue.map (·, .queued) ++ s.workers.filterMap Worker.phase?),
    ?_, ?_⟩
  · rw [← List.append_assoc]
    exact hold.append_right _
  · rw [← List.append_assoc, phases, hcalls, hworkers, hqueue]
    exact (hnew c').append_right _

/-- A call puts its build into the queue. -/
theorem shifts_of_schedule {call : Nat} {c c' : Submission} {r : BuildRequest}
    (hc : s.submissions[call]? = some c) (hnone : c'.phase? = none)
    (hcalls : s'.submissions = s.submissions.set call c') (hworkers : s'.workers = s.workers)
    (hqueue : s'.scheduler.queue = s.scheduler.queue ++ [r]) :
    Shifts s s' c.phase? (some (r, .queued)) := by
  obtain ⟨rest, hold, hnew⟩ := exists_rest_of_getElem Submission.phase? hc
  have hcalls' := hnew c'
  rw [hnone, Option.toList_none, List.nil_append] at hcalls'
  refine ⟨rest ++ (s.scheduler.queue.map (·, .queued) ++ s.workers.filterMap Worker.phase?),
    ?_, ?_⟩
  · rw [← List.append_assoc]
    exact hold.append_right _
  · rw [phases, hcalls, hworkers, hqueue, List.map_append, List.append_assoc]
    refine (hcalls'.append_right _).trans ?_
    rw [← List.append_assoc, List.map_singleton, List.singleton_append]
    refine List.perm_middle.trans (.of_eq ?_)
    rw [List.append_assoc]
    rfl

/-- A worker goes on with its build, or is done with it. -/
theorem shifts_of_worker {i : Nat} {w v : Worker} (hw : s.workers[i]? = some w)
    (hworkers : s'.workers = s.workers.set i v) (hcalls : s'.submissions = s.submissions)
    (hqueue : s'.scheduler.queue = s.scheduler.queue) : Shifts s s' w.phase? v.phase? := by
  obtain ⟨rest, hold, hnew⟩ := exists_rest_of_getElem Worker.phase? hw
  have hswap {before after workers : List (BuildRequest × Phase)}
      (h : workers.Perm (after ++ rest)) :
      (before ++ workers).Perm (after ++ (before ++ rest)) :=
    (h.append_left _).trans (List.perm_append_comm_assoc _ _ _)
  refine ⟨s.submissions.filterMap Submission.phase? ++ s.scheduler.queue.map (·, .queued) ++ rest,
    ?_, ?_⟩
  · rw [phases, ← List.append_assoc]
    exact hswap hold
  · rw [phases, ← List.append_assoc, hcalls, hqueue, hworkers]
    exact hswap (hnew v)

/-- A worker takes the next build from the queue. -/
theorem shifts_of_take {i : Nat} {w v : Worker} {r : BuildRequest}
    (hw : s.workers[i]? = some w) (hnone : w.phase? = none)
    (hworkers : s'.workers = s.workers.set i v) (hcalls : s'.submissions = s.submissions)
    (hqueue : s.scheduler.queue = r :: s'.scheduler.queue) :
    Shifts s s' (some (r, .queued)) v.phase? := by
  obtain ⟨rest, hold, hnew⟩ := exists_rest_of_getElem Worker.phase? hw
  rw [hnone, Option.toList_none, List.nil_append] at hold
  refine ⟨s.submissions.filterMap Submission.phase? ++
    (s'.scheduler.queue.map (·, .queued) ++ rest), ?_, ?_⟩
  · rw [phases, hqueue, List.map_cons, List.cons_append]
    exact List.perm_middle.trans
      (((hold.append_left _).append_left _).cons _)
  · rw [phases, hcalls, hworkers]
    refine (((hnew v).append_left _).append_left _).trans ?_
    refine ((List.perm_append_comm_assoc _ _ _).append_left _).trans ?_
    exact List.perm_append_comm_assoc _ _ _

/-- An idle worker leaves. -/
theorem shifts_stop {i : Nat} (hw : s.workers[i]? = some .idle) :
    Shifts s (s.setWorker i .stopped) none none :=
  shifts_of_worker (v := .stopped) hw rfl rfl rfl

/-! ## Moves -/

/-- The job of a worker, if it has one. -/
def job? (s : Server σ) (i : Nat) : Option Job :=
  match s.workers[i]? with
  | some (.busy job) => some job
  | _ => none

theorem job_eq_some {i : Nat} {job : Job} :
    s.job? i = some job ↔ s.workers[i]? = some (.busy job) := by
  rw [job?]
  split
  · next hw => rw [hw, Option.some.injEq, Option.some.injEq, Worker.busy.injEq]
  · next hother => exact iff_of_false (fun h => by cases h) (hother job)

theorem job_of_idle {i : Nat} (hw : s.workers[i]? = some .idle) : s.job? i = none := by
  rw [job?, hw]

/-- What a worker does when it is its turn. -/
inductive Turn (s s' : Server σ) (i : Nat) : Prop
  /-- There is nothing to do. -/
  | rests (hjob : s.job? i = none)
      (hnone : s.workers[i]? = some .idle → s.scheduler.take? = none) (hsame : s' = s)
  /-- Nothing will come any more. -/
  | leaves (hidle : s.workers[i]? = some .idle) (hnone : s.scheduler.take? = none)
      (hexhausted : s.scheduler.isExhausted) (hleft : s' = s.setWorker i .stopped)
  /-- The next build is taken from the queue. -/
  | takes {r : BuildRequest} {scheduler : Scheduler BuildRequest}
      (hidle : s.workers[i]? = some .idle) (htake : s.scheduler.take? = some (r, scheduler))
      (htaken : s' = { s with scheduler }.setWorker i (.busy ⟨r, .fetchTag⟩))
  /-- The job goes on. -/
  | works {r : BuildRequest} {stage : JobStage} (hw : s.workers[i]? = some (.busy ⟨r, stage⟩))

section Moves

variable [Store σ]

/-- Every move of a worker is one of these. -/
theorem turn_work (compile : Compiler) (s : Server σ) (i : Nat) (deployment : DeployOutcome)
    (now : Instant) : Turn s (s.work compile i deployment now) i := by
  cases hw : s.workers[i]? with
  | none => exact .rests (by rw [job?, hw]) (fun hidle => by cases hw ▸ hidle) (by rw [work, hw])
  | some w =>
      cases w with
      | stopped =>
          exact .rests (by rw [job?, hw]) (fun hidle => by cases hw ▸ hidle) (by rw [work, hw])
      | busy job => exact .works hw
      | idle =>
          cases htake : s.scheduler.take? with
          | some taken => exact .takes hw htake (by simp only [work, hw, htake])
          | none =>
              simp only [work, hw, htake]
              split
              · next hexhausted => exact .leaves hw htake hexhausted rfl
              · exact .rests (job_of_idle hw) (fun _ => htake) rfl

/-- The phase of the build that a call holds after its next move. -/
def callPhase? (s : Server σ) (key : TagKey) (fresh : BuildId) (now : Instant) :
    SubmissionStage → Option (BuildRequest × Phase)
  | .enqueue id => some (⟨id, key⟩, .queued)
  | stage => Submission.phase? ⟨key, (s.advanceStage key fresh now stage).1⟩

/-- A build that a call holds, or has put into the queue, is not run. -/
theorem isRunning_callPhase {key : TagKey} {fresh : BuildId} {now : Instant}
    {stage : SubmissionStage} {x : BuildRequest × Phase}
    (h : s.callPhase? key fresh now stage = some x) : x.2.isRunning = false := by
  cases stage with
  | enqueue id =>
      rw [← Option.some.inj h]
      rfl
  | lookUp | register | reserve | refresh | mark | withdraw | answered =>
      exact Submission.isRunning_of_phase h

/-- A call that holds nothing comes to hold a build only where the tracker knows of none
for its tag. -/
theorem callPhase_of_none {key : TagKey} {stage : SubmissionStage}
    (hphase : Submission.phase? ⟨key, stage⟩ = none) (fresh : BuildId) (now : Instant) :
    s.callPhase? key fresh now stage = none ∨
      s.tracker.inFlight.find? key = none ∧ s.callPhase? key fresh now stage =
        some (⟨fresh, key⟩, .submitted (.reserve fresh)) := by
  cases stage with
  | reserve | refresh | mark | enqueue | withdraw => cases hphase
  | answered => exact .inl rfl
  | lookUp =>
      refine .inl ?_
      simp only [callPhase?, advanceStage]
      split <;> rfl
  | register =>
      cases hrunning : s.tracker.inFlight.find? key with
      | some running =>
          refine .inl ?_
          simp only [callPhase?, advanceStage, Tracker.register_of_eq_some hrunning]
          rfl
      | none =>
          refine .inr ⟨rfl, ?_⟩
          simp only [callPhase?, advanceStage, Tracker.register_of_eq_none hrunning]
          rfl

/-- What a call does next changes neither calls nor workers. -/
theorem submissions_advanceStage (s : Server σ) (key : TagKey) (fresh : BuildId) (now : Instant)
    (stage : SubmissionStage) :
    (s.advanceStage key fresh now stage).2.submissions = s.submissions ∧
      (s.advanceStage key fresh now stage).2.workers = s.workers := by
  obtain ⟨hcalls, hworkers, -⟩ := s.pending_advanceStage key fresh now stage
  exact ⟨hcalls, hworkers⟩

/-- Only a call that is to queue its build changes the queue. -/
theorem queue_advanceStage (s : Server σ) (key : TagKey) (fresh : BuildId) (now : Instant)
    (stage : SubmissionStage) (hstage : ∀ id, stage ≠ .enqueue id) :
    (s.advanceStage key fresh now stage).2.scheduler.queue = s.scheduler.queue := by
  cases stage with
  | enqueue id => exact absurd rfl (hstage id)
  | lookUp | register | refresh | mark =>
      simp only [advanceStage]
      split <;> rfl
  | reserve id =>
      simp only [advanceStage]
      split
      · next hreserve => exact Scheduler.queue_of_reserve hreserve
      · rfl
  | withdraw id holdsPlace e => cases holdsPlace <;> rfl
  | answered answer => rfl

/-- A call that makes a move takes the build that it holds to the next phase. -/
theorem shifts_advance {call : Nat} {key : TagKey} {stage : SubmissionStage}
    (hc : s.submissions[call]? = some ⟨key, stage⟩) (fresh : BuildId) (now : Instant) :
    Shifts s (s.advance call fresh now) (Submission.phase? ⟨key, stage⟩)
      (s.callPhase? key fresh now stage) := by
  obtain ⟨hcalls, hworkers⟩ := s.submissions_advanceStage key fresh now stage
  have hqueue := s.queue_advanceStage key fresh now stage
  simp only [advance, hc]
  cases stage with
  | enqueue id => exact shifts_of_schedule hc rfl rfl rfl rfl
  | lookUp | register | reserve | refresh | mark | withdraw | answered =>
      exact shifts_of_call hc (by rw [hcalls]) hworkers (hqueue fun _ h => by cases h)

/-- What a job does next changes neither calls, nor the queue, nor workers. -/
theorem scheduler_workStage (compile : Compiler) (s : Server σ) (request : BuildRequest)
    (deployment : DeployOutcome) (now : Instant) (stage : JobStage) :
    let after := (s.workStage compile request deployment now stage).2
    after.submissions = s.submissions ∧ after.scheduler = s.scheduler ∧
      after.workers = s.workers := by
  obtain ⟨hcalls, hscheduler, hworkers, -⟩ :=
    s.pending_workStage compile request deployment now stage
  exact ⟨hcalls, hscheduler, hworkers⟩

/-- A worker goes on with the next stage of its job, if there is one. -/
theorem work_of_busy {i : Nat} {r : BuildRequest} {stage : JobStage}
    (hw : s.workers[i]? = some (.busy ⟨r, stage⟩)) (compile : Compiler)
    (deployment : DeployOutcome) (now : Instant) :
    s.work compile i deployment now =
      (s.workStage compile r deployment now stage).2.setWorker i
        (((s.workStage compile r deployment now stage).1.map (Job.mk r)).elim .idle .busy) := by
  simp only [work, hw]
  generalize s.workStage compile r deployment now stage = after
  obtain ⟨next, s'⟩ := after
  cases next <;> rfl

/-- A move of a worker changes no calls. -/
theorem submissions_work (compile : Compiler) (s : Server σ) (i : Nat)
    (deployment : DeployOutcome) (now : Instant) :
    (s.work compile i deployment now).submissions = s.submissions := by
  cases s.turn_work compile i deployment now with
  | rests _ _ hsame => rw [hsame]
  | leaves _ _ _ hleft => rw [hleft, setWorker]
  | takes _ _ htaken => rw [htaken, setWorker]
  | @works r stage hw =>
      rw [work_of_busy hw]
      exact (s.scheduler_workStage compile r deployment now stage).1

/-- A worker that has a job leaves the queue alone. -/
theorem scheduler_work {i : Nat} {r : BuildRequest} {stage : JobStage}
    (hw : s.workers[i]? = some (.busy ⟨r, stage⟩)) (compile : Compiler)
    (deployment : DeployOutcome) (now : Instant) :
    (s.work compile i deployment now).scheduler = s.scheduler := by
  rw [work_of_busy hw]
  exact (s.scheduler_workStage compile r deployment now stage).2.1

/-- A worker that has a job goes on with it, or is idle again. -/
theorem workers_work {i : Nat} {r : BuildRequest} {stage : JobStage}
    (hw : s.workers[i]? = some (.busy ⟨r, stage⟩)) (compile : Compiler)
    (deployment : DeployOutcome) (now : Instant) :
    (s.work compile i deployment now).workers = s.workers.set i
      (((s.workStage compile r deployment now stage).1.map (Job.mk r)).elim .idle .busy) := by
  rw [work_of_busy hw]
  exact congrArg (List.set · i _) (s.scheduler_workStage compile r deployment now stage).2.2

/-- A worker that makes a move takes its build to the next phase, or ends it. -/
theorem shifts_work {i : Nat} {r : BuildRequest} {stage : JobStage}
    (hw : s.workers[i]? = some (.busy ⟨r, stage⟩)) (compile : Compiler)
    (deployment : DeployOutcome) (now : Instant) :
    Shifts s (s.work compile i deployment now) (some (r, .running stage))
      ((s.workStage compile r deployment now stage).1.map fun stage => (r, .running stage)) := by
  have hscheduler := scheduler_work hw compile deployment now
  have hshift := shifts_of_worker hw (workers_work hw compile deployment now)
    (s.submissions_work compile i deployment now) (congrArg Scheduler.queue hscheduler)
  cases hnext : (s.workStage compile r deployment now stage).1 with
  | some stage' =>
      rw [hnext] at hshift
      exact hshift
  | none =>
      rw [hnext] at hshift
      exact hshift

/-- An idle worker takes the next build from the queue. -/
theorem shifts_take {i : Nat} {r : BuildRequest} {scheduler : Scheduler BuildRequest}
    (hw : s.workers[i]? = some .idle) (htake : s.scheduler.take? = some (r, scheduler))
    (compile : Compiler) (deployment : DeployOutcome) (now : Instant) :
    Shifts s (s.work compile i deployment now) (some (r, .queued))
      (some (r, .running .fetchTag)) := by
  simp only [work, hw, htake]
  exact shifts_of_take (v := .busy ⟨r, .fetchTag⟩) hw rfl rfl rfl (Scheduler.queue_of_take htake)

/-- A call that has just been made holds nothing. -/
theorem phases_submit (compile : Compiler) (s : Server σ) (key : TagKey) :
    (s.step compile (.submit key)).phases = s.phases := by
  simp [step, phases, Submission.phase?, Submission.held?]

end Moves

/-! ## Builds apart -/

/-- The builds that stay in their phase have other tags and identifiers than the one whose
phase changes. -/
theorem apart_of_perm {rest : List (BuildRequest × Phase)} {x y : BuildRequest × Phase}
    (hperm : s.phases.Perm (x :: rest)) (ht : s.tracker.Tracks s.held) (hy : y ∈ rest) :
    y.1.id ≠ x.1.id ∧ y.1.key ≠ x.1.key := by
  have hheld : s.held.Perm (x.1 :: rest.map Prod.fst) := by
    rw [← map_fst_phases]
    exact hperm.map Prod.fst
  exact (ht.perm hheld.symm).ne_of_mem (List.mem_map_of_mem hy)

/-- What holds of every phase holds after a shift, if it holds of the new phase, and others
keep it as long as they are builds of another tag. -/
theorem Shifts.forall {P P' : BuildRequest × Phase → Prop} (h : Shifts s s' old new)
    (ht : s.tracker.Tracks s.held) (ht' : s'.tracker.Tracks s'.held) (hP : ∀ x ∈ s.phases, P x)
    (hnew : ∀ x ∈ new, P' x)
    (hrest : ∀ x ∈ s.phases, x ∈ s'.phases → P x →
      (∀ y, old = some y ∨ new = some y → x.1.id ≠ y.1.id ∧ x.1.key ≠ y.1.key) → P' x) :
    ∀ x ∈ s'.phases, P' x := by
  obtain ⟨rest, hbefore, hafter⟩ := h
  intro x hx
  rcases List.mem_append.mp (hafter.mem_iff.mp hx) with hmem | hmem
  · exact hnew x (Option.mem_toList.mp hmem)
  · have hx' : x ∈ s.phases := hbefore.mem_iff.mpr (List.mem_append_right _ hmem)
    refine hrest x hx' hx (hP x hx') fun y hy => ?_
    rcases hy with rfl | rfl
    · exact apart_of_perm hbefore ht hmem
    · exact apart_of_perm hafter ht' hmem

end Server

end RouteCompiler
