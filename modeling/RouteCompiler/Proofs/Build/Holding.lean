import RouteCompiler.Build.Server
import Mathlib.Data.List.Perm.Basic

/-!
# Who holds a build

From its registration on, a build passes from hand to hand: the call that registered
it, the queue, and a worker.  Who holds it decides what happens to it next, so every
move is one of a few kinds as far as builds are concerned.

Main definitions:

- `Server.held`: the builds that somebody holds.
- `Server.event?`: whether a move registers, discards or ends a build.
- `Server.Handled`: what a move does with the builds that are held, and which
  operation of the tracker goes with it.

Main results:

- Theorem `handled_step`: every move handles builds in one of these ways.
-/

namespace RouteCompiler

/-! ## Holders -/

/-- The build that a call holds: it has registered it, and has neither put it into the
queue nor withdrawn it. -/
def Submission.held? (c : Submission) : Option BuildRequest :=
  match c.stage with
  | .reserve id | .refresh id | .mark id _ | .enqueue id | .withdraw id _ _ => some ⟨id, c.key⟩
  | .lookUp | .register | .answered _ => none

/-- The build that a worker holds. -/
def Worker.held? : Worker → Option BuildRequest
  | .busy job => some job.request
  | .idle | .stopped => none

/-- Something that registers, discards or ends a build. -/
inductive BuildEvent where
  | registered (r : BuildRequest)
  | discarded (id : BuildId)
  | finished (id : BuildId)
  deriving DecidableEq, Repr

/-- What replacing an item of a list changes in the count of a test. -/
theorem countP_set_add {α : Type} {p : α → Bool} {l : List α} {i : Nat} {a : α}
    (h : l[i]? = some a) (b : α) :
    (l.set i b).countP p + (p a).toNat = l.countP p + (p b).toNat := by
  obtain ⟨hi, rfl⟩ := List.getElem?_eq_some_iff.mp h
  have hpos : p l[i] = true → 0 < l.countP p := fun hp =>
    List.countP_pos_iff.mpr ⟨l[i], List.getElem_mem hi, hp⟩
  rw [List.countP_set hi]
  cases hp : p l[i] with
  | false => cases p b <;> simp
  | true =>
      have hone := hpos hp
      cases p b <;> simp <;> omega

/-- What replacing an item of a list changes in a selection. -/
theorem count_filterMap_set {α β : Type} [DecidableEq β] {f : α → Option β} {l : List α}
    {i : Nat} {a : α} (h : l[i]? = some a) (b : α) (x : β) :
    (f a).toList.count x + ((l.set i b).filterMap f).count x =
      (f b).toList.count x + (l.filterMap f).count x := by
  have hcount (o : Option β) : o.toList.count x = (o == some x).toNat := by
    cases o with
    | none => rfl
    | some y =>
        by_cases hy : y = x
        · simp [hy]
        · simp [hy, beq_eq_false_iff_ne.mpr hy]
  have hset := countP_set_add (p := fun c => f c == some x) h b
  rw [List.count_filterMap, List.count_filterMap, hcount, hcount]
  omega

/-! ## The queue -/

namespace Scheduler

variable {α : Type} {s s' : Scheduler α} {a : α}

/-- Reserving a place queues nothing. -/
theorem queue_of_reserve (h : s.reserve = .ok s') : s'.queue = s.queue := by
  rw [reserve] at h
  split at h
  · cases h
  · split at h
    · cases h
    · rw [← Except.ok.inj h]

/-- What is taken was the first in the queue. -/
theorem queue_of_take (h : s.take? = some (a, s')) : s.queue = a :: s'.queue := by
  rw [take?] at h
  split at h
  · cases h
  · split at h
    · cases h
    · next first rest hqueue =>
      simp only [Option.some.injEq, Prod.mk.injEq] at h
      obtain ⟨rfl, rfl⟩ := h
      exact hqueue

end Scheduler

namespace Server

variable {σ : Type}

/-- The builds that somebody holds: calls, the queue, and workers. -/
def held (s : Server σ) : List BuildRequest :=
  s.submissions.filterMap Submission.held? ++ (s.scheduler.queue ++
    s.workers.filterMap Worker.held?)

/-- Whether a move registers, discards or ends a build. -/
def event? (s : Server σ) : Move → Option BuildEvent
  | .advance call fresh now =>
      match s.submissions[call]? with
      | some ⟨key, .register⟩ =>
          match (s.tracker.register key fresh now).1 with
          | .fresh id => some (.registered ⟨id, key⟩)
          | .existing _ => none
      | some ⟨_, .withdraw id _ _⟩ => some (.discarded id)
      | _ => none
  | .work worker _ _ =>
      match s.workers[worker]? with
      | some (.busy ⟨request, .report _⟩) => some (.finished request.id)
      | _ => none
  | .submit _ | .shutDown => none

/-- What a move does with the builds that are held, and which operation of the tracker
goes with it. -/
inductive Handled (s s' : Server σ) : Option BuildEvent → Prop
  | kept (hheld : s'.held.Perm s.held) (htracker : s'.tracker = s.tracker) : Handled s s' none
  | registered {r : BuildRequest} {now : Instant} (hfree : s.tracker.inFlight.find? r.key = none)
      (hheld : s'.held.Perm (r :: s.held))
      (htracker : s'.tracker = (s.tracker.register r.key r.id now).2) :
      Handled s s' (some (.registered r))
  | discarded {r : BuildRequest} (hheld : s.held.Perm (r :: s'.held))
      (htracker : s'.tracker = s.tracker.discard r.id) :
      Handled s s' (some (.discarded r.id))
  | started {r : BuildRequest} {now : Instant} (hr : r ∈ s.held) (hheld : s'.held.Perm s.held)
      (htracker : ∀ t, s.tracker.start r.id now = .ok t → s'.tracker = t) : Handled s s' none
  | finished {r : BuildRequest} {failure : Option String} {now : Instant}
      (hheld : s.held.Perm (r :: s'.held))
      (htracker : ∀ t, s.tracker.finish r.id failure now = .ok t → s'.tracker = t) :
      Handled s s' (some (.finished r.id))

/-! ## Handing over -/

section Hands

variable {s s' : Server σ} {call i : Nat} {c : Submission} {stage : SubmissionStage}
  {w w' : Worker} {r : BuildRequest}

theorem count_held (s : Server σ) (x : BuildRequest) :
    s.held.count x = (s.submissions.filterMap Submission.held?).count x +
      s.scheduler.queue.count x + (s.workers.filterMap Worker.held?).count x := by
  rw [held, List.count_append, List.count_append, Nat.add_assoc]

/-- A call goes on, and may put something into the queue. -/
theorem count_held_of_call (hc : s.submissions[call]? = some c)
    (hcalls : s'.submissions = s.submissions.set call { c with stage })
    (hworkers : s'.workers = s.workers) (x : BuildRequest) :
    c.held?.toList.count x + s.scheduler.queue.count x + s'.held.count x =
      ({ c with stage } : Submission).held?.toList.count x + s'.scheduler.queue.count x +
        s.held.count x := by
  have hset := count_filterMap_set (f := Submission.held?) hc { c with stage } x
  rw [count_held, count_held, hcalls, hworkers]
  omega

/-- A worker goes on, and may take something from the queue. -/
theorem count_held_of_worker (hw : s.workers[i]? = some w)
    (hworkers : s'.workers = s.workers.set i w') (hcalls : s'.submissions = s.submissions)
    (x : BuildRequest) :
    w.held?.toList.count x + s.scheduler.queue.count x + s'.held.count x =
      w'.held?.toList.count x + s'.scheduler.queue.count x + s.held.count x := by
  have hset := count_filterMap_set (f := Worker.held?) hw w' x
  rw [count_held, count_held, hcalls, hworkers]
  omega

/-- A call goes on with what it holds. -/
theorem perm_held_of_call (hc : s.submissions[call]? = some c)
    (hcalls : s'.submissions = s.submissions.set call { c with stage })
    (hworkers : s'.workers = s.workers) (hqueue : s'.scheduler.queue = s.scheduler.queue)
    (hheld : c.held? = ({ c with stage } : Submission).held?) : s'.held.Perm s.held := by
  refine List.perm_iff_count.mpr fun x => ?_
  have hcount := count_held_of_call hc hcalls hworkers x
  rw [hqueue, hheld] at hcount
  omega

/-- A call comes to hold a build. -/
theorem perm_held_of_gain (hc : s.submissions[call]? = some c)
    (hcalls : s'.submissions = s.submissions.set call { c with stage })
    (hworkers : s'.workers = s.workers) (hqueue : s'.scheduler.queue = s.scheduler.queue)
    (hbefore : c.held? = none) (hafter : ({ c with stage } : Submission).held? = some r) :
    s'.held.Perm (r :: s.held) := by
  refine List.perm_iff_count.mpr fun x => ?_
  have hcount := count_held_of_call hc hcalls hworkers x
  rw [hqueue, hbefore, hafter, Option.toList_none, Option.toList_some, List.count_nil,
    List.count_singleton] at hcount
  rw [List.count_cons]
  omega

/-- A call gives up the build that it holds. -/
theorem perm_held_of_loss (hc : s.submissions[call]? = some c)
    (hcalls : s'.submissions = s.submissions.set call { c with stage })
    (hworkers : s'.workers = s.workers) (hqueue : s'.scheduler.queue = s.scheduler.queue)
    (hbefore : c.held? = some r) (hafter : ({ c with stage } : Submission).held? = none) :
    s.held.Perm (r :: s'.held) := by
  refine List.perm_iff_count.mpr fun x => ?_
  have hcount := count_held_of_call hc hcalls hworkers x
  rw [hqueue, hbefore, hafter, Option.toList_none, Option.toList_some, List.count_nil,
    List.count_singleton] at hcount
  rw [List.count_cons]
  omega

/-- A call puts the build that it holds into the queue. -/
theorem perm_held_of_schedule (hc : s.submissions[call]? = some c)
    (hcalls : s'.submissions = s.submissions.set call { c with stage })
    (hworkers : s'.workers = s.workers) (hqueue : s'.scheduler.queue = s.scheduler.queue ++ [r])
    (hbefore : c.held? = some r) (hafter : ({ c with stage } : Submission).held? = none) :
    s'.held.Perm s.held := by
  refine List.perm_iff_count.mpr fun x => ?_
  have hcount := count_held_of_call hc hcalls hworkers x
  rw [hqueue, hbefore, hafter, Option.toList_none, Option.toList_some, List.count_nil,
    List.count_append] at hcount
  omega

/-- A worker goes on with what it holds. -/
theorem perm_held_of_worker (hw : s.workers[i]? = some w)
    (hworkers : s'.workers = s.workers.set i w') (hcalls : s'.submissions = s.submissions)
    (hqueue : s'.scheduler.queue = s.scheduler.queue) (hheld : w.held? = w'.held?) :
    s'.held.Perm s.held := by
  refine List.perm_iff_count.mpr fun x => ?_
  have hcount := count_held_of_worker hw hworkers hcalls x
  rw [hqueue, hheld] at hcount
  omega

/-- A worker takes the next build from the queue. -/
theorem perm_held_of_take (hw : s.workers[i]? = some w)
    (hworkers : s'.workers = s.workers.set i w') (hcalls : s'.submissions = s.submissions)
    (hqueue : s.scheduler.queue = r :: s'.scheduler.queue) (hbefore : w.held? = none)
    (hafter : w'.held? = some r) : s'.held.Perm s.held := by
  refine List.perm_iff_count.mpr fun x => ?_
  have hcount := count_held_of_worker hw hworkers hcalls x
  rw [hqueue, hbefore, hafter, Option.toList_none, Option.toList_some, List.count_nil,
    List.count_singleton, List.count_cons] at hcount
  omega

/-- A worker is done with its build. -/
theorem perm_held_of_end (hw : s.workers[i]? = some w)
    (hworkers : s'.workers = s.workers.set i w') (hcalls : s'.submissions = s.submissions)
    (hqueue : s'.scheduler.queue = s.scheduler.queue) (hbefore : w.held? = some r)
    (hafter : w'.held? = none) : s.held.Perm (r :: s'.held) := by
  refine List.perm_iff_count.mpr fun x => ?_
  have hcount := count_held_of_worker hw hworkers hcalls x
  rw [hqueue, hbefore, hafter, Option.toList_none, Option.toList_some, List.count_nil,
    List.count_singleton] at hcount
  rw [List.count_cons]
  omega

end Hands

/-! ## Moves -/

section Moves

variable [Store σ]

/-- A move of a call handles builds in one of the ways. -/
theorem handled_advance (s : Server σ) (call : Nat) (fresh : BuildId) (now : Instant) :
    Handled s (s.advance call fresh now) (s.event? (.advance call fresh now)) := by
  cases hc : s.submissions[call]? with
  | none =>
      simp only [advance, event?, hc]
      exact .kept (.refl _) rfl
  | some c =>
      obtain ⟨key, stage⟩ := c
      simp only [advance, event?, hc]
      cases stage with
      | lookUp =>
          simp only [advanceStage]
          split
          · exact .kept (perm_held_of_call hc rfl rfl rfl rfl) rfl
          · exact .kept (perm_held_of_call hc rfl rfl rfl rfl) rfl
      | register =>
          simp only [advanceStage]
          cases hrunning : s.tracker.inFlight.find? key with
          | none =>
              have hregister : s.tracker.register key fresh now =
                  (.fresh fresh, (s.tracker.register key fresh now).2) := by
                rw [Tracker.register, hrunning]
              rw [hregister]
              exact .registered (r := ⟨fresh, key⟩) hrunning
                (perm_held_of_gain hc rfl rfl rfl rfl rfl) rfl
          | some running =>
              have hregister : s.tracker.register key fresh now =
                  (.existing running, s.tracker) := by
                rw [Tracker.register, hrunning]
              rw [hregister]
              exact .kept (perm_held_of_call hc rfl rfl rfl rfl) rfl
      | reserve id =>
          simp only [advanceStage]
          split
          · next scheduler hreserve =>
            have hqueue := Scheduler.queue_of_reserve hreserve
            exact .kept (perm_held_of_call hc rfl rfl hqueue rfl) rfl
          · exact .kept (perm_held_of_call hc rfl rfl rfl rfl) rfl
      | refresh id =>
          simp only [advanceStage]
          split
          · exact .kept (perm_held_of_call hc rfl rfl rfl rfl) rfl
          · exact .kept (perm_held_of_call hc rfl rfl rfl rfl) rfl
      | mark id tag =>
          simp only [advanceStage]
          split
          · exact .kept (perm_held_of_call hc rfl rfl rfl rfl) rfl
          · exact .kept (perm_held_of_call hc rfl rfl rfl rfl) rfl
      | enqueue id => exact .kept (perm_held_of_schedule hc rfl rfl rfl rfl rfl) rfl
      | withdraw id holdsPlace e =>
          refine .discarded (r := ⟨id, key⟩) (perm_held_of_loss hc rfl rfl ?_ rfl rfl) rfl
          simp only [advanceStage]
          split <;> rfl
      | answered answer => exact .kept (perm_held_of_call hc rfl rfl rfl rfl) rfl

/-- A move of a job that asks nothing of the tracker leads to another stage, and changes
nothing but the store. -/
theorem exists_workStage_eq (compile : Compiler) (s : Server σ) (request : BuildRequest)
    (deployment : DeployOutcome) (now : Instant) (stage : JobStage)
    (hstart : ∀ tag snapshot, stage ≠ .start tag snapshot)
    (hreport : ∀ failure, stage ≠ .report failure) :
    ∃ stage' store, s.workStage compile request deployment now stage =
      (some stage', { s with store }) := by
  cases stage with
  | start tag snapshot => exact absurd rfl (hstart tag snapshot)
  | report failure => exact absurd rfl (hreport failure)
  | fetchTag | mark | generate | record =>
      simp only [workStage]
      split <;> exact ⟨_, _, rfl⟩
  | fetchSnapshot tag =>
      simp only [workStage]
      split <;> exact ⟨_, _, rfl⟩
  | deploy tag policies => exact ⟨_, _, rfl⟩

omit [Store σ] in
/-- What a worker is told by the tracker does not concern what is held. -/
theorem exists_trackerAfter_eq (s : Server σ) (result : Except BuildError Tracker) :
    ∃ tracker, s.trackerAfter result = { s with tracker } ∧
      ∀ t, result = .ok t → tracker = t := by
  cases result with
  | ok t => exact ⟨t, rfl, fun t' h => Except.ok.inj h⟩
  | error e => exact ⟨s.tracker, rfl, fun t h => by cases h⟩

/-- A move of a worker handles builds in one of the ways. -/
theorem handled_work (compile : Compiler) (s : Server σ) (i : Nat) (deployment : DeployOutcome)
    (now : Instant) :
    Handled s (s.work compile i deployment now) (s.event? (.work i deployment now)) := by
  cases hw : s.workers[i]? with
  | none =>
      simp only [work, event?, hw]
      exact .kept (.refl _) rfl
  | some w =>
      cases w with
      | stopped =>
          simp only [work, event?, hw]
          exact .kept (.refl _) rfl
      | idle =>
          simp only [work, event?, hw]
          split
          · next request scheduler htake =>
            exact .kept (perm_held_of_take hw rfl rfl (Scheduler.queue_of_take htake) rfl rfl) rfl
          · split
            · exact .kept (perm_held_of_worker hw rfl rfl rfl rfl) rfl
            · exact .kept (.refl _) rfl
      | busy job =>
          obtain ⟨request, stage⟩ := job
          have hrequest : request ∈ s.held := by
            refine List.mem_append_right _ (List.mem_append_right _ ?_)
            exact List.mem_filterMap.mpr ⟨_, List.mem_of_getElem? hw, rfl⟩
          have hquiet := s.exists_workStage_eq compile request deployment now stage
          simp only [work, event?, hw]
          cases stage with
          | start tag snapshot =>
              obtain ⟨tracker, hserver, htracker⟩ :=
                s.exists_trackerAfter_eq (s.tracker.start request.id now)
              simp only [workStage, hserver]
              exact .started hrequest (perm_held_of_worker hw rfl rfl rfl rfl) htracker
          | report failure =>
              obtain ⟨tracker, hserver, htracker⟩ :=
                s.exists_trackerAfter_eq (s.tracker.finish request.id failure now)
              simp only [workStage, hserver]
              exact .finished (perm_held_of_end hw rfl rfl rfl rfl rfl) htracker
          | fetchTag | fetchSnapshot | mark | generate | deploy | record =>
              obtain ⟨stage', store, hstage⟩ :=
                hquiet (fun _ _ h => by cases h) fun _ h => by cases h
              rw [hstage]
              exact .kept (perm_held_of_worker hw rfl rfl rfl rfl) rfl

/-- Every move handles builds in one of the ways. -/
theorem handled_step (compile : Compiler) (s : Server σ) (move : Move) :
    Handled s (s.step compile move) (s.event? move) := by
  cases move with
  | submit key =>
      refine .kept (.of_eq ?_) rfl
      simp [step, held, Submission.held?]
  | advance call fresh now => exact s.handled_advance call fresh now
  | work worker deployment now => exact s.handled_work compile worker deployment now
  | shutDown => exact .kept (.refl _) rfl

end Moves

end Server

end RouteCompiler
