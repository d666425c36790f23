import RouteCompiler.Proofs.Build.Phases

/-!
# Places in the queue

The queue counts the places that are reserved and does not know for whom.  This module
shows who has them: calls on their way from the reservation to the queue.  So no place is
given back that was not reserved, the queue holds no more than it may, and a worker that
leaves misses nothing.

Main definitions:

- `Phase.hasPlace`: whether a build in a phase has a place reserved.
- `Server.Places`: the queue counts these places, and keeps within its bounds.

Main results:

- Theorem `places_play`: it does so after every interleaving.
- Theorem `Places.queue_eq_nil`: a server that has shut down has nothing left in its queue.
-/

namespace RouteCompiler

/-- Whether a build in a phase has a place reserved in the queue. -/
def Phase.hasPlace : Phase → Bool
  | .submitted (.refresh _) | .submitted (.mark ..) | .submitted (.enqueue _)
  | .submitted (.withdraw _ true _) => true
  | .submitted _ | .queued | .running _ => false

/-- A queue is exhausted if it is shut down, empty, and no place in it is reserved. -/
theorem Scheduler.isExhausted_iff {α : Type} {s : Scheduler α} :
    s.isExhausted ↔ s.isShutDown = true ∧ s.reserved = 0 ∧ s.queue = [] := by
  rw [isExhausted, Bool.and_eq_true, Bool.and_eq_true, beq_iff_eq, List.isEmpty_iff, and_assoc]

/-- A place can be reserved in a queue that is open and not full. -/
theorem Scheduler.of_reserve {α : Type} {s s' : Scheduler α} (h : s.reserve = .ok s') :
    s.isShutDown = false ∧ s.occupied < s.capacity ∧
      s' = { s with reserved := s.reserved + 1 } := by
  rw [reserve] at h
  split at h
  · cases h
  next hopen =>
  split at h
  · cases h
  next hfull =>
  rw [Bool.or_eq_true, not_or, Bool.not_eq_true] at hopen
  exact ⟨hopen.1, Nat.lt_of_not_le hfull, (Except.ok.inj h).symm⟩

/-- Giving a reserved place back undoes the reservation. -/
theorem Scheduler.release_of_reserve {α : Type} {s s' : Scheduler α} (h : s.reserve = .ok s') :
    s'.release = s := by
  obtain ⟨-, -, rfl⟩ := of_reserve h
  rfl

/-- Taking something from a queue changes nothing else of it. -/
theorem Scheduler.eq_of_take {α : Type} {s s' : Scheduler α} {a : α}
    (h : s.take? = some (a, s')) : s' = { s with queue := s'.queue } := by
  rw [take?] at h
  split at h
  · cases h
  · split at h
    · cases h
    · obtain ⟨-, rfl⟩ := Prod.mk.inj (Option.some.inj h)
      rfl

namespace Server

variable {σ : Type} {s s' : Server σ} {config : SchedulerConfig}
  {old new : Option (BuildRequest × Phase)}

/-- The queue counts the places of those who have one reserved, it holds no more than it
may, and workers stay as long as something can come. -/
structure Places (s : Server σ) (config : SchedulerConfig) : Prop where
  config_eq : s.scheduler.config = config
  reserved_eq : s.scheduler.reserved = s.phases.countP fun x => x.2.hasPlace
  occupied_le : s.scheduler.occupied ≤ s.scheduler.capacity
  workers_ne : s.workers ≠ []
  stopped : ∀ w ∈ s.workers, w.isStopped → s.scheduler.isExhausted

/-- A server that has started has all places free. -/
theorem places_start {config : ServerConfig} {store : σ}
    (h : Server.start config store = .ok s) : s.Places config.scheduler := by
  have hphases := phases_start h
  obtain rfl := eq_of_start h
  refine ⟨rfl, ?_, Nat.zero_le _, ?_, fun w hw hstopped => ?_⟩
  · rw [hphases]
    rfl
  · simp
  · rw [List.eq_of_mem_replicate hw] at hstopped
    cases hstopped

/-- In a server that has shut down nothing is queued. -/
theorem Places.queue_eq_nil (h : s.Places config) (hdown : s.hasShutDown) :
    s.scheduler.queue = [] := by
  rw [hasShutDown, Bool.and_eq_true] at hdown
  obtain ⟨w, hw⟩ := List.exists_mem_of_ne_nil _ h.workers_ne
  have hexhausted := h.stopped w hw (List.all_eq_true.mp hdown.2 w hw)
  exact (Scheduler.isExhausted_iff.mp hexhausted).2.2

/-- Places are as they were where nobody comes to have one or gives one up, and no worker
leaves. -/
theorem Places.of_shift (h : s.Places config) (hshift : Shifts s s' old new)
    (hplace : (old.any fun x => x.2.hasPlace) = new.any fun x => x.2.hasPlace)
    (hscheduler : s'.scheduler = s.scheduler) (hworkers : s'.workers ≠ [])
    (hstopped : ∀ w ∈ s'.workers, w.isStopped → w ∈ s.workers) : s'.Places config := by
  have hcount := hshift.countP_add fun x => x.2.hasPlace
  rw [hplace, Nat.add_right_cancel_iff] at hcount
  refine ⟨hscheduler ▸ h.config_eq, ?_, hscheduler ▸ h.occupied_le, hworkers, ?_⟩
  · rw [hscheduler, hcount]
    exact h.reserved_eq
  · intro w hw hw'
    rw [hscheduler]
    exact h.stopped w (hstopped w hw hw') hw'

/-- Where somebody has a place reserved, no worker has left. -/
theorem Places.waits (h : s.Places config) {x : BuildRequest × Phase} (hx : x ∈ s.phases)
    (hplace : x.2.hasPlace) :
    0 < s.scheduler.reserved ∧ ∀ w ∈ s.workers, w.isStopped = false := by
  have hpos : 0 < s.scheduler.reserved := by
    rw [h.reserved_eq]
    exact List.countP_pos_iff.mpr ⟨x, hx, hplace⟩
  refine ⟨hpos, fun w hw => Bool.eq_false_iff.mpr fun hstopped => ?_⟩
  have hnone := (Scheduler.isExhausted_iff.mp (h.stopped w hw hstopped)).2.1
  omega

/-- Places are counted where somebody uses a reserved place, or gives it back. -/
theorem Places.of_return (h : s.Places config) {x : BuildRequest × Phase} (hx : x ∈ s.phases)
    (hplace : x.2.hasPlace)
    (hcount : s.scheduler.reserved = (s'.phases.countP fun x => x.2.hasPlace) + 1)
    (hconfig : s'.scheduler.config = s.scheduler.config)
    (hreserved : s'.scheduler.reserved = s.scheduler.reserved - 1)
    (hqueue : s'.scheduler.queue.length ≤ s.scheduler.queue.length + 1)
    (hworkers : s'.workers = s.workers) : s'.Places config := by
  obtain ⟨hpos, hwaits⟩ := h.waits hx hplace
  have hbound := h.occupied_le
  refine ⟨hconfig.trans h.config_eq, ?_, ?_, hworkers ▸ h.workers_ne, fun w hw hstopped => ?_⟩
  · exact hreserved.trans (Nat.sub_eq_of_eq_add hcount)
  · simp only [Scheduler.occupied, Scheduler.capacity, hconfig] at hbound ⊢
    omega
  · rw [hwaits w (hworkers ▸ hw)] at hstopped
    cases hstopped

/-- Places are counted where somebody reserves one. -/
theorem Places.of_reserve (h : s.Places config) {scheduler : Scheduler BuildRequest}
    (hreserve : s.scheduler.reserve = .ok scheduler)
    (hcount : (s'.phases.countP fun x => x.2.hasPlace) = s.scheduler.reserved + 1)
    (hscheduler : s'.scheduler = scheduler) (hworkers : s'.workers = s.workers) :
    s'.Places config := by
  obtain ⟨hopen, hfree, rfl⟩ := Scheduler.of_reserve hreserve
  refine ⟨?_, ?_, ?_, hworkers ▸ h.workers_ne, fun w hw hstopped => ?_⟩
  · rw [hscheduler]
    exact h.config_eq
  · rw [hcount, hscheduler]
  · rw [hscheduler]
    simp only [Scheduler.occupied, Scheduler.capacity] at hfree ⊢
    omega
  · have hdown := (Scheduler.isExhausted_iff.mp (h.stopped w (hworkers ▸ hw) hstopped)).1
    rw [hopen] at hdown
    cases hdown

section Moves

variable [Store σ]

/-- A move of a call keeps count of places. -/
theorem Places.advance (h : s.Places config) (call : Nat) (fresh : BuildId) (now : Instant) :
    (s.advance call fresh now).Places config := by
  cases hc : s.submissions[call]? with
  | none =>
      simp only [Server.advance, hc]
      exact h
  | some c =>
      obtain ⟨key, stage⟩ := c
      have hshift := shifts_advance hc fresh now
      have hworkers := (s.submissions_advanceStage key fresh now stage).2
      have hcount := hshift.countP_add fun x => x.2.hasPlace
      rw [← h.reserved_eq] at hcount
      simp only [Server.advance, hc] at hshift hcount ⊢
      have hquiet := h.of_shift hshift
      cases stage with
      | lookUp | register | refresh | mark =>
          refine hquiet ?_ ?_ (hworkers ▸ h.workers_ne) fun w hw _ => hworkers ▸ hw
          · simp only [callPhase?, advanceStage]
            split <;> rfl
          · simp only [advanceStage]
            split <;> rfl
      | answered answer => exact hquiet rfl rfl h.workers_ne fun w hw _ => hw
      | reserve id =>
          cases hreserve : s.scheduler.reserve with
          | error e =>
              refine hquiet ?_ ?_ (hworkers ▸ h.workers_ne) fun w hw _ => hworkers ▸ hw
              · simp only [callPhase?, advanceStage, hreserve]
                rfl
              · simp only [advanceStage, hreserve]
          | ok scheduler =>
              simp only [callPhase?, advanceStage, hreserve] at hcount ⊢
              exact h.of_reserve hreserve hcount rfl rfl
      | enqueue id =>
          exact h.of_return (mem_phases_of_call hc rfl) rfl hcount.symm rfl rfl
            (by simp [advanceStage, Scheduler.schedule]) rfl
      | withdraw id holdsPlace e =>
          cases holdsPlace with
          | false => exact hquiet rfl rfl h.workers_ne fun w hw _ => hw
          | true =>
              exact h.of_return (mem_phases_of_call hc rfl) rfl hcount.symm rfl rfl
                (Nat.le_succ _) rfl

/-- A move of a worker keeps count of places. -/
theorem Places.work (h : s.Places config) (compile : Compiler) (i : Nat)
    (deployment : DeployOutcome) (now : Instant) :
    (s.work compile i deployment now).Places config := by
  have hne (w : Worker) : s.workers.set i w ≠ [] := by
    rw [ne_eq, List.set_eq_nil_iff]
    exact h.workers_ne
  have hstays {w : Worker} (hw : w.isStopped = false) :
      ∀ v ∈ s.workers.set i w, v.isStopped → v ∈ s.workers := by
    intro v hv hstopped
    rcases List.mem_or_eq_of_mem_set hv with hv | rfl
    · exact hv
    · rw [hw] at hstopped
      cases hstopped
  cases s.turn_work compile i deployment now with
  | rests _ _ hsame =>
      rw [hsame]
      exact h
  | leaves hidle _ hexhausted hleft =>
      rw [hleft]
      refine ⟨h.config_eq, ?_, h.occupied_le, hne _, fun _ _ _ => hexhausted⟩
      exact h.reserved_eq.trans ((shifts_stop hidle).perm.symm.countP_eq _)
  | takes hidle htake htaken =>
      have hcount := (shifts_take hidle htake compile deployment now).countP_add
        fun x => x.2.hasPlace
      have hqueue := Scheduler.queue_of_take htake
      have hscheduler := Scheduler.eq_of_take htake
      have hbound := h.occupied_le
      rw [htaken] at hcount ⊢
      refine ⟨?_, ?_, ?_, hne _, fun v hv hstopped => ?_⟩
      · exact (congrArg Scheduler.config hscheduler).trans h.config_eq
      · exact (congrArg Scheduler.reserved hscheduler).trans (h.reserved_eq.trans hcount.symm)
      · have hlength := congrArg List.length hqueue
        rw [List.length_cons] at hlength
        have hreserved := congrArg Scheduler.reserved hscheduler
        have hconfig := congrArg Scheduler.config hscheduler
        simp only [Scheduler.occupied, Scheduler.capacity, setWorker] at hbound ⊢
        rw [hreserved, hconfig]
        simp only
        omega
      · -- A worker that has left has left an empty queue behind.
        have hexhausted := h.stopped v (hstays rfl v hv hstopped) hstopped
        rw [(Scheduler.isExhausted_iff.mp hexhausted).2.2] at hqueue
        cases hqueue
  | @works r stage hw =>
      have hworkers := workers_work hw compile deployment now
      refine h.of_shift (shifts_work hw compile deployment now) ?_
        (scheduler_work hw compile deployment now) (hworkers ▸ hne _) (hworkers ▸ hstays ?_)
      all_goals cases (s.workStage compile r deployment now stage).1 <;> rfl

/-- Every action keeps count of places. -/
theorem Places.act (h : s.Places config) (action : Action σ) : (s.act action).Places config := by
  cases action with
  | change f => exact h.of_shift (shifts_of_eq rfl) rfl rfl h.workers_ne fun w hw _ => hw
  | move compile move =>
      cases move with
      | submit key =>
          exact h.of_shift (shifts_of_eq (s.phases_submit compile key)) rfl rfl h.workers_ne
            fun w hw _ => hw
      | shutDown =>
          refine ⟨h.config_eq, h.reserved_eq, h.occupied_le, h.workers_ne, fun w hw hstopped => ?_⟩
          have hexhausted := Scheduler.isExhausted_iff.mp (h.stopped w hw hstopped)
          exact Scheduler.isExhausted_iff.mpr ⟨rfl, hexhausted.2⟩
      | advance call fresh now => exact h.advance call fresh now
      | work worker deployment now => exact h.work compile worker deployment now

/-- After every interleaving the queue keeps count of places. -/
theorem places_play {config : ServerConfig} {store : σ} {s₀ : Server σ}
    (hstart : Server.start config store = .ok s₀) (actions : List (Action σ)) :
    (s₀.play actions).Places config.scheduler := by
  induction actions using List.reverseRecOn with
  | nil => exact places_start hstart
  | append_singleton actions action ih =>
      rw [play_concat]
      exact ih.act action

end Moves

end Server

end RouteCompiler
