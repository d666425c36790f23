import RouteCompiler.Proofs.Build.InFlight
import Mathlib.Data.List.Induction

/-!
# Interleavings

Calls and workers of a server move in any order, and its store may be changed by others
between any two moves.  How a snapshot is generated may change from move to move as well:
a generator remembers what it was asked before, and looks at files.  This module plays
such interleavings, and logs what is observed in them.

Main definitions:

- `Action`: a move, or a change of the store from outside.
- `Server.play`: the server after some actions.
- `Server.log`: what is observed at the actions of an interleaving.
- `Server.DrawsOnce`: no identifier is drawn twice.

Main results:

- Theorem `mem_log`: what is logged was observed at one of the actions.
- Theorem `consistent_play`: after every interleaving the records of the tracker, the
  holders of builds and the history agree.
- Theorem `drawn_and_not_held_of_left`: a build that was discarded or has ended is held by
  nobody any more.
- Theorem `nodup_left`: no build is discarded or ends twice.
-/

namespace RouteCompiler

/-- Something that happens to a server: a move, with the way in which a snapshot is
generated at that moment, or a change of the store from outside. -/
inductive Action (σ : Type) where
  | move (compile : Compiler) (move : Move)
  | change (f : σ → σ)

/-- The build that an event discards or ends. -/
def BuildEvent.left? : BuildEvent → Option BuildId
  | .registered _ => none
  | .discarded id | .finished id => some id

namespace Server

variable {σ α : Type} [Store σ] {s s₀ : Server σ} {actions later : List (Action σ)}

/-! ## Starting -/

omit [Store σ] in
/-- A server that has started has no calls, no records and an empty queue, and all its
workers are idle. -/
theorem eq_of_start {config : ServerConfig} {store : σ}
    (h : Server.start config store = .ok s) :
    s = ⟨store, .empty config.historyLimit.toNat, .start config.scheduler, [],
      List.replicate (max 1 config.scheduler.poolSize.toNat) .idle⟩ := by
  obtain ⟨-, -, hs⟩ := Outcome.of_bind_eq_ok h
  exact (Except.ok.inj hs).symm

omit [Store σ] in
/-- Who starts a server lets builds wait. -/
theorem maxQueueSize_pos_of_start {config : ServerConfig} {store : σ}
    (h : Server.start config store = .ok s) : 0 < config.scheduler.maxQueueSize.toNat := by
  refine Nat.pos_of_ne_zero fun hzero => ?_
  have hmax : config.scheduler.maxQueueSize = 0 := UInt64.toNat_inj.mp hzero
  obtain ⟨_, hvalid, -⟩ := Outcome.of_bind_eq_ok h
  rw [ServerConfig.validate, if_pos hmax] at hvalid
  split at hvalid <;> cases hvalid

/-! ## Playing -/

/-- The server after an action. -/
def act (s : Server σ) : Action σ → Server σ
  | .move compile move => s.step compile move
  | .change f => { s with store := f s.store }

/-- The server after some actions. -/
def play (s : Server σ) (actions : List (Action σ)) : Server σ :=
  actions.foldl act s

/-- What is observed at some actions, each time before it happens, in order. -/
def log (observe : Server σ → Action σ → Option α) : Server σ → List (Action σ) → List α
  | _, [] => []
  | s, action :: actions => (observe s action).toList ++ log observe (s.act action) actions

theorem play_append (s : Server σ) (actions later : List (Action σ)) :
    s.play (actions ++ later) = (s.play actions).play later :=
  List.foldl_append

theorem play_concat (s : Server σ) (actions : List (Action σ)) (action : Action σ) :
    s.play (actions ++ [action]) = (s.play actions).act action :=
  s.play_append actions [action]

variable {observe : Server σ → Action σ → Option α}

theorem log_append (s : Server σ) (actions later : List (Action σ)) :
    s.log observe (actions ++ later) =
      s.log observe actions ++ (s.play actions).log observe later := by
  induction actions generalizing s with
  | nil => rfl
  | cons action actions ih =>
      rw [List.cons_append, log, log, ih, List.append_assoc]
      rfl

theorem log_concat (s : Server σ) (actions : List (Action σ)) (action : Action σ) :
    s.log observe (actions ++ [action]) =
      s.log observe actions ++ (observe (s.play actions) action).toList := by
  rw [log_append, log, log, List.append_nil]

/-- What is logged was observed at one of the actions. -/
theorem mem_log {a : α} :
    a ∈ s.log observe actions ↔ ∃ before action later, actions = before ++ action :: later ∧
      observe (s.play before) action = some a := by
  constructor
  · intro h
    induction actions generalizing s with
    | nil => cases h
    | cons action actions ih =>
        rw [log, List.mem_append, Option.mem_toList] at h
        rcases h with hnow | hlater
        · exact ⟨[], action, actions, rfl, hnow⟩
        · obtain ⟨before, action', later, rfl, hobserve⟩ := ih hlater
          exact ⟨action :: before, action', later, rfl, hobserve⟩
  · rintro ⟨before, action, later, rfl, hobserve⟩
    rw [log_append, log, hobserve]
    simp

/-! ## History -/

omit [Store σ] in
/-- Whether an action registers, discards or ends a build. -/
def eventOf? (s : Server σ) : Action σ → Option BuildEvent
  | .move _ move => s.event? move
  | .change _ => none

/-- What some actions register, discard and end, in order. -/
def events (s : Server σ) (actions : List (Action σ)) : List BuildEvent :=
  s.log eventOf? actions

/-- The identifiers that some actions draw for builds. -/
def drawn (s : Server σ) (actions : List (Action σ)) : List BuildId :=
  (s.events actions).filterMap BuildEvent.drawn?

/-- No identifier is drawn twice. -/
def DrawsOnce (s : Server σ) (actions : List (Action σ)) : Prop :=
  (s.drawn actions).Nodup

instance (s : Server σ) (actions : List (Action σ)) : Decidable (s.DrawsOnce actions) :=
  inferInstanceAs (Decidable (List.Nodup _))

theorem events_concat (s : Server σ) (actions : List (Action σ)) (action : Action σ) :
    s.events (actions ++ [action]) =
      s.events actions ++ ((s.play actions).eventOf? action).toList :=
  s.log_concat actions action

theorem drawn_append (s : Server σ) (actions later : List (Action σ)) :
    s.drawn (actions ++ later) = s.drawn actions ++ (s.play actions).drawn later := by
  rw [drawn, events, log_append, List.filterMap_append]
  rfl

theorem DrawsOnce.of_append (h : s.DrawsOnce (actions ++ later)) : s.DrawsOnce actions := by
  rw [DrawsOnce, drawn_append] at h
  exact (List.nodup_append.mp h).1

theorem mem_drawn {id : BuildId} :
    id ∈ s.drawn actions ↔ ∃ key, .registered ⟨id, key⟩ ∈ s.events actions := by
  rw [drawn, List.mem_filterMap]
  constructor
  · rintro ⟨event, hevent, hid⟩
    cases event with
    | registered r =>
        obtain rfl := Option.some.inj hid
        exact ⟨r.key, hevent⟩
    | discarded | finished => cases hid
  · rintro ⟨key, hevent⟩
    exact ⟨_, hevent, rfl⟩

/-! ## Agreement -/

/-- Every action handles builds in one of the ways. -/
theorem handled_act (s : Server σ) (action : Action σ) :
    Handled s (s.act action) (s.eventOf? action) := by
  cases action with
  | move compile move => exact s.handled_step compile move
  | change f => exact .kept (.refl _) rfl

/-- After every interleaving the records of the tracker, the holders of builds and the
history agree. -/
theorem consistent_play {config : ServerConfig} {store : σ}
    (hstart : Server.start config store = .ok s₀) (hfresh : s₀.DrawsOnce actions) :
    (s₀.play actions).Consistent (s₀.events actions) := by
  induction actions using List.reverseRecOn with
  | nil => exact consistent_start hstart
  | append_singleton actions action ih =>
      have hearlier := ih hfresh.of_append
      rw [DrawsOnce, drawn, events_concat] at hfresh
      rw [play_concat, events_concat]
      exact hearlier.handled ((s₀.play actions).handled_act action) hfresh

omit [Store σ] in
/-- The identifier of a build that is held was drawn. -/
theorem Consistent.drawn_of_mem {events : List BuildEvent} (h : s.Consistent events)
    {r : BuildRequest} (hr : r ∈ s.held) : r.id ∈ events.filterMap BuildEvent.drawn? := by
  obtain ⟨record, hrecord, -⟩ := h.tracks.exists_record hr
  exact h.within r.id record hrecord

/-! ## Builds that have left -/

omit [Store σ] in
/-- Only a registration lets somebody come to hold a build. -/
theorem Handled.mem_or_registered {s' : Server σ} {event : Option BuildEvent}
    (h : Handled s s' event) {r : BuildRequest} (hr : r ∈ s'.held) :
    r ∈ s.held ∨ event = some (.registered r) := by
  cases h with
  | kept hheld | started _ hheld => exact .inl (hheld.mem_iff.mp hr)
  | registered _ hheld =>
      rcases List.mem_cons.mp (hheld.mem_iff.mp hr) with rfl | hr
      · exact .inr rfl
      · exact .inl hr
  | discarded hheld | finished hheld =>
      exact .inl (hheld.symm.mem_iff.mp (List.mem_cons_of_mem _ hr))

omit [Store σ] in
/-- A build that is discarded or ends was held, and is held no longer. -/
theorem Handled.perm_of_left {s' : Server σ} {event : BuildEvent} {id : BuildId}
    (h : Handled s s' (some event)) (hleft : event.left? = some id) :
    ∃ r : BuildRequest, r.id = id ∧ s.held.Perm (r :: s'.held) := by
  cases h with
  | registered => cases hleft
  | discarded hheld | finished hheld => exact ⟨_, Option.some.inj hleft, hheld⟩

/-- A build that was discarded or has ended was registered before, and is held by nobody
any more. -/
theorem drawn_and_not_held_of_left {config : ServerConfig} {store : σ} {id : BuildId}
    (hstart : Server.start config store = .ok s₀) (hfresh : s₀.DrawsOnce actions)
    (hleft : id ∈ (s₀.events actions).filterMap BuildEvent.left?) :
    id ∈ s₀.drawn actions ∧ ∀ r ∈ (s₀.play actions).held, r.id ≠ id := by
  induction actions using List.reverseRecOn with
  | nil => cases hleft
  | append_singleton actions action ih =>
      have hearlier : (s₀.play actions).Consistent (s₀.events actions) :=
        consistent_play hstart hfresh.of_append
      have hhandled := (s₀.play actions).handled_act action
      have hfresh' := hfresh
      rw [DrawsOnce, drawn, events_concat, List.filterMap_append, List.nodup_append] at hfresh'
      rw [events_concat, List.filterMap_append, List.mem_append] at hleft
      rw [drawn, events_concat, play_concat, List.filterMap_append, List.mem_append]
      rcases hleft with hleft | hleft
      · -- Who has left before stays away, since a registration draws another identifier.
        obtain ⟨hdrawn, hnot⟩ := ih hfresh.of_append hleft
        refine ⟨.inl hdrawn, fun r hr hid => ?_⟩
        rcases hhandled.mem_or_registered hr with hr | hevent
        · exact hnot r hr hid
        · refine hfresh'.2.2 id hdrawn id ?_ rfl
          rw [hevent, ← hid]
          exact List.mem_singleton_self _
      · obtain ⟨event, hevent, hid⟩ := List.mem_filterMap.mp hleft
        rw [Option.mem_toList.mp hevent] at hhandled
        obtain ⟨r, rfl, hheld⟩ := hhandled.perm_of_left hid
        refine ⟨.inl (hearlier.drawn_of_mem (hheld.mem_iff.mpr List.mem_cons_self)), ?_⟩
        exact fun r' hr' => ((hearlier.tracks.perm hheld.symm).ne_of_mem hr').1

/-- No build is discarded or ends twice. -/
theorem nodup_left {config : ServerConfig} {store : σ}
    (hstart : Server.start config store = .ok s₀) (hfresh : s₀.DrawsOnce actions) :
    ((s₀.events actions).filterMap BuildEvent.left?).Nodup := by
  induction actions using List.reverseRecOn with
  | nil => exact List.nodup_nil
  | append_singleton actions action ih =>
      rw [events_concat, List.filterMap_append, List.nodup_append]
      refine ⟨ih hfresh.of_append, ?_, fun id hid id' hid' heq => ?_⟩
      · cases (s₀.play actions).eventOf? action with
        | none => exact List.nodup_nil
        | some event =>
            cases event with
            | registered => exact List.nodup_nil
            | discarded | finished => exact List.nodup_singleton _
      · obtain ⟨event, hevent, hleft⟩ := List.mem_filterMap.mp hid'
        have hhandled := (s₀.play actions).handled_act action
        rw [Option.mem_toList.mp hevent] at hhandled
        obtain ⟨r, hr, hheld⟩ := hhandled.perm_of_left hleft
        refine (drawn_and_not_held_of_left hstart hfresh.of_append hid).2 r ?_ (hr.trans heq.symm)
        exact hheld.mem_iff.mpr List.mem_cons_self

end Server

end RouteCompiler
