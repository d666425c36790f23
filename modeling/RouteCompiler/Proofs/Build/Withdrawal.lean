import RouteCompiler.Build.Run
import RouteCompiler.Proofs.Build.Custody

/-!
# Withdrawn builds

A call that registers a build withdraws it if it fails to queue it.  Meanwhile another call
for the same tag may have been told of that build.  This module says exactly when a build
that somebody was told of is withdrawn, and what those who wait for it hear.

Main results:

- Theorem `call_act`: an action leaves a call as it is, makes one, or takes one on.
- Theorem `owner_of_play`: who holds a build goes on to hold it, has queued it, or has
  discarded it and failed.
- Theorem `discarded_iff_owner_fails`: a build of which a call was told is discarded if and
  only if the call that holds it fails.
-/

namespace RouteCompiler.Server

variable {σ : Type} [Store σ] {s s₀ : Server σ} {action : Action σ}
  {actions before later : List (Action σ)} {config : ServerConfig} {store : σ} {r : BuildRequest}
  {call owner : Nat} {id : BuildId} {answer : Except BuildError BuildId}

/-! ## Calls -/

/-- An action leaves a call as it is, makes one, or takes one on. -/
theorem call_act (s : Server σ) (action : Action σ) (call : Nat) :
    (s.act action).submissions[call]? = s.submissions[call]? ∨
    (∃ key, (s.act action).submissions[call]? = some ⟨key, .lookUp⟩) ∧
      s.submissions[call]? = none ∨
    ∃ compile fresh now key stage, action = .move compile (.advance call fresh now) ∧
      s.submissions[call]? = some ⟨key, stage⟩ ∧ (s.act action).submissions[call]? =
        some ⟨key, (s.advanceStage key fresh now stage).1⟩ := by
  cases action with
  | change f => exact .inl rfl
  | move compile move =>
      cases move with
      | shutDown => exact .inl rfl
      | submit key =>
          simp only [act, step]
          rcases Nat.lt_trichotomy call s.submissions.length with hlt | heq | hgt
          · exact .inl (List.getElem?_append_left hlt)
          · refine .inr (.inl ⟨⟨key, ?_⟩, ?_⟩)
            · rw [heq, List.getElem?_concat_length]
            · exact List.getElem?_eq_none (Nat.le_of_eq heq.symm)
          · refine .inl ?_
            rw [List.getElem?_eq_none (Nat.le_of_lt hgt), List.getElem?_eq_none]
            rw [List.length_append]
            exact hgt
      | work worker deployment now =>
          exact .inl (congrArg (·[call]?) (s.submissions_work compile worker deployment now))
      | advance other fresh now =>
          cases hc : s.submissions[other]? with
          | none =>
              refine .inl ?_
              simp only [act, step, advance, hc]
          | some c =>
              have hcalls := (s.submissions_advanceStage c.key fresh now c.stage).1
              simp only [act, step, advance, hc, hcalls]
              by_cases hcall : other = call
              · obtain rfl := hcall
                have hlt := (List.getElem?_eq_some_iff.mp hc).1
                refine .inr (.inr ⟨compile, fresh, now, c.key, c.stage, rfl, hc, ?_⟩)
                rw [List.getElem?_set_self hlt]
              · rw [List.getElem?_set_ne hcall]
                exact .inl rfl

omit [Store σ] in
theorem answerOf_eq_some :
    s.answerOf? call = some answer ↔
      ∃ key, s.submissions[call]? = some ⟨key, .answered answer⟩ := by
  rw [answerOf?]
  cases s.submissions[call]? with
  | none => simp
  | some c =>
      obtain ⟨key, stage⟩ := c
      cases stage <;> simp

/-- A call keeps its answer. -/
theorem answerOf_act (h : s.answerOf? call = some answer) :
    (s.act action).answerOf? call = some answer := by
  obtain ⟨key, hc⟩ := answerOf_eq_some.mp h
  refine answerOf_eq_some.mpr ⟨key, ?_⟩
  rcases s.call_act action call with hsame | ⟨-, hnone⟩ | ⟨_, _, _, key', stage, -, hbefore, hafter⟩
  · rw [hsame, hc]
  · rw [hnone] at hc
    cases hc
  · obtain ⟨rfl, rfl⟩ := Submission.mk.inj (Option.some.inj (hbefore.symm.trans hc))
    exact hafter

theorem answerOf_play (h : s.answerOf? call = some answer) (actions : List (Action σ)) :
    (s.play actions).answerOf? call = some answer := by
  induction actions generalizing s with
  | nil => exact h
  | cons action actions ih => exact ih (answerOf_act h)

/-- A call goes on to hold its build, has queued it, or has withdrawn it. -/
theorem advance_of_held {key : TagKey} {stage : SubmissionStage}
    (h : Submission.held? ⟨key, stage⟩ = some r) (fresh : BuildId) (now : Instant) :
    Submission.held? ⟨key, (s.advanceStage key fresh now stage).1⟩ = some r ∨
    (s.advanceStage key fresh now stage).1 = .answered (.ok r.id) ∨
    ∃ holdsPlace e, stage = .withdraw r.id holdsPlace e ∧
      (s.advanceStage key fresh now stage).1 = .answered (.error e) := by
  cases stage with
  | lookUp | register | answered => cases h
  | reserve | refresh | mark =>
      refine .inl ?_
      rw [← h]
      simp only [advanceStage]
      split <;> rfl
  | enqueue id =>
      obtain rfl := Option.some.inj h
      exact .inr (.inl rfl)
  | withdraw id holdsPlace e =>
      obtain rfl := Option.some.inj h
      exact .inr (.inr ⟨holdsPlace, e, rfl, rfl⟩)

/-- A call that holds a build has held it before, or registers it. -/
theorem held_of_advance {key : TagKey} {stage : SubmissionStage} {fresh : BuildId} {now : Instant}
    (h : Submission.held? ⟨key, (s.advanceStage key fresh now stage).1⟩ = some r) :
    Submission.held? ⟨key, stage⟩ = some r ∨
      stage = .register ∧ (s.tracker.register key fresh now).1 = .fresh r.id ∧ r.key = key := by
  cases stage with
  | enqueue | withdraw | answered => cases h
  | lookUp =>
      simp only [advanceStage] at h
      split at h <;> cases h
  | reserve | refresh | mark =>
      refine .inl ?_
      rw [← h]
      simp only [advanceStage]
      split <;> rfl
  | register =>
      simp only [advanceStage] at h
      split at h
      · next hfresh =>
        obtain rfl := Option.some.inj h
        exact .inr ⟨rfl, hfresh, rfl⟩
      · cases h

/-- A call is told of a build that it holds, or of the one in flight for its tag. -/
theorem of_advance_answered {key : TagKey} {stage : SubmissionStage} {fresh : BuildId}
    {now : Instant} (h : (s.advanceStage key fresh now stage).1 = .answered (.ok id)) :
    stage = .answered (.ok id) ∨ Submission.held? ⟨key, stage⟩ = some ⟨id, key⟩ ∨
      s.tracker.inFlight.find? key = some id := by
  cases stage with
  | answered answer => exact .inl h
  | withdraw => cases h
  | lookUp | reserve | refresh | mark =>
      simp only [advanceStage] at h
      split at h <;> cases h
  | enqueue =>
      obtain rfl := SubmissionStage.answered.inj h |> Except.ok.inj
      exact .inr (.inl rfl)
  | register =>
      refine .inr (.inr ?_)
      simp only [advanceStage, Tracker.register] at h
      cases hrunning : s.tracker.inFlight.find? key with
      | none =>
          rw [hrunning] at h
          cases h
      | some running =>
          rw [hrunning] at h
          rw [Except.ok.inj (SubmissionStage.answered.inj h)]

/-! ## Owners -/

omit [Store σ] in
theorem holding_call {c : Submission} (hc : s.submissions[owner]? = some c) :
    s.holding? (.call owner) = c.held? := by
  rw [holding?, hc, Option.bind_some]

/-- Who holds a build goes on to hold it, has queued it, or discards it and fails. -/
theorem owner_of_act (h : s.holding? (.call owner) = some r) (action : Action σ) :
    (s.act action).holding? (.call owner) = some r ∨
    (s.act action).answerOf? owner = some (.ok r.id) ∨
    (∃ e, (s.act action).answerOf? owner = some (.error e)) ∧
      s.eventOf? action = some (.discarded r.id) := by
  obtain ⟨c, hc, hheld⟩ := Option.bind_eq_some_iff.mp h
  rcases s.call_act action owner with
    hsame | ⟨-, hnone⟩ | ⟨_, fresh, now, key, stage, rfl, hbefore, hafter⟩
  · rw [holding?, hsame, hc]
    exact .inl hheld
  · rw [hnone] at hc
    cases hc
  · obtain rfl := Option.some.inj (hbefore.symm.trans hc)
    rw [holding_call hafter]
    rcases s.advance_of_held hheld fresh now with hholds | hqueued | ⟨_, e, rfl, hfailed⟩
    · exact .inl hholds
    · rw [hqueued] at hafter
      exact .inr (.inl (answerOf_eq_some.mpr ⟨key, hafter⟩))
    · rw [hfailed] at hafter
      refine .inr (.inr ⟨⟨e, answerOf_eq_some.mpr ⟨key, hafter⟩⟩, ?_⟩)
      simp only [eventOf?, event?, hbefore]

/-- Who holds a build goes on to hold it, has queued it, or has discarded it and failed. -/
theorem owner_of_play (h : s.holding? (.call owner) = some r) (actions : List (Action σ)) :
    (s.play actions).holding? (.call owner) = some r ∨
    (s.play actions).answerOf? owner = some (.ok r.id) ∨
    (∃ e, (s.play actions).answerOf? owner = some (.error e)) ∧
      .discarded r.id ∈ s.events actions := by
  induction actions generalizing s with
  | nil => exact .inl h
  | cons action actions ih =>
      have hlater {event : BuildEvent} (hevent : event ∈ (s.act action).events actions) :
          event ∈ s.events (action :: actions) := List.mem_append_right _ hevent
      rcases owner_of_act h action with hholds | hqueued | ⟨⟨e, hfailed⟩, hevent⟩
      · rcases ih hholds with hholds | hqueued | ⟨hfailed, hevent⟩
        · exact .inl hholds
        · exact .inr (.inl hqueued)
        · exact .inr (.inr ⟨hfailed, hlater hevent⟩)
      · exact .inr (.inl (answerOf_play hqueued actions))
      · refine .inr (.inr ⟨⟨e, answerOf_play hfailed actions⟩, ?_⟩)
        exact List.mem_append_left _ (Option.mem_toList.mpr hevent)

/-- Who holds a build has held it before, or its identifier was drawn since. -/
theorem holding_of_play (h : (s.play actions).holding? (.call owner) = some r) :
    s.holding? (.call owner) = some r ∨ r.id ∈ s.drawn actions := by
  induction actions using List.reverseRecOn with
  | nil => exact .inl h
  | append_singleton actions action ih =>
      rw [play_concat] at h
      rw [drawn_append, List.mem_append]
      have hearlier (h : (s.play actions).holding? (.call owner) = some r) :
          s.holding? (.call owner) = some r ∨
            r.id ∈ s.drawn actions ∨ r.id ∈ (s.play actions).drawn [action] :=
        (ih h).imp_right .inl
      rcases (s.play actions).call_act action owner with
        hsame | ⟨⟨key, hnew⟩, -⟩ | ⟨_, fresh, now, key, stage, rfl, hbefore, hafter⟩
      · rw [holding?, hsame] at h
        exact hearlier h
      · rw [holding_call hnew] at h
        cases h
      · rw [holding_call hafter] at h
        rcases held_of_advance h with hheld | ⟨rfl, hregister, rfl⟩
        · rw [← holding_call hbefore] at hheld
          exact hearlier hheld
        · refine .inr (.inr (mem_drawn.mpr ⟨r.key, ?_⟩))
          simp only [events, log, eventOf?, event?, hbefore, hregister]
          exact List.mem_singleton_self _

/-- A call is told only of builds that were registered. -/
theorem drawn_of_answerOf (hstart : Server.start config store = .ok s₀)
    (hfresh : s₀.DrawsOnce actions) (h : (s₀.play actions).answerOf? call = some (.ok id)) :
    id ∈ s₀.drawn actions := by
  induction actions using List.reverseRecOn with
  | nil =>
      rw [eq_of_start hstart] at h
      cases h
  | append_singleton actions action ih =>
      have hconsistent : (s₀.play actions).Consistent (s₀.events actions) :=
        consistent_play hstart hfresh.of_append
      rw [play_concat] at h
      obtain ⟨key, hc⟩ := answerOf_eq_some.mp h
      rw [drawn_append, List.mem_append]
      refine .inl ?_
      rcases (s₀.play actions).call_act action call with
        hsame | ⟨⟨_, hnew⟩, -⟩ | ⟨_, fresh, now, key', stage, rfl, hbefore, hafter⟩
      · exact ih hfresh.of_append (answerOf_eq_some.mpr ⟨key, hsame ▸ hc⟩)
      · rw [hnew] at hc
        cases hc
      · obtain ⟨rfl, hanswer⟩ := Submission.mk.inj (Option.some.inj (hafter.symm.trans hc))
        rcases of_advance_answered hanswer with rfl | hheld | hrunning
        · exact ih hfresh.of_append (answerOf_eq_some.mpr ⟨_, hbefore⟩)
        · rw [← holding_call hbefore] at hheld
          exact hconsistent.drawn_of_mem (mem_held_iff_exists_holding.mpr ⟨_, hheld⟩)
        · exact hconsistent.drawn_of_mem ((hconsistent.tracks.inFlight _ _).mp hrunning)

/-- Whoever discards a build held it, and has failed. -/
theorem exists_owner_of_discarded (h : s.eventOf? action = some (.discarded id)) :
    ∃ owner key e, s.holding? (.call owner) = some ⟨id, key⟩ ∧
      (s.act action).answerOf? owner = some (.error e) := by
  cases action with
  | change f => cases h
  | move compile move =>
      cases move with
      | submit | shutDown => cases h
      | work worker deployment now =>
          simp only [eventOf?, event?] at h
          split at h <;> cases h
      | advance owner fresh now =>
          simp only [eventOf?, event?] at h
          split at h
          · split at h <;> cases h
          · next key other holdsPlace e hc =>
            obtain rfl := BuildEvent.discarded.inj (Option.some.inj h)
            have hlt := (List.getElem?_eq_some_iff.mp hc).1
            refine ⟨owner, key, e, holding_call hc, answerOf_eq_some.mpr ⟨key, ?_⟩⟩
            simp only [act, step, advance, hc]
            exact List.getElem?_set_self hlt
          · cases h

/-! ## What is told of withdrawn builds -/

omit [Store σ] in
/-- There is no record of a build after it is discarded, nor does one come but by its
registration. -/
theorem Consistent.absent_of_handled {events : List BuildEvent} {s' : Server σ}
    {event : Option BuildEvent} (h : s.Consistent events) (hhandled : Handled s s' event)
    (hbefore : s.tracker.builds.find? id = none ∨ event = some (.discarded id))
    (hother : ∀ r, event = some (.registered r) → r.id ≠ id) :
    s'.tracker.builds.find? id = none := by
  have hdiscard (t : Tracker) : (t.discard id).builds.find? id = none := by
    cases hfind : t.builds.find? id with
    | none => rw [Tracker.discard, hfind, hfind]
    | some record => rw [Tracker.discard_eq hfind, SortedMap.find_erase_self]
  have habsent {t : Tracker} : t.builds.find? id = none ↔ t.Every fun other _ => other ≠ id := by
    constructor
    · rintro hnone other r hr rfl
      rw [hnone] at hr
      cases hr
    · intro hevery
      exact Option.eq_none_iff_forall_not_mem.mpr fun r hr => hevery id r hr rfl
  rcases hbefore with hbefore | rfl
  · rw [habsent] at hbefore ⊢
    cases hhandled with
    | kept _ htracker => rwa [htracker]
    | registered hfree _ htracker =>
        rw [htracker]
        exact hbefore.register (hother _ rfl)
    | discarded _ htracker =>
        rw [htracker]
        exact hbefore.discard _
    | @started r now hr _ htracker =>
        obtain ⟨t, hstart, -⟩ := h.tracks.start hr now
        rw [htracker t hstart]
        exact hbefore.start (fun _ hne => hne) hstart
    | @finished r failure now hheld htracker =>
        obtain ⟨t, hfinish, -⟩ := (h.tracks.perm hheld.symm).finish failure now
        rw [htracker t hfinish]
        exact hbefore.finish (fun _ hne => hne) hfinish
  · cases hhandled with
    | discarded _ htracker =>
        rw [htracker]
        exact hdiscard _

/-- There is no record of a build that was discarded. -/
theorem absent_of_discarded (hstart : Server.start config store = .ok s₀)
    (hfresh : s₀.DrawsOnce actions) (h : .discarded id ∈ s₀.events actions) :
    (s₀.play actions).tracker.builds.find? id = none := by
  induction actions using List.reverseRecOn with
  | nil => cases h
  | append_singleton actions action ih =>
      have hconsistent : (s₀.play actions).Consistent (s₀.events actions) :=
        consistent_play hstart hfresh.of_append
      rw [events_concat, List.mem_append, Option.mem_toList] at h
      rw [play_concat]
      refine hconsistent.absent_of_handled ((s₀.play actions).handled_act action)
        (h.imp_left (ih hfresh.of_append)) fun r hr hid => ?_
      rcases h with h | h
      · -- What was discarded had been drawn, and is not drawn once more.
        have hdrawn := (drawn_and_not_held_of_left hstart hfresh.of_append
          (List.mem_filterMap.mpr ⟨_, h, rfl⟩)).1
        have hagain : id ∈ (s₀.play actions).drawn [action] := by
          refine mem_drawn.mpr ⟨r.key, List.mem_append_left _ (Option.mem_toList.mpr ?_)⟩
          rw [hr, ← hid]
        rw [DrawsOnce, drawn_append] at hfresh
        exact (List.nodup_append.mp hfresh).2.2 id hdrawn id hagain rfl
      · rw [hr] at h
        cases h

/-- A build of which a call was told is discarded later if and only if the call that holds
it by then fails; and then those who wait for it are told that there is no such build. -/
theorem discarded_iff_owner_fails (hstart : Server.start config store = .ok s₀)
    (hfresh : s₀.DrawsOnce (before ++ later))
    (hok : (s₀.play before).answerOf? call = some (.ok id)) :
    (.discarded id ∈ (s₀.play before).events later ↔
      ∃ owner r e, (s₀.play before).holding? (.call owner) = some r ∧ r.id = id ∧
        (s₀.play (before ++ later)).answerOf? owner = some (.error e)) ∧
    (.discarded id ∈ (s₀.play before).events later →
      (s₀.play (before ++ later)).tracker.answer? id = some (.error (.buildNotFound id))) := by
  have hdrawn : id ∈ s₀.drawn before := drawn_of_answerOf hstart hfresh.of_append hok
  refine ⟨⟨fun hdiscarded => ?_, ?_⟩, fun hdiscarded => ?_⟩
  · obtain ⟨mid, action, rest, rfl, hevent⟩ := mem_log.mp hdiscarded
    obtain ⟨owner, key, e, hholds, hfails⟩ := exists_owner_of_discarded hevent
    refine ⟨owner, ⟨id, key⟩, e, ?_, rfl, ?_⟩
    · -- The identifier was drawn before, so nobody has come to hold it since.
      refine (holding_of_play hholds).resolve_right fun hagain => ?_
      rw [DrawsOnce, drawn_append, drawn_append] at hfresh
      exact (List.nodup_append.mp hfresh).2.2 id hdrawn id (List.mem_append_left _ hagain) rfl
    · rw [play_append, play_append]
      exact answerOf_play hfails rest
  · rintro ⟨owner, r, e, hholds, rfl, hfails⟩
    rw [play_append] at hfails
    rcases owner_of_play hholds later with hstill | hqueued | ⟨-, hdiscarded⟩
    · obtain ⟨key, hc⟩ := answerOf_eq_some.mp hfails
      rw [holding_call hc] at hstill
      cases hstill
    · rw [hfails] at hqueued
      cases hqueued
    · exact hdiscarded
  · have hlogged : .discarded id ∈ s₀.events (before ++ later) := by
      rw [events, log_append]
      exact List.mem_append_right _ hdiscarded
    rw [Tracker.answer?, Tracker.build, absent_of_discarded hstart hfresh hlogged]

/-- A worker, and a queue for one build. -/
def onePlace : ServerConfig where
  scheduler := { poolSize := 1, maxQueueSize := 1 }

/-- The queue is filled; then a call registers a build of another tag, and a second call for
that tag is told of it. -/
def tellingActions : List (Action Repository) :=
  let advance (call : Nat) (fresh : BuildId) : Move := .advance call fresh .epoch
  let moves := [.submit ⟨"o", "g", "v2"⟩, .submit ⟨"o", "g", "v1"⟩, .submit ⟨"o", "g", "v1"⟩] ++
    List.replicate 6 (advance 0 "a") ++ List.replicate 2 (advance 1 "b") ++
    List.replicate 2 (advance 2 "c")
  moves.map (.move noCompiler)

/-- The first of these two calls finds the queue full, and withdraws the build. -/
def withdrawingActions : List (Action Repository) :=
  List.replicate 2 (.move noCompiler (.advance 1 "" .epoch))

/-- Who waits for the build that the second call was told of hears that there is none. -/
theorem discarded_iff_owner_fails_full :
    ∃ s₀, Server.start onePlace (Repository.authored tagTwice) = .ok s₀ ∧
      (s₀.play tellingActions).answerOf? 2 = some (.ok "b") ∧
      .discarded "b" ∈ (s₀.play tellingActions).events withdrawingActions ∧
      (s₀.play (tellingActions ++ withdrawingActions)).tracker.answer? "b" =
        some (.error (.buildNotFound "b")) := by
  have hstart : Server.start onePlace (Repository.authored tagTwice) = .ok _ := rfl
  obtain ⟨hiff, htold⟩ := discarded_iff_owner_fails hstart
    (by decide +kernel : DrawsOnce _ (tellingActions ++ withdrawingActions))
    (by decide +kernel : answerOf? _ 2 = some (.ok "b"))
  have hdiscarded := hiff.mpr
    ⟨1, ⟨"b", ⟨"o", "g", "v1"⟩⟩, .queueFull 1, by decide +kernel, rfl, by decide +kernel⟩
  exact ⟨_, hstart, by decide +kernel, hdiscarded, htold hdiscarded⟩

end RouteCompiler.Server
