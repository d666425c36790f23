import RouteCompiler.Build.FaultyStore
import RouteCompiler.Proofs.Build.Withdrawal

/-!
# Refused submissions

A call that submits a tag registers a build and reserves a place in the queue before it
knows whether it can succeed.  This module shows that a call that fails leaves no trace, if
nothing else happens while it goes on: the build is forgotten, the place is given back, and
no record of a tag has changed.

Stores elsewhere are known by the records of tags that they hold.

Main definitions:

- `StoreRecords`: the records in a store, which neither looking up nor failing changes.
- `Server.Unchanged`: a server has the tracker, the queue and the records of another.
- `Server.submission`: a call from its beginning, with nothing in between.
- `Server.Underway`: what a call has changed so far.

Main results:

- Lemma `Underway.advanceStage`: every move of the call keeps account of the changes.
- Lemma `Underway.play`: so does the whole call.
- Theorem `refused_submission_undone`: a call that fails changes nothing, and so does one
  for a tag that has a build in flight.
-/

namespace RouteCompiler

/-! ## Records -/

/-- The records of tags in a store.  Looking a tag up changes none of them, and neither does
an attempt to write one that fails. -/
structure StoreRecords (σ : Type) [Store σ] where
  tag? : σ → TagKey → Option Tag
  tag_getTag : ∀ key store other, tag? (Store.getTag key store).2 other = tag? store other
  tag_updateTag : ∀ key tag store e, (Store.updateTag key tag store).1 = .error e →
    ∀ other, tag? (Store.updateTag key tag store).2 other = tag? store other

/-- The records in a store of snapshots. -/
def Repository.records : StoreRecords Repository where
  tag? := Repository.tag?
  tag_getTag := fun _ _ _ => rfl
  tag_updateTag := by
    intro key tag r e h other
    cases hwrite : r.updateTag key tag with
    | ok r' =>
        simp only [Store.updateTag, hwrite] at h
        cases h
    | error e => simp only [Store.updateTag, hwrite]

namespace FaultyStore

variable {σ α : Type}

/-- A call does not reach the store behind, or does there what it is to do. -/
theorem call_cases (method : StoreMethod) (absent : Option α)
    (operation : σ → Except BuildError α × σ) (s : FaultyStore σ) :
    (call method absent operation s).2.store = s.store ∨
      (call method absent operation s).1 = (operation s.store).1 ∧
        (call method absent operation s).2.store = (operation s.store).2 := by
  rw [call]
  dsimp only
  split
  · exact .inl rfl
  · exact .inl rfl
  · exact .inr ⟨rfl, rfl⟩

/-- The records in a faulty store are those in the store behind it. -/
def records [Store σ] (records : StoreRecords σ) : StoreRecords (FaultyStore σ) where
  tag? := fun s => records.tag? s.store
  tag_getTag := by
    intro key s other
    rcases call_cases .getTag (some none) (Store.getTag key) s with h | ⟨-, h⟩
    · exact congrArg (records.tag? · other) h
    · exact (congrArg (records.tag? · other) h).trans (records.tag_getTag key s.store other)
  tag_updateTag := by
    intro key tag s e herror other
    rcases call_cases .updateTag none (Store.updateTag key tag) s with h | ⟨hanswer, h⟩
    · exact congrArg (records.tag? · other) h
    · have hbehind : (Store.updateTag key tag s.store).1 = .error e := hanswer.symm.trans herror
      exact (congrArg (records.tag? · other) h).trans
        (records.tag_updateTag key tag s.store e hbehind other)

end FaultyStore

namespace Server

variable {σ : Type} [Store σ] (records : StoreRecords σ)

/-- A server has the tracker, the queue and the records of another. -/
structure Unchanged (s t : Server σ) : Prop where
  tracker : t.tracker = s.tracker
  scheduler : t.scheduler = s.scheduler
  tags : ∀ key, records.tag? t.store key = records.tag? s.store key

/-! ## A call on its own -/

/-- What somebody who looks a tag up is told. -/
def lookedUp (s : Server σ) (key : TagKey) : Except BuildError Tag :=
  requireTag key (Store.getTag key s.store).1

/-- The moves of a call, with what each of them brings from outside. -/
def advances (call : Nat) (brought : List (BuildId × Instant)) : List (Action σ) :=
  brought.map fun b => .move noCompiler (.advance call b.1 b.2)

/-- A call from its beginning, with nothing in between. -/
def submission (s : Server σ) (key : TagKey) (brought : List (BuildId × Instant)) :
    List (Action σ) :=
  .move noCompiler (.submit key) :: advances s.submissions.length brought

/-- How many moves a call has before it. -/
def movesLeft : SubmissionStage → Nat
  | .lookUp => 6
  | .register => 5
  | .reserve _ => 4
  | .refresh _ => 3
  | .mark .. => 2
  | .enqueue _ | .withdraw .. => 1
  | .answered _ => 0

/-- A call has registered a new build, and changed no record so far. -/
structure HasRegistered (s : Server σ) (key : TagKey) (id : BuildId) (t : Server σ) : Prop where
  free : s.tracker.inFlight.find? key = none
  new : s.tracker.builds.find? id = none
  tracker : ∃ now, t.tracker = (s.tracker.register key id now).2
  tags : ∀ other, records.tag? t.store other = records.tag? s.store other

/-- What a call for a tag has changed of a server by the time it gets to a stage. -/
def Underway (s : Server σ) (key : TagKey) : SubmissionStage → Server σ → Prop
  | .lookUp, t => t.store = s.store ∧ s.Unchanged records t
  | .register, t => s.Unchanged records t ∧ ∃ tag, s.lookedUp key = .ok tag
  | .reserve id, t => s.HasRegistered records key id t ∧ t.scheduler = s.scheduler
  | .refresh id, t | .mark id _, t | .withdraw id true _, t =>
      s.HasRegistered records key id t ∧ s.scheduler.reserve = .ok t.scheduler
  | .withdraw id false _, t => s.HasRegistered records key id t ∧ t.scheduler = s.scheduler
  | .enqueue _, _ => s.tracker.inFlight.find? key = none
  | .answered answer, t =>
      (∀ e, answer = .error e → s.Unchanged records t) ∧
      ∀ running, s.tracker.inFlight.find? key = some running →
        answer = (s.lookedUp key).map (fun _ => running) ∧ s.Unchanged records t

variable {records} {s t : Server σ} {key : TagKey} {id : BuildId} {stage : SubmissionStage}

/-- Looking a tag up changes nothing. -/
theorem Unchanged.getTag (h : s.Unchanged records t) (key : TagKey) :
    s.Unchanged records { t with store := (Store.getTag key t.store).2 } where
  tracker := h.tracker
  scheduler := h.scheduler
  tags := fun other => (records.tag_getTag key t.store other).trans (h.tags other)

/-- Looking a tag up changes nothing. -/
theorem HasRegistered.getTag (h : s.HasRegistered records key id t) (other : TagKey) :
    s.HasRegistered records key id { t with store := (Store.getTag other t.store).2 } where
  free := h.free
  new := h.new
  tracker := h.tracker
  tags := fun tag => (records.tag_getTag other t.store tag).trans (h.tags tag)

/-- Registering a build that is new changes the tracker only. -/
theorem Unchanged.register (h : s.Unchanged records t)
    (hfree : t.tracker.inFlight.find? key = none) (hnew : s.tracker.builds.find? id = none)
    (now : Instant) :
    s.HasRegistered records key id { t with tracker := (t.tracker.register key id now).2 } where
  free := h.tracker ▸ hfree
  new := hnew
  tracker := ⟨now, by rw [h.tracker]⟩
  tags := h.tags

/-- A call that withdraws its build has changed nothing. -/
theorem HasRegistered.withdraw (h : s.HasRegistered records key id t)
    {scheduler : Scheduler BuildRequest} (hscheduler : scheduler = s.scheduler) :
    s.Unchanged records { t with tracker := t.tracker.discard id, scheduler } where
  tracker := by
    obtain ⟨now, hnow⟩ := h.tracker
    dsimp only
    rw [hnow, Tracker.discard_register h.free h.new]
  scheduler := hscheduler
  tags := h.tags

/-- Who finds no tag is told so, and has changed nothing. -/
theorem Unchanged.notFound (h : s.Unchanged records t) {e : BuildError}
    (hlook : s.lookedUp key = .error e) : s.Underway records key (.answered (.error e)) t := by
  refine ⟨fun _ _ => h, fun running _ => ⟨?_, h⟩⟩
  rw [hlook]
  rfl

/-- Who finds a build in flight is told of it, and has changed nothing. -/
theorem Unchanged.told (h : s.Unchanged records t) {tag : Tag} {running : BuildId}
    (hlook : s.lookedUp key = .ok tag) (hrunning : t.tracker.inFlight.find? key = some running) :
    s.Underway records key (.answered (.ok running)) t := by
  refine ⟨fun e he => ?_, fun other hother => ⟨?_, h⟩⟩
  · cases he
  · rw [← h.tracker, hrunning] at hother
    rw [hlook, Option.some.inj hother]
    rfl

/-- Where no build of the tag was in flight, a call has to answer for its failures only. -/
theorem underway_of_free (hfree : s.tracker.inFlight.find? key = none)
    {answer : Except BuildError BuildId} (h : ∀ e, answer = .error e → s.Unchanged records t) :
    s.Underway records key (.answered answer) t := by
  refine ⟨h, fun running hrunning => ?_⟩
  rw [hfree] at hrunning
  cases hrunning

/-- Every move of a call keeps account of what the call has changed. -/
theorem Underway.advanceStage (h : s.Underway records key stage t) (fresh : BuildId)
    (now : Instant) (hfresh : stage = .register → t.tracker.inFlight.find? key = none →
      s.tracker.builds.find? fresh = none) :
    s.Underway records key (t.advanceStage key fresh now stage).1
      (t.advanceStage key fresh now stage).2 := by
  cases stage with
  | lookUp =>
      obtain ⟨hstore, hsame⟩ := h
      have hlook : requireTag key (Store.getTag key t.store).1 = s.lookedUp key := by
        rw [hstore]
        rfl
      have hkept := hsame.getTag key
      simp only [Server.advanceStage, hlook]
      cases hanswer : s.lookedUp key with
      | ok tag => exact ⟨hkept, tag, hanswer⟩
      | error e => exact hkept.notFound hanswer
  | register =>
      obtain ⟨hsame, tag, hlook⟩ := h
      simp only [Server.advanceStage]
      cases hrunning : t.tracker.inFlight.find? key with
      | some running =>
          rw [Tracker.register_of_eq_some hrunning]
          exact hsame.told hlook hrunning
      | none =>
          have hregistered := hsame.register hrunning (hfresh rfl hrunning) now
          rw [Tracker.register_of_eq_none hrunning] at hregistered ⊢
          exact ⟨hregistered, hsame.scheduler⟩
  | reserve id =>
      obtain ⟨hregistered, hscheduler⟩ := h
      simp only [Server.advanceStage]
      split
      · next scheduler hreserve => exact ⟨⟨hregistered.free, hregistered.new, hregistered.tracker,
          hregistered.tags⟩, hscheduler ▸ hreserve⟩
      · exact ⟨hregistered, hscheduler⟩
  | refresh id =>
      obtain ⟨hregistered, hreserve⟩ := h
      simp only [Server.advanceStage]
      split
      · exact ⟨hregistered.getTag key, hreserve⟩
      · exact ⟨hregistered.getTag key, hreserve⟩
  | mark id tag =>
      obtain ⟨hregistered, hreserve⟩ := h
      simp only [Server.advanceStage]
      split
      · exact hregistered.free
      · next e hfailed =>
        exact ⟨⟨hregistered.free, hregistered.new, hregistered.tracker, fun other =>
          (records.tag_updateTag key _ t.store e hfailed other).trans (hregistered.tags other)⟩,
          hreserve⟩
  | enqueue id =>
      exact underway_of_free h fun e he => by cases he
  | withdraw id holdsPlace e =>
      cases holdsPlace with
      | true =>
          obtain ⟨hregistered, hreserve⟩ := h
          exact underway_of_free hregistered.free fun _ _ =>
            hregistered.withdraw (Scheduler.release_of_reserve hreserve)
      | false =>
          obtain ⟨hregistered, hscheduler⟩ := h
          exact underway_of_free hregistered.free fun _ _ => hregistered.withdraw hscheduler
  | answered answer => exact h

/-- A call comes nearer to its answer with every move. -/
theorem movesLeft_advanceStage (t : Server σ) (key : TagKey) (fresh : BuildId) (now : Instant)
    (stage : SubmissionStage) :
    movesLeft (t.advanceStage key fresh now stage).1 ≤ movesLeft stage - 1 := by
  cases stage with
  | lookUp | register | reserve | refresh | mark =>
      simp only [advanceStage]
      split <;> simp [movesLeft]
  | enqueue | withdraw | answered => exact Nat.le_refl _

theorem exists_answer_of_movesLeft (h : movesLeft stage = 0) :
    ∃ answer, stage = .answered answer := by
  cases stage with
  | answered answer => exact ⟨answer, rfl⟩
  | lookUp | register | reserve | refresh | mark | enqueue | withdraw => cases h

/-- What calls are there has no part in what one of them has changed. -/
theorem Underway.withSubmissions (h : s.Underway records key stage t)
    (submissions : List Submission) : s.Underway records key stage { t with submissions } := by
  have hsame (h : s.Unchanged records t) : s.Unchanged records { t with submissions } :=
    ⟨h.tracker, h.scheduler, h.tags⟩
  have hregistered {id : BuildId} (h : s.HasRegistered records key id t) :
      s.HasRegistered records key id { t with submissions } :=
    ⟨h.free, h.new, h.tracker, h.tags⟩
  cases stage with
  | lookUp => exact h.imp_right hsame
  | register => exact h.imp_left hsame
  | reserve | refresh | mark => exact h.imp_left hregistered
  | withdraw id holdsPlace e => cases holdsPlace <;> exact h.imp_left hregistered
  | enqueue => exact h
  | answered answer =>
      obtain ⟨hfailed, hinFlight⟩ := h
      exact ⟨fun e he => hsame (hfailed e he),
        fun running hrunning => (hinFlight running hrunning).imp_right hsame⟩

/-- A call that goes on while nothing else happens keeps account of what it has changed, and
comes nearer to its answer. -/
theorem Underway.play {call : Nat} (h : s.Underway records key stage t)
    (hcall : t.submissions[call]? = some ⟨key, stage⟩) (brought : List (BuildId × Instant))
    (hnew : ∀ id ∈ t.drawn (advances call brought), s.tracker.builds.find? id = none) :
    ∃ stage', (t.play (advances call brought)).submissions[call]? = some ⟨key, stage'⟩ ∧
      movesLeft stage' ≤ movesLeft stage - brought.length ∧
      s.Underway records key stage' (t.play (advances call brought)) := by
  induction brought generalizing t stage with
  | nil => exact ⟨stage, hcall, Nat.le_refl _, h⟩
  | cons b brought ih =>
      let action : Action σ := .move noCompiler (.advance call b.1 b.2)
      have hdrawn : t.drawn (advances call (b :: brought)) =
          t.drawn [action] ++ (t.act action).drawn (advances call brought) :=
        t.drawn_append [action] (advances call brought)
      rw [hdrawn] at hnew
      have hfresh : stage = .register → t.tracker.inFlight.find? key = none →
          s.tracker.builds.find? b.1 = none := by
        rintro rfl hfree
        refine hnew b.1 (List.mem_append_left _ (mem_drawn.mpr ⟨key, ?_⟩))
        simp [events, log, eventOf?, event?, action, hcall, Tracker.register_of_eq_none hfree]
      have hact : t.act action = { (t.advanceStage key b.1 b.2 stage).2 with
          submissions := t.submissions.set call ⟨key, (t.advanceStage key b.1 b.2 stage).1⟩ } := by
        have hcalls := (t.submissions_advanceStage key b.1 b.2 stage).1
        simp only [action, act, step, advance, hcall, hcalls]
      have hlt := (List.getElem?_eq_some_iff.mp hcall).1
      have hnext : (t.act action).submissions[call]? =
          some ⟨key, (t.advanceStage key b.1 b.2 stage).1⟩ := by
        rw [hact, List.getElem?_set_self hlt]
      have hunderway := (h.advanceStage b.1 b.2 hfresh).withSubmissions
        (t.submissions.set call ⟨key, (t.advanceStage key b.1 b.2 stage).1⟩)
      rw [← hact] at hunderway
      obtain ⟨stage', hcall', hmoves, hplay⟩ :=
        ih hunderway hnext fun id hid => hnew id (List.mem_append_right _ hid)
      refine ⟨stage', hcall', ?_, hplay⟩
      have hnearer := t.movesLeft_advanceStage key b.1 b.2 stage
      rw [List.length_cons]
      omega

/-- A call that fails changes nothing.  However a server has come to where it is, a call that
submits a tag while nothing else happens has its answer after at most six moves.  If the
answer is an error, the tracker, the queue and the records of all tags are as they were.  They
are so, too, if the tag has a build in flight; and if the tag is found, the answer is that
build. -/
theorem refused_submission_undone (records : StoreRecords σ) {config : ServerConfig} {store : σ}
    {s₀ : Server σ} (hstart : Server.start config store = .ok s₀) {actions : List (Action σ)}
    {key : TagKey} {brought : List (BuildId × Instant)} (hmoves : submissionMoves ≤ brought.length)
    (hfresh : s₀.DrawsOnce (actions ++ (s₀.play actions).submission key brought)) :
    let s := s₀.play actions
    let s' := s.play (s.submission key brought)
    ∃ answer, s'.answerOf? s.submissions.length = some answer ∧
      (∀ e, answer = .error e → s.Unchanged records s') ∧
      ∀ running, s.tracker.inFlight.find? key = some running →
        answer = (s.lookedUp key).map (fun _ => running) ∧ s.Unchanged records s' := by
  intro s s'
  let t := s.act (.move noCompiler (.submit key))
  have hcall : t.submissions[s.submissions.length]? = some ⟨key, .lookUp⟩ :=
    List.getElem?_concat_length
  have hunderway : s.Underway records key .lookUp t := ⟨rfl, rfl, rfl, fun _ => rfl⟩
  have hconsistent : s.Consistent (s₀.events actions) := consistent_play hstart hfresh.of_append
  have hnew : ∀ id ∈ t.drawn (advances s.submissions.length brought),
      s.tracker.builds.find? id = none := by
    intro id hid
    refine Option.eq_none_iff_forall_not_mem.mpr fun record hrecord => ?_
    rw [DrawsOnce, drawn_append] at hfresh
    refine List.disjoint_of_nodup_append hfresh (hconsistent.within id record hrecord) ?_
    exact (s.drawn_append [.move noCompiler (.submit key)] _).symm ▸ hid
  obtain ⟨stage, hstage, hleft, hplay⟩ := hunderway.play hcall brought hnew
  obtain ⟨answer, rfl⟩ : ∃ answer, stage = .answered answer := by
    have henough : 6 ≤ brought.length := hmoves
    rw [movesLeft] at hleft
    exact exists_answer_of_movesLeft (by omega)
  exact ⟨answer, answerOf_eq_some.mpr ⟨key, hstage⟩, hplay.1, hplay.2⟩

/-! ## Stores that fail -/

/-- What the moves of a call bring that registers a build under an identifier. -/
def bringing (id : BuildId) : List (BuildId × Instant) :=
  List.replicate submissionMoves (id, .epoch)

/-- A store with two tags, in which one call goes wrong. -/
def failingStore (method : StoreMethod) (call : Nat) : FaultyStore Repository where
  store := Repository.authored tagTwice
  faults := [⟨method, call, some (.repository "unreachable")⟩]

/-- The first call queues a build of one of the tags. -/
def oneQueued : List (Action (FaultyStore Repository)) :=
  .move noCompiler (.submit ⟨"o", "g", "v1"⟩) :: advances 0 (bringing "a")

/-- A tag has a build in flight.  The next call for it that cannot look the tag up is told so,
and not of the build. -/
theorem running_build_not_told :
    ∃ s₀, Server.start twoWorkers (failingStore .getTag 3) = .ok s₀ ∧
      let s := s₀.play oneQueued
      let call := s.submission ⟨"o", "g", "v1"⟩ (bringing "b")
      s₀.DrawsOnce (oneQueued ++ call) ∧
        s.tracker.inFlight.find? ⟨"o", "g", "v1"⟩ = some "a" ∧
        (s.play call).answerOf? 1 = some (.error (.repository "unreachable")) :=
  ⟨_, rfl, by decide +kernel, by decide +kernel, by decide +kernel⟩

/-- One tag is queued.  Then the record of another cannot be written, and the call for it
leaves no trace; and a call for the first tag is told of its build. -/
theorem refused_submission_undone_unwritten :
    ∃ s₀, Server.start twoWorkers (failingStore .updateTag 2) = .ok s₀ ∧
      let records := FaultyStore.records Repository.records
      let s := s₀.play oneQueued
      let refused := s.play (s.submission ⟨"o", "g", "v2"⟩ (bringing "b"))
      let repeated := s.play (s.submission ⟨"o", "g", "v1"⟩ (bringing "c"))
      refused.answerOf? 1 = some (.error (.repository "unreachable")) ∧
        s.Unchanged records refused ∧
        repeated.answerOf? 1 = some (.ok "a") ∧ s.Unchanged records repeated := by
  have hstart : Server.start twoWorkers (failingStore .updateTag 2) = .ok _ := rfl
  refine ⟨_, hstart, ?_⟩
  intro records s refused repeated
  obtain ⟨answer, hanswer, hfailed, -⟩ := refused_submission_undone records hstart
    (by decide : submissionMoves ≤ (bringing "b").length)
    (by decide +kernel : DrawsOnce _ (oneQueued ++ submission _ ⟨"o", "g", "v2"⟩ _))
  obtain ⟨answer', hanswer', -, hrunning⟩ := refused_submission_undone records hstart
    (by decide : submissionMoves ≤ (bringing "c").length)
    (by decide +kernel : DrawsOnce _ (oneQueued ++ submission _ ⟨"o", "g", "v1"⟩ _))
  have herror : refused.answerOf? 1 = some (.error (.repository "unreachable")) := by
    decide +kernel
  have htold := hrunning "a" (by decide +kernel)
  exact ⟨herror, hfailed _ (Option.some.inj (hanswer.symm.trans herror)), by decide +kernel,
    htold.2⟩

end Server

end RouteCompiler
