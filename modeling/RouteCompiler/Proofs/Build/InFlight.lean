import RouteCompiler.Build.Run
import RouteCompiler.Proofs.Build.Holding
import RouteCompiler.Proofs.Build.Tracking
import RouteCompiler.Time.Epoch

/-!
# Builds in flight

A build is in flight from its registration until it is discarded or has ended.  The
tracker decides by its own records whether a tag has a build in flight; those who hold
builds know nothing of each other.  This module shows that, in whatever order calls
and workers move, the records, the holders and the history of the server agree.

Main definitions:

- `Server.history`: what a run registers, discards and ends.
- `BuildEvent.inFlight`: the builds in flight behind such a history.
- `Server.Consistent`: records, holders and history agree.

Main results:

- Theorem `Consistent.step`: every move keeps them in agreement.
- Theorem `one_build_per_tag`: a tag has at most one build in flight, and no two workers
  deploy builds of one tag at a time.
-/

namespace RouteCompiler

/-! ## Histories -/

namespace BuildEvent

/-- The builds in flight after an event. -/
def applyTo (flight : List BuildRequest) : BuildEvent → List BuildRequest
  | .registered r => r :: flight
  | .discarded id | .finished id => flight.filter fun r => r.id != id

/-- The builds in flight behind some events: registered, and neither discarded nor
ended since. -/
def inFlight (events : List BuildEvent) : List BuildRequest :=
  events.foldl applyTo []

/-- The identifier that was drawn for a build. -/
def drawn? : BuildEvent → Option BuildId
  | .registered r => some r.id
  | .discarded _ | .finished _ => none

theorem drawn_append (events : List BuildEvent) (event : BuildEvent) :
    (events ++ [event]).filterMap drawn? = events.filterMap drawn? ++ event.drawn?.toList := by
  cases event <;> simp [drawn?]

theorem inFlight_append (events : List BuildEvent) (event : BuildEvent) :
    inFlight (events ++ [event]) = applyTo (inFlight events) event := by
  rw [inFlight, List.foldl_append]
  rfl

end BuildEvent

namespace Server

variable {σ : Type} {s s' : Server σ} {events : List BuildEvent}

/-- What the moves of a run register, discard and end, in order. -/
def history [Store σ] (compile : Compiler) (s : Server σ) : List Move → List BuildEvent
  | [] => []
  | move :: moves => (s.event? move).toList ++ (s.step compile move).history compile moves

/-! ## Agreement -/

/-- The records of the tracker, those who hold builds, and the history of the server
agree. -/
structure Consistent (s : Server σ) (events : List BuildEvent) : Prop where
  tracks : s.tracker.Tracks s.held
  within : s.tracker.Within (events.filterMap BuildEvent.drawn?)
  inFlight : ∀ r, r ∈ BuildEvent.inFlight events ↔ r ∈ s.held

/-- A server that has started agrees with the empty history. -/
theorem consistent_start {config : ServerConfig} {store : σ}
    (h : Server.start config store = .ok s) : s.Consistent [] := by
  obtain ⟨-, -, hs⟩ := Outcome.of_bind_eq_ok h
  simp only [pure, Except.pure, Except.ok.injEq] at hs
  subst hs
  have hheld : ∀ scheduler : Scheduler BuildRequest, scheduler.queue = [] →
      (⟨store, .empty config.historyLimit.toNat, scheduler, [],
        List.replicate scheduler.workers .idle⟩ : Server σ).held = [] := by
    intro scheduler hqueue
    simp [held, hqueue, Worker.held?]
  refine ⟨?_, ?_, fun r => ?_⟩
  · rw [hheld _ rfl]
    exact .empty _
  · intro id r hr
    cases hr
  · rw [hheld _ rfl]
    exact Iff.rfl

/-- A build that is no longer held has left those in flight. -/
theorem mem_filter_of_perm {held held' : List BuildRequest} {flight : List BuildRequest}
    {r x : BuildRequest} {t : Tracker} (h : t.Tracks held) (hperm : held.Perm (r :: held'))
    (hflight : ∀ x, x ∈ flight ↔ x ∈ held) :
    x ∈ flight.filter (fun x => x.id != r.id) ↔ x ∈ held' := by
  have htracks := h.perm hperm.symm
  rw [List.mem_filter, hflight, hperm.mem_iff, List.mem_cons, bne_iff_ne]
  constructor
  · rintro ⟨rfl | hx, hid⟩
    · exact absurd rfl hid
    · exact hx
  · intro hx
    exact ⟨.inr hx, (htracks.ne_of_mem hx).1⟩

/-- Every way of handling builds keeps records, holders and history in agreement, as long
as no identifier is drawn twice. -/
theorem Consistent.handled {event : Option BuildEvent} (h : s.Consistent events)
    (hhandled : Handled s s' event)
    (hfresh : ((events ++ event.toList).filterMap BuildEvent.drawn?).Nodup) :
    s'.Consistent (events ++ event.toList) := by
  cases hhandled with
  | kept hheld htracker =>
      rw [Option.toList_none, List.append_nil]
      refine ⟨?_, ?_, fun r => (h.inFlight r).trans hheld.mem_iff.symm⟩
      · rw [htracker]
        exact h.tracks.perm hheld
      · rw [htracker]
        exact h.within
  | @registered r now hfree hheld htracker =>
      have hnew : s.tracker.builds.find? r.id = none := by
        refine Option.eq_none_iff_forall_not_mem.mpr fun record hrecord => ?_
        have hmem := h.within r.id record hrecord
        rw [List.filterMap_append] at hfresh
        exact List.disjoint_of_nodup_append hfresh hmem (by simp [BuildEvent.drawn?])
      refine ⟨?_, ?_, fun x => ?_⟩
      · rw [htracker]
        exact (h.tracks.register hfree hnew now).perm hheld
      · rw [htracker, Option.toList_some, BuildEvent.drawn_append]
        have hmore : s.tracker.Within (events.filterMap BuildEvent.drawn? ++ [r.id]) :=
          fun id record hrecord => List.mem_append_left _ (h.within id record hrecord)
        exact hmore.register (by simp)
      · rw [Option.toList_some, BuildEvent.inFlight_append, BuildEvent.applyTo, List.mem_cons,
          h.inFlight, hheld.mem_iff, List.mem_cons]
  | @discarded r hheld htracker =>
      refine ⟨?_, ?_, fun x => ?_⟩
      · rw [htracker]
        exact (h.tracks.perm hheld.symm).discard
      · rw [htracker, Option.toList_some, BuildEvent.drawn_append, BuildEvent.drawn?,
          Option.toList_none, List.append_nil]
        exact h.within.discard r.id
      · rw [Option.toList_some, BuildEvent.inFlight_append]
        exact mem_filter_of_perm h.tracks hheld h.inFlight
  | @started r now hr hheld htracker =>
      rw [Option.toList_none, List.append_nil]
      obtain ⟨t, hstart, htracks⟩ := h.tracks.start hr now
      refine ⟨?_, ?_, fun x => (h.inFlight x).trans hheld.mem_iff.symm⟩
      · rw [htracker t hstart]
        exact htracks.perm hheld
      · rw [htracker t hstart]
        exact h.within.start (fun _ hid => hid) hstart
  | @finished r failure now hheld htracker =>
      obtain ⟨t, hfinish, htracks⟩ := (h.tracks.perm hheld.symm).finish failure now
      refine ⟨?_, ?_, fun x => ?_⟩
      · rw [htracker t hfinish]
        exact htracks
      · rw [htracker t hfinish, Option.toList_some, BuildEvent.drawn_append, BuildEvent.drawn?,
          Option.toList_none, List.append_nil]
        exact h.within.finish (fun _ hid => hid) hfinish
      · rw [Option.toList_some, BuildEvent.inFlight_append]
        exact mem_filter_of_perm h.tracks hheld h.inFlight

/-! ## Runs -/

section Runs

variable [Store σ]

/-- Every move keeps records, holders and history in agreement. -/
theorem Consistent.step (h : s.Consistent events) (compile : Compiler) (move : Move)
    (hfresh : ((events ++ (s.event? move).toList).filterMap BuildEvent.drawn?).Nodup) :
    (s.step compile move).Consistent (events ++ (s.event? move).toList) :=
  h.handled (s.handled_step compile move) hfresh

/-- Every run keeps them in agreement. -/
theorem Consistent.run (h : s.Consistent events) (compile : Compiler) (moves : List Move)
    (hfresh : ((events ++ s.history compile moves).filterMap BuildEvent.drawn?).Nodup) :
    (s.run compile moves).Consistent (events ++ s.history compile moves) := by
  induction moves generalizing s events with
  | nil =>
      rw [history, List.append_nil]
      exact h
  | cons move moves ih =>
      rw [history, ← List.append_assoc] at hfresh ⊢
      have hfirst : ((events ++ (s.event? move).toList).filterMap BuildEvent.drawn?).Nodup := by
        rw [List.filterMap_append] at hfresh
        exact (List.nodup_append.mp hfresh).1
      exact ih (h.step compile move hfirst) hfresh

end Runs

/-! ## At most one build for each tag -/

/-- A worker that deploys what its build generated. -/
def Deploys (s : Server σ) (i : Nat) (r : BuildRequest) : Prop :=
  ∃ tag policies, s.workers[i]? = some (.busy ⟨r, .deploy tag policies⟩)

/-- Items at two places of a list that selects nothing twice are selected as different
things. -/
theorem index_eq_of_nodup_filterMap {α β : Type} {f : α → Option β} {l : List α} {i j : Nat}
    {a a' : α} {b : β} (h : (l.filterMap f).Nodup) (ha : l[i]? = some a) (ha' : l[j]? = some a')
    (hb : f a = some b) (hb' : f a' = some b) : i = j := by
  rw [List.Nodup, List.pairwise_filterMap, List.pairwise_iff_getElem] at h
  obtain ⟨hi, rfl⟩ := List.getElem?_eq_some_iff.mp ha
  obtain ⟨hj, rfl⟩ := List.getElem?_eq_some_iff.mp ha'
  rcases Nat.lt_trichotomy i j with hlt | heq | hgt
  · exact absurd rfl (h i j hi hj hlt b hb b hb')
  · exact heq
  · exact absurd rfl (h j i hj hi hgt b hb' b hb)

/-- No two workers have builds of one tag. -/
theorem Consistent.worker_eq (h : s.Consistent events) {i j : Nat} {job job' : Job}
    (hi : s.workers[i]? = some (.busy job)) (hj : s.workers[j]? = some (.busy job'))
    (hkey : job.request.key = job'.request.key) : i = j := by
  have hheld (k : Nat) (job : Job) (hk : s.workers[k]? = some (.busy job)) :
      job.request ∈ s.held := by
    refine List.mem_append_right _ (List.mem_append_right _ ?_)
    exact List.mem_filterMap.mpr ⟨_, List.mem_of_getElem? hk, rfl⟩
  have hsame := h.tracks.eq_of_key_eq (hheld i job hi) (hheld j job' hj) hkey
  have hdistinct : s.held.Nodup := h.tracks.distinct.of_map _
  rw [held, ← List.append_assoc] at hdistinct
  exact index_eq_of_nodup_filterMap (f := Worker.held?) (List.nodup_append.mp hdistinct).2.1 hi hj
    rfl (congrArg some hsame.symm)

/-- In whatever order calls and workers move, a tag has at most one build in flight, the
tracker names exactly the builds in flight, and no two workers deploy builds of one tag at
a time. -/
theorem one_build_per_tag [Store σ] {config : ServerConfig} {store : σ}
    (hstart : Server.start config store = .ok s) (compile : Compiler) (moves : List Move)
    (hfresh : ((s.history compile moves).filterMap BuildEvent.drawn?).Nodup) :
    (∀ r ∈ BuildEvent.inFlight (s.history compile moves),
      ∀ r' ∈ BuildEvent.inFlight (s.history compile moves), r.key = r'.key → r = r') ∧
    (∀ key id, (s.run compile moves).tracker.inFlight.find? key = some id ↔
      ⟨id, key⟩ ∈ BuildEvent.inFlight (s.history compile moves)) ∧
    ∀ i j r r', (s.run compile moves).Deploys i r → (s.run compile moves).Deploys j r' →
      r.key = r'.key → i = j := by
  have h : (s.run compile moves).Consistent (s.history compile moves) :=
    (consistent_start hstart).run compile moves hfresh
  refine ⟨fun r hr r' hr' hkey => ?_, fun key id => ?_, ?_⟩
  · exact h.tracks.eq_of_key_eq ((h.inFlight r).mp hr) ((h.inFlight r').mp hr') hkey
  · rw [h.tracks.inFlight, h.inFlight]
  · rintro i j r r' ⟨tag, policies, hi⟩ ⟨tag', policies', hj⟩ hkey
    exact h.worker_eq hi hj hkey

/-- A store with one group and two tags of it. -/
def twoTags : Repository :=
  let snapshot : Snapshot := { group := { name := "g" } }
  let tagged (name : String) : TaggedSnapshot := ⟨{ name, createdAt := .epoch }, snapshot⟩
  ⟨.ofList [(⟨"o", "g"⟩, ⟨snapshot, .ofList [("v1", tagged "v1"), ("v2", tagged "v2")]⟩)]⟩

/-- Two workers, and a queue for two builds. -/
def twoWorkers : ServerConfig where
  scheduler := { poolSize := 2, maxQueueSize := 2 }

/-- Three calls submit two tags, one of them twice, and move by turns; then two workers
move by turns until each of them deploys. -/
def interleavedMoves : List Move :=
  let advance (call : Nat) (fresh : BuildId) : Move := .advance call fresh .epoch
  let round := [advance 0 "a", advance 1 "b", advance 2 "c"]
  let work := [Move.work 0 .done .epoch, .work 1 .done .epoch]
  [.submit ⟨"o", "g", "v1"⟩, .submit ⟨"o", "g", "v1"⟩, .submit ⟨"o", "g", "v2"⟩] ++
    (List.replicate 6 round).flatten ++ (List.replicate 6 work).flatten

/-- Both workers deploy at a time, builds of different tags; the second call for the first
tag was told of the build in flight. -/
theorem one_build_per_tag_interleaved :
    ∃ s, Server.start twoWorkers twoTags = .ok s ∧
      BuildEvent.inFlight (s.history noCompiler interleavedMoves) =
        [⟨"c", ⟨"o", "g", "v2"⟩⟩, ⟨"a", ⟨"o", "g", "v1"⟩⟩] ∧
      (s.run noCompiler interleavedMoves).workers.all (fun w => match w with
        | .busy ⟨_, .deploy _ _⟩ => true
        | _ => false) ∧
      (∀ key id, (s.run noCompiler interleavedMoves).tracker.inFlight.find? key = some id ↔
        ⟨id, key⟩ ∈ BuildEvent.inFlight (s.history noCompiler interleavedMoves)) ∧
      ∀ i j r r', (s.run noCompiler interleavedMoves).Deploys i r →
        (s.run noCompiler interleavedMoves).Deploys j r' → r.key = r'.key → i = j := by
  refine ⟨_, rfl, by decide +kernel, by decide +kernel, ?_⟩
  have hstart : Server.start twoWorkers twoTags = .ok _ := rfl
  exact (one_build_per_tag hstart noCompiler interleavedMoves (by decide +kernel)).2

end Server

end RouteCompiler
