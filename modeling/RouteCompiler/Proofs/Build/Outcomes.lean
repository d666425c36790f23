import RouteCompiler.Proofs.Build.Forgetting
import RouteCompiler.Proofs.Build.Interleaving

/-!
# What is known of a build that has ended

Who waits for a build is told its record once it has ended, and the same moment builds that
ended earlier may be forgotten.  As long as the clock goes forward none of those can be the
build that has just ended, so the answer is there if the server may remember a build at all.
A configuration that lets it remember none is valid, too: then every build is forgotten as it
ends, and all who wait for one are told that there is no such build.

Main definitions:

- `Tracker.readings`: the readings of the clock that some operations take.
- `Tracker.EndsAt`: every build ended at one of some moments, if it has ended.

Main results:

- Lemma `Forgets.find_of_latest`: the latest build that has ended is not forgotten, if any
  build may be remembered.
- Lemma `endsAt_performAll`: builds end when the clock is read.
- Theorem `Server.answer_after_finish`: what a server knows of a build that has just ended.
-/

namespace RouteCompiler

namespace Tracker

variable {t t' : Tracker} {gone : List BuildRecord} {r : BuildRecord} {id : BuildId}
  {failure : Option String} {now : Instant} {moments : List Instant}

/-! ## The latest build -/

/-- The latest build that has ended is not forgotten, if any build may be remembered. -/
theorem Forgets.find_of_latest (h : t.Forgets t' gone) (hkeyed : t.IsKeyed)
    (hlimit : t.historyLimit ≠ 0) (hr : r ∈ t.finished)
    (hlatest : ∀ s ∈ t.finished, ¬r.EndedBefore s) : t'.builds.find? r.id = some r := by
  obtain ⟨hfind, -⟩ := hkeyed.mem_finished.mp hr
  rw [h.find, if_neg, hfind]
  intro hgone
  obtain ⟨r', hr', heq⟩ := List.mem_map.mp hgone
  have hsame : r' = r := by
    have hmem := h.split.mem_iff.mpr (List.mem_append_left _ hr')
    exact Option.some.inj ((heq ▸ (hkeyed.mem_finished.mp hmem).1).symm.trans hfind)
  -- Less than all is forgotten, so that something is left, which would have ended later.
  have hlength := h.split.length_eq
  have hpos := List.length_pos_of_mem hr
  rw [List.length_append, h.amount] at hlength
  obtain ⟨s, hs⟩ := List.exists_mem_of_length_pos (l := t'.finished) (by omega)
  exact hlatest s (h.split.mem_iff.mpr (List.mem_append_right _ hs))
    (hsame ▸ h.earliest r' hr' s hs)

/-- Where no build may be remembered, none that has ended is. -/
theorem Forgets.find_of_limit_zero (h : t.Forgets t' gone) (hlimit : t.historyLimit = 0)
    (hr : r ∈ t.finished) : t'.builds.find? r.id = none := by
  have hnone : t'.finished = [] :=
    List.length_eq_zero_iff.mp (Nat.le_zero.mp (hlimit ▸ h.length_le))
  have hmem := h.split.mem_iff.mp hr
  rw [hnone, List.append_nil] at hmem
  rw [h.find, if_pos (List.mem_map_of_mem hmem)]

/-! ## Readings of the clock -/

/-- The reading of the clock that an operation takes, if it comes to that. -/
def reading? (t : Tracker) : Operation → Option Instant
  | .register key _ now => if (t.inFlight.find? key).isNone then some now else none
  | .discard _ => none
  | .start id now | .complete id now | .fail id _ now =>
      if (t.builds.find? id).isSome then some now else none

/-- The readings of the clock that some operations take. -/
def readings (t : Tracker) : List Operation → List Instant
  | [] => []
  | operation :: later => (t.reading? operation).toList ++ (t.perform operation).readings later

theorem readings_concat (t : Tracker) (before : List Operation) (operation : Operation) :
    t.readings (before ++ [operation]) =
      t.readings before ++ ((t.performAll before).reading? operation).toList := by
  induction before generalizing t with
  | nil => simp [readings, performAll]
  | cons first before ih =>
      rw [List.cons_append, readings, readings, ih, List.append_assoc]
      rfl

theorem reading_of_ending {operation : Operation} (hr : t.builds.find? id = some r)
    (h : operation.ending? = some (id, failure, now)) : t.reading? operation = some now := by
  cases operation with
  | complete | fail =>
      obtain ⟨rfl, rfl, rfl⟩ := h
      rw [reading?, hr]
      rfl
  | register | discard | start => cases h

/-- Every build ended at one of some moments, if it has ended. -/
def EndsAt (t : Tracker) (moments : List Instant) : Prop :=
  t.Every fun _ r => ∀ moment, r.endedAt = some moment → moment ∈ moments

/-- A build ends when the clock is read. -/
theorem EndsAt.perform (h : t.EndsAt moments) (operation : Operation) :
    (t.perform operation).EndsAt (moments ++ (t.reading? operation).toList) := by
  have hmore : t.EndsAt (moments ++ (t.reading? operation).toList) :=
    fun id r hr moment hmoment => List.mem_append_left _ (h id r hr moment hmoment)
  refine Every.perform hmore (fun _ _ _ moment hmoment => by cases hmoment)
    (fun _ _ _ hends => hends) fun id r failure now hr hending _ moment hmoment => ?_
  rw [reading_of_ending hr hending, ← Option.some.inj hmoment]
  simp

/-- Builds end when the clock is read. -/
theorem endsAt_performAll (historyLimit : Nat) (operations : List Operation) :
    ((empty historyLimit).performAll operations).EndsAt
      ((empty historyLimit).readings operations) := by
  induction operations using List.reverseRecOn with
  | nil => exact fun id r hr => by cases hr
  | append_singleton before operation ih =>
      rw [performAll_append, readings_concat]
      exact ih.perform operation

/-- A build that ends now has not ended before one that ended earlier. -/
theorem not_endedBefore (r : BuildRecord) (failure : Option String) {s : BuildRecord}
    (h : ∀ moment, s.endedAt = some moment → moment.isBefore now = true) :
    ¬(ended r failure now).EndedBefore s := by
  have hlt : s.endFields < now.fields := by
    rw [BuildRecord.endFields]
    cases hmoment : s.endedAt with
    | none => exact List.nil_lt_cons ..
    | some moment => simpa [Instant.isBefore] using h moment hmoment
  rintro (hbefore | ⟨hsame, -⟩)
  · exact lt_asymm hlt hbefore
  · exact hlt.ne hsame.symm

/-- A build ends as the latest one, if the clock has gone forward. -/
theorem EndsAt.find_forgetSurplus (h : t.EndsAt moments) (hkeyed : t.IsKeyed)
    (hr : t.builds.find? id = some r) (hclock : ∀ moment ∈ moments, moment.isBefore now = true)
    (failure : Option String) :
    (t.withEnded id r failure now).forgetSurplus.builds.find? id =
      if t.historyLimit = 0 then none else some (ended r failure now) := by
  have hid : r.id = id := hkeyed id r hr
  have hkeyed' : (t.withEnded id r failure now).IsKeyed := Every.withEnded hkeyed hid
  have hforgets := hkeyed.forgets_withEnded hr failure now
  have hbuilds : (t.withEnded id r failure now).builds = t.builds.insert id (ended r failure now) :=
    builds_land ..
  have hended : ended r failure now ∈ (t.withEnded id r failure now).finished :=
    hkeyed'.mem_finished.mpr ⟨by rw [hbuilds, show (ended r failure now).id = id from hid,
      SortedMap.find_insert_self], isFinished_ended ..⟩
  have hlimit : (t.withEnded id r failure now).historyLimit = t.historyLimit := historyLimit_land ..
  split
  · next hzero => exact hid ▸ hforgets.find_of_limit_zero (hlimit.trans hzero) hended
  · next hpos =>
    refine hid ▸ hforgets.find_of_latest hkeyed' (hlimit ▸ hpos) hended fun s hs => ?_
    obtain ⟨hs, -⟩ := hkeyed'.mem_finished.mp hs
    rw [hbuilds, SortedMap.find_insert] at hs
    split at hs
    · obtain rfl := Option.some.inj hs
      rintro (hlt | ⟨-, hlt⟩) <;> exact lt_irrefl _ hlt
    · exact not_endedBefore r failure fun moment hmoment =>
        hclock moment (h s.id s hs moment hmoment)

/-- Who waits for a build is told its record once it has ended, and before that nothing. -/
theorem answer_of_eq_some (h : t.builds.find? id = some r) :
    t.answer? id = if r.isFinished then some (.ok r) else none := by
  rw [answer?, build, h]

/-- Who waits for a build that has no record is told so. -/
theorem answer_of_eq_none (h : t.builds.find? id = none) :
    t.answer? id = some (.error (.buildNotFound id)) := by
  rw [answer?, build, h]

end Tracker

/-! ## Servers -/

namespace Server

/-- A server starts with every valid configuration.  Whatever is done to its tracker, any build
that has a record can end; if the clock has gone forward all along, its record is found then,
and told to all who wait for it, exactly if the configuration lets the server remember a
finished build.  Otherwise there is no such build any more, and nobody is told how it ended. -/
theorem answer_after_finish {σ : Type} (config : ServerConfig) (store : σ)
    (hvalid : config.validate = .ok ()) :
    ∃ s, Server.start config store = .ok s ∧ ∀ operations id r failure now,
      let t := s.tracker.performAll operations
      let answer := if config.historyLimit = 0 then .error (.buildNotFound id)
        else .ok (Tracker.ended r failure now)
      (s.tracker.readings operations ++ [now]).Pairwise (fun m m' => m.isBefore m' = true) →
      t.builds.find? id = some r →
      (r.isFinished = false → t.answer? id = none) ∧
      ∃ t', t.finish id failure now = .ok t' ∧ t'.build id = answer ∧
        t'.answer? id = some answer := by
  have hstart : ∃ s, Server.start config store = .ok s := by
    rw [Server.start, hvalid]
    exact ⟨_, rfl⟩
  obtain ⟨s, hs⟩ := hstart
  refine ⟨s, hs, ?_⟩
  intro operations id r failure now t answer hclock hr
  refine ⟨fun hunfinished => ?_, _, Tracker.finish_eq hr failure now, ?_⟩
  · rw [Tracker.answer_of_eq_some hr, hunfinished]
    rfl
  obtain rfl := eq_of_start hs
  have hlimit : t.historyLimit = 0 ↔ config.historyLimit = 0 := by
    rw [show t.historyLimit = config.historyLimit.toNat from Tracker.historyLimit_performAll ..,
      ← UInt64.toNat_inj]
    rfl
  have hkeyed : t.IsKeyed := (Tracker.sound_empty _).keyed.performAll operations
  have hends : t.EndsAt _ := Tracker.endsAt_performAll config.historyLimit.toNat operations
  have hfind := hends.find_forgetSurplus hkeyed hr
    (fun moment hmoment => (List.pairwise_append.mp hclock).2.2 moment hmoment now (by simp))
    failure
  simp only [hlimit] at hfind
  by_cases hzero : config.historyLimit = 0
  · rw [if_pos hzero] at hfind
    rw [Tracker.answer_of_eq_none hfind, Tracker.build, hfind, show answer = _ from if_pos hzero]
    exact ⟨rfl, rfl⟩
  · rw [if_neg hzero] at hfind
    rw [Tracker.answer_of_eq_some hfind, Tracker.build, hfind, show answer = _ from if_neg hzero,
      if_pos (Tracker.isFinished_ended ..)]
    exact ⟨rfl, rfl⟩

/-- A server that may remember no build starts, and forgets the only build of its tag when that
ends.  Who waits for the build is told of it by a server that may remember one. -/
theorem answer_after_finish_at_once :
    let key : TagKey := ⟨"o", "g", "v1"⟩
    let later : Instant := { Instant.epoch with second := 1, second_le := by decide }
    let answer (config : ServerConfig) (answer : Except BuildError BuildRecord) : Prop :=
      ∃ s t', Server.start config () = .ok s ∧
        (s.tracker.register key "a" .epoch).2.complete "a" later = .ok t' ∧
        t'.answer? "a" = some answer
    answer { historyLimit := 0 } (.error (.buildNotFound "a")) ∧
      answer { historyLimit := 1 } (.ok (Tracker.ended (Tracker.registered key "a" .epoch) none
        later)) := by
  intro key later answer
  constructor
  · obtain ⟨s, hs, h⟩ := answer_after_finish { historyLimit := 0 } () rfl
    obtain rfl := eq_of_start hs
    obtain ⟨-, t', hfinish, -, hanswer⟩ := h [.register key "a" .epoch] "a"
      (Tracker.registered key "a" .epoch) none later (by decide +kernel) (by decide +kernel)
    exact ⟨_, t', hs, hfinish, hanswer⟩
  · obtain ⟨s, hs, h⟩ := answer_after_finish { historyLimit := 1 } () rfl
    obtain rfl := eq_of_start hs
    obtain ⟨-, t', hfinish, -, hanswer⟩ := h [.register key "a" .epoch] "a"
      (Tracker.registered key "a" .epoch) none later (by decide +kernel) (by decide +kernel)
    exact ⟨_, t', hs, hfinish, hanswer⟩

end Server

end RouteCompiler
