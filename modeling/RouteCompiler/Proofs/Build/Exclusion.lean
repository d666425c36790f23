import RouteCompiler.Proofs.Build.Tracking
import RouteCompiler.Time.Epoch
import Mathlib.Data.List.Induction

/-!
# One build for each tag

The tracker says twice which builds have not ended: by their records, and by the build in
flight of each tag.  A server calls it only for builds that it holds.  This module asks what
becomes of the two if anybody may call it, in any order and for any build, also for one that
ended long ago.

What is in flight has always a record, and has not ended.  The converse can fail in two ways:
a build that has ended is started again, or it is discarded while the next build of its tag
is in flight.

Main definitions:

- `Tracker.Operation`: whatever can be done to a tracker.
- `Tracker.Grounded`: every build in flight has not ended.
- `Tracker.Agrees`: the builds in flight are those that have not ended.
- `Tracker.Allows`: an operation is none of the two that break this.

Main results:

- Lemma `Sound.perform`: under every operation what is in flight stays grounded.
- Lemma `agrees_perform_iff`: an operation is allowed exactly if it keeps the agreement.
- Theorem `agrees_iff_allowed`: records and builds in flight agree all along exactly if every
  operation is allowed in its turn, and only then a tag has at most one build.
-/

namespace RouteCompiler.Tracker

/-! ## Operations -/

/-- Whatever can be done to a tracker. -/
inductive Operation where
  | register (key : TagKey) (fresh : BuildId) (now : Instant)
  | discard (id : BuildId)
  | start (id : BuildId) (now : Instant)
  | complete (id : BuildId) (now : Instant)
  | fail (id : BuildId) (error : String) (now : Instant)

/-- The tracker after an operation, which changes nothing if it fails. -/
def perform (t : Tracker) : Operation → Tracker
  | .register key fresh now => (t.register key fresh now).2
  | .discard id => t.discard id
  | .start id now => (t.start id now).toOption.getD t
  | .complete id now => (t.complete id now).toOption.getD t
  | .fail id error now => (t.fail id error now).toOption.getD t

/-- The tracker after some operations. -/
def performAll (t : Tracker) (operations : List Operation) : Tracker :=
  operations.foldl perform t

/-- The identifier that an operation draws, if a new build is registered. -/
def drawnBy? (t : Tracker) : Operation → Option BuildId
  | .register key fresh _ => if (t.inFlight.find? key).isNone then some fresh else none
  | _ => none

/-- The identifiers that some operations draw. -/
def drawnBy (t : Tracker) : List Operation → List BuildId
  | [] => []
  | operation :: later => (t.drawnBy? operation).toList ++ (t.perform operation).drawnBy later

/-- What holds of a tracker and after an operation that succeeds, holds in any case. -/
theorem getD_of (P : Tracker → Prop) {t : Tracker} {result : Except BuildError Tracker} (h : P t)
    (hok : ∀ t', result = .ok t' → P t') : P (result.toOption.getD t) := by
  cases result with
  | ok t' => exact hok t' rfl
  | error e => exact h

theorem performAll_append (t : Tracker) (before later : List Operation) :
    t.performAll (before ++ later) = (t.performAll before).performAll later :=
  List.foldl_append ..

theorem drawnBy_append (t : Tracker) (before later : List Operation) :
    t.drawnBy (before ++ later) = t.drawnBy before ++ (t.performAll before).drawnBy later := by
  induction before generalizing t with
  | nil => rfl
  | cons operation before ih =>
      rw [List.cons_append, drawnBy, drawnBy, ih, List.append_assoc]
      rfl

theorem drawnBy_concat (t : Tracker) (before : List Operation) (operation : Operation) :
    t.drawnBy (before ++ [operation]) =
      t.drawnBy before ++ ((t.performAll before).drawnBy? operation).toList := by
  rw [drawnBy_append, drawnBy, drawnBy, List.append_nil]

variable {t t' : Tracker} {id other : BuildId} {key : TagKey} {known : Option TagKey}
  {running : Option BuildId} {r : BuildRecord} {drawn : List BuildId}

/-! ## Records and builds in flight -/

/-- Every build in flight has a record of its tag, and has not ended. -/
def Grounded (t : Tracker) : Prop :=
  ∀ key id, t.inFlight.find? key = some id → t.unfinished? id = some key

/-- Exactly the builds that have a record and have not ended are in flight, each for its
tag. -/
def Agrees (t : Tracker) : Prop :=
  ∀ key id, t.inFlight.find? key = some id ↔ t.unfinished? id = some key

/-- Where both agree, a tag has at most one build. -/
theorem Agrees.eq_of_unfinished (h : t.Agrees) (hid : t.unfinished? id = some key)
    (hother : t.unfinished? other = some key) : id = other := by
  rw [← h] at hid hother
  exact Option.some.inj (hid.symm.trans hother)

/-- Where both agree, a build that has a record is in flight until it has ended. -/
theorem Agrees.inFlight_iff (h : t.Agrees) (hr : t.builds.find? id = some r) :
    t.inFlight.find? r.key = some id ↔ r.isFinished = false := by
  rw [h, unfinished_of_eq_some hr]
  cases r.isFinished <;> simp

/-- A build that has not ended is of the tag of its record. -/
theorem key_of_unfinished (hr : t.builds.find? id = some r) (h : t.unfinished? id = some key) :
    key = r.key := by
  rw [unfinished_of_eq_some hr] at h
  split at h
  · cases h
  · exact (Option.some.inj h).symm

/-- What is in flight stays grounded if the one build in flight that may be another is. -/
theorem Changes.grounded (hchanges : t.Changes t' id known key running) (h : t.Grounded)
    (hid : ∀ other, t.unfinished? id = some other → other = key)
    (hrunning : ∀ other, running = some other → t'.unfinished? other = some key) :
    t'.Grounded := by
  intro key' other hother
  rw [hchanges.inFlight] at hother
  split at hother
  · next heq => rw [heq, hrunning other hother]
  · next hne =>
    have hbefore := h key' other hother
    have hdiffers : other ≠ id := fun heq => hne (hid key' (heq ▸ hbefore))
    rw [hchanges.unfinished, if_neg hdiffers, hbefore]

/-- Where records and builds in flight agreed before, they do so again if they do for the one
tag that is concerned. -/
theorem Changes.agrees_iff (hchanges : t.Changes t' id known key running) (h : t.Agrees)
    (hid : ∀ other, t.unfinished? id = some other → other = key)
    (hknown : ∀ other, known = some other → other = key) :
    t'.Agrees ↔ ∀ other, running = some other ↔ t'.unfinished? other = some key := by
  constructor
  · intro hagrees other
    rw [← hagrees, hchanges.inFlight, if_pos rfl]
  · intro hrunning key' other
    rw [hchanges.inFlight]
    split
    · next heq => rw [heq, hrunning]
    · next hne =>
      rw [h, hchanges.unfinished]
      split
      · next heq =>
        rw [heq]
        exact iff_of_false (fun hbefore => hne (hid _ hbefore)) fun hafter => hne (hknown _ hafter)
      · rfl

/-! ## One operation -/

/-- An operation neither starts a build that has ended, nor discards one while another build
of its tag is in flight. -/
def Allows (t : Tracker) : Operation → Prop
  | .discard id => ∀ r, t.builds.find? id = some r → r.isFinished = true →
      t.inFlight.find? r.key = none
  | .start id _ => ∀ r, t.builds.find? id = some r → r.isFinished = false
  | .register .. | .complete .. | .fail .. => True

/-- What holds of a tracker all along: its records are kept under their identifiers, which
were drawn, and what is in flight is grounded. -/
structure Sound (t : Tracker) (drawn : List BuildId) : Prop where
  keyed : t.IsKeyed
  within : t.Within drawn
  grounded : t.Grounded

/-- An identifier that was not drawn has no record. -/
theorem Sound.find_eq_none (h : t.Sound drawn) (hid : id ∉ drawn) : t.builds.find? id = none :=
  Option.eq_none_iff_forall_not_mem.mpr fun r hr => hid (h.within id r hr)

theorem drawnBy_register (h : t.inFlight.find? key = none) (fresh : BuildId) (now : Instant) :
    t.drawnBy? (.register key fresh now) = some fresh := by
  rw [drawnBy?, h]
  rfl

namespace Sound

/-- Registering keeps what is in flight grounded. -/
theorem register (h : t.Sound drawn) (hfree : t.inFlight.find? key = none) {fresh : BuildId}
    (hfresh : fresh ∉ drawn) (now : Instant) :
    (t.register key fresh now).2.Sound (drawn ++ [fresh]) := by
  have hmore : t.Within (drawn ++ [fresh]) :=
    fun id r hr => List.mem_append_left _ (h.within id r hr)
  have hchanges := changes_register hfree fresh now
  refine ⟨h.keyed.register rfl, hmore.register (by simp),
    hchanges.grounded h.grounded (fun other hother => ?_) fun other hother => ?_⟩
  · rw [unfinished_of_eq_none (h.find_eq_none hfresh)] at hother
    cases hother
  · obtain rfl := Option.some.inj hother
    rw [hchanges.unfinished, if_pos rfl]

/-- Discarding keeps what is in flight grounded. -/
theorem discard (h : t.Sound drawn) (id : BuildId) : (t.discard id).Sound drawn := by
  cases hr : t.builds.find? id with
  | none =>
      rw [Tracker.discard, hr]
      exact h
  | some r =>
      refine ⟨h.keyed.discard id, h.within.discard id, ?_⟩
      exact (changes_discard hr).grounded h.grounded (fun _ => key_of_unfinished hr)
        fun other hother => by cases hother

/-- Starting keeps what is in flight grounded, also if a build has ended before. -/
theorem start (h : t.Sound drawn) {now : Instant} (hstart : t.start id now = .ok t') :
    t'.Sound drawn := by
  obtain ⟨r, hr, -⟩ := exists_of_start hstart
  have hchanges := changes_start hstart hr
  refine ⟨h.keyed.start (fun _ hid => hid) hstart, h.within.start (fun _ hid => hid) hstart,
    hchanges.grounded h.grounded (fun _ => key_of_unfinished hr) fun other hother => ?_⟩
  rw [hchanges.unfinished]
  split
  · rfl
  · exact h.grounded r.key other hother

/-- Ending keeps what is in flight grounded: another build of the tag that is in flight
stays so. -/
theorem finish (h : t.Sound drawn) {failure : Option String} {now : Instant}
    (hfinish : t.finish id failure now = .ok t') : t'.Sound drawn := by
  obtain ⟨r, hr, -⟩ := exists_of_finish hfinish
  have hchanges := changes_finish h.keyed hfinish hr
  refine ⟨h.keyed.finish (fun _ hid => hid) hfinish,
    h.within.finish (fun _ hid => hid) hfinish,
    hchanges.grounded h.grounded (fun _ => key_of_unfinished hr) fun other hother => ?_⟩
  split at hother
  · cases hother
  · next hne =>
    have hdiffers : other ≠ id := fun heq => hne (heq ▸ hother)
    rw [hchanges.unfinished, if_neg hdiffers, h.grounded r.key other hother]

/-- Under every operation what is in flight stays grounded. -/
theorem perform (h : t.Sound drawn) (operation : Operation)
    (hfresh : ∀ id, t.drawnBy? operation = some id → id ∉ drawn) :
    (t.perform operation).Sound (drawn ++ (t.drawnBy? operation).toList) := by
  have hsame : t.Sound (drawn ++ []) := (List.append_nil drawn).symm ▸ h
  cases operation with
  | register key fresh now =>
      cases hrunning : t.inFlight.find? key with
      | some running =>
          rw [Tracker.perform, register_of_eq_some hrunning, drawnBy?, hrunning]
          exact hsame
      | none =>
          have hdrawn := drawnBy_register hrunning fresh now
          rw [hdrawn]
          exact h.register hrunning (hfresh fresh hdrawn) now
  | discard id => exact (List.append_nil drawn).symm ▸ h.discard id
  | start id now => exact getD_of (·.Sound (drawn ++ [])) hsame fun t' => hsame.start
  | complete id now | fail id error now =>
      exact getD_of (·.Sound (drawn ++ [])) hsame fun t' => hsame.finish

end Sound

/-- A build that is registered is the first of its tag. -/
theorem agrees_register (hagrees : t.Agrees) (hfree : t.inFlight.find? key = none)
    (hnew : t.builds.find? id = none) (now : Instant) : (t.register key id now).2.Agrees := by
  have hchanges := changes_register hfree id now
  refine (hchanges.agrees_iff hagrees (fun other hother => ?_) fun other hother => ?_).mpr
    fun other => ?_
  · rw [unfinished_of_eq_none hnew] at hother
    cases hother
  · exact (Option.some.inj hother).symm
  · rw [hchanges.unfinished]
    split
    · next heq => simp [heq]
    · next hne => simp [← hagrees key other, hfree, Ne.symm hne]

/-- Discarding a build that has ended does harm exactly if another one of its tag is in
flight. -/
theorem agrees_discard_iff (hagrees : t.Agrees) (hr : t.builds.find? id = some r) :
    (t.discard id).Agrees ↔ (r.isFinished = true → t.inFlight.find? r.key = none) := by
  have hchanges := changes_discard hr
  rw [hchanges.agrees_iff hagrees (fun _ => key_of_unfinished hr) fun other hother => by
    cases hother]
  have hself := hagrees.inFlight_iff hr
  constructor
  · intro hnone hfinished
    refine Option.eq_none_iff_forall_not_mem.mpr fun other hother => ?_
    have hdiffers : other ≠ id := by
      rintro rfl
      rw [hself.mp hother] at hfinished
      cases hfinished
    have := (hnone other).mpr (by rw [hchanges.unfinished, if_neg hdiffers, ← hagrees, hother])
    cases this
  · intro hfree other
    rw [hchanges.unfinished]
    refine iff_of_false (fun h => by cases h) fun h => ?_
    split at h
    · cases h
    · next hdiffers =>
      rw [← hagrees] at h
      cases hfinished : r.isFinished with
      | true =>
          rw [hfree hfinished] at h
          cases h
      | false => exact hdiffers (Option.some.inj (h.symm.trans (hself.mpr hfinished)))

/-- Starting a build does harm exactly if it has ended. -/
theorem agrees_start_iff (hagrees : t.Agrees) {now : Instant} (hr : t.builds.find? id = some r)
    (hstart : t.start id now = .ok t') : t'.Agrees ↔ r.isFinished = false := by
  have hchanges := changes_start hstart hr
  rw [hchanges.agrees_iff hagrees (fun _ => key_of_unfinished hr) fun other hother =>
    (Option.some.inj hother).symm]
  have hself := hagrees.inFlight_iff hr
  rw [← hself]
  constructor
  · intro h
    exact (h id).mpr (by rw [hchanges.unfinished, if_pos rfl])
  · intro hrunning other
    rw [hchanges.unfinished]
    split
    · next heq => simp [heq, hrunning]
    · exact hagrees r.key other

/-- Ending a build does no harm, even if it has ended before. -/
theorem agrees_finish (hkeyed : t.IsKeyed) (hagrees : t.Agrees) {failure : Option String}
    {now : Instant} (hfinish : t.finish id failure now = .ok t') : t'.Agrees := by
  obtain ⟨r, hr, -⟩ := exists_of_finish hfinish
  have hchanges := changes_finish hkeyed hfinish hr
  refine (hchanges.agrees_iff hagrees (fun _ => key_of_unfinished hr) fun other hother => by
    cases hother).mpr fun other => ?_
  rw [hchanges.unfinished]
  by_cases hid : other = id
  · rw [if_pos hid, hid]
    split <;> simp [*]
  · rw [if_neg hid, ← hagrees]
    split
    · next hrunning => simp [hrunning, Ne.symm hid]
    · rfl

/-- An operation is allowed exactly if records and builds in flight agree after it as they did
before. -/
theorem agrees_perform_iff (h : t.Sound drawn) (hagrees : t.Agrees) (operation : Operation)
    (hfresh : ∀ id, t.drawnBy? operation = some id → id ∉ drawn) :
    (t.perform operation).Agrees ↔ t.Allows operation := by
  cases operation with
  | register key fresh now =>
      refine iff_of_true ?_ trivial
      cases hrunning : t.inFlight.find? key with
      | some running =>
          rw [perform, register_of_eq_some hrunning]
          exact hagrees
      | none =>
          have hnew := h.find_eq_none (hfresh fresh (drawnBy_register hrunning fresh now))
          exact agrees_register hagrees hrunning hnew now
  | discard id =>
      rw [perform, Allows]
      cases hr : t.builds.find? id with
      | none =>
          rw [discard, hr]
          exact iff_of_true hagrees fun r hr => by cases hr
      | some r =>
          rw [agrees_discard_iff hagrees hr]
          exact ⟨fun h r' hr' => Option.some.inj hr' ▸ h, fun h => h r rfl⟩
  | start id now =>
      rw [perform, Allows]
      cases hr : t.builds.find? id with
      | none =>
          rw [start, build, hr]
          exact iff_of_true hagrees fun r hr => by cases hr
      | some r =>
          rw [start_eq hr]
          refine (agrees_start_iff hagrees hr (start_eq hr now)).trans ?_
          exact ⟨fun h r' hr' => Option.some.inj hr' ▸ h, fun h => h r rfl⟩
  | complete id now | fail id error now =>
      exact iff_of_true (getD_of Agrees hagrees fun t' => agrees_finish h.keyed hagrees) trivial

/-! ## Sequences of operations -/

theorem sound_empty (historyLimit : Nat) : (empty historyLimit).Sound [] where
  keyed := fun id r hr => by cases hr
  within := fun id r hr => by cases hr
  grounded := fun key id hid => by cases hid

theorem agrees_empty (historyLimit : Nat) : (empty historyLimit).Agrees :=
  fun _ _ => iff_of_false (fun h => by cases h) fun h => by cases h

/-- Whatever is done to a tracker, what is in flight is grounded. -/
theorem Sound.performAll (h : t.Sound drawn) (operations : List Operation)
    (hfresh : (drawn ++ t.drawnBy operations).Nodup) :
    (t.performAll operations).Sound (drawn ++ t.drawnBy operations) := by
  induction operations using List.reverseRecOn with
  | nil => exact (List.append_nil drawn).symm ▸ h
  | append_singleton before operation ih =>
      rw [drawnBy_concat, ← List.append_assoc] at hfresh ⊢
      rw [performAll_append]
      refine (ih hfresh.of_append_left).perform operation fun id hid hmem => ?_
      exact List.disjoint_of_nodup_append hfresh hmem (by rw [hid]; simp)

/-- A build that has not ended and is not in flight gets company: once its tag is registered,
the tag has two builds. -/
theorem Sound.exists_second (h : t.Sound drawn) (hid : t.unfinished? id = some key)
    (hstray : t.inFlight.find? key ≠ some id) {fresh : BuildId} (hfresh : fresh ∉ drawn)
    (now : Instant) :
    ∃ other ≠ id, (t.register key fresh now).2.unfinished? id = some key ∧
      (t.register key fresh now).2.unfinished? other = some key := by
  cases hrunning : t.inFlight.find? key with
  | some running =>
      rw [register_of_eq_some hrunning]
      refine ⟨running, fun heq => hstray (heq ▸ hrunning), hid, h.grounded key running hrunning⟩
  | none =>
      have hchanges := changes_register hrunning fresh now
      have hdiffers : fresh ≠ id := by
        rintro rfl
        rw [unfinished_of_eq_none (h.find_eq_none hfresh)] at hid
        cases hid
      refine ⟨fresh, hdiffers, ?_, ?_⟩
      · rw [hchanges.unfinished, if_neg hdiffers.symm, hid]
      · rw [hchanges.unfinished, if_pos rfl]

/-- The tracker has at most one build of each tag if builds that have ended are left alone.
Whatever is done to it, every build in flight has not ended.  Conversely exactly the builds
that have not ended are in flight, after every operation of a sequence, if and only if no
operation starts a build that has ended or discards one while another build of its tag is in
flight.  Where this holds no tag has two builds; where it does not, there is a tag that has,
as soon as it is registered. -/
theorem agrees_iff_allowed (historyLimit : Nat) (operations : List Operation)
    (hfresh : ((empty historyLimit).drawnBy operations).Nodup) :
    let after := (empty historyLimit).performAll
    (after operations).Grounded ∧
    ((∀ before later, operations = before ++ later → (after before).Agrees) ↔
      ∀ before operation later, operations = before ++ operation :: later →
        (after before).Allows operation) ∧
    ((after operations).Agrees → ∀ id other key,
      (after operations).unfinished? id = some key →
      (after operations).unfinished? other = some key → id = other) ∧
    (¬(after operations).Agrees → ∃ id key, (after operations).unfinished? id = some key ∧
      ∀ fresh ∉ (empty historyLimit).drawnBy operations, ∀ now, ∃ other ≠ id,
        ((after operations).register key fresh now).2.unfinished? id = some key ∧
        ((after operations).register key fresh now).2.unfinished? other = some key) := by
  intro after
  have hsound (before later : List Operation) (heq : operations = before ++ later) :
      (after before).Sound ((empty historyLimit).drawnBy before) := by
    rw [heq, drawnBy_append] at hfresh
    exact (sound_empty historyLimit).performAll before hfresh.of_append_left
  have hall := hsound operations [] (List.append_nil _).symm
  have hstep (before : List Operation) (operation : Operation) (later : List Operation)
      (heq : operations = before ++ operation :: later) (hagrees : (after before).Agrees) :
      (after (before ++ [operation])).Agrees ↔ (after before).Allows operation := by
    have hafter : after (before ++ [operation]) = (after before).perform operation :=
      performAll_append ..
    rw [hafter]
    refine agrees_perform_iff (hsound before _ heq) hagrees operation fun id hid hmem => ?_
    rw [heq, drawnBy_append, drawnBy] at hfresh
    exact List.disjoint_of_nodup_append hfresh hmem (by
      rw [show ((empty historyLimit).performAll before).drawnBy? operation = some id from hid]
      simp)
  refine ⟨hall.grounded, ⟨fun hagrees before operation later heq => ?_,
    fun hallowed before => ?_⟩, fun hagrees id other key => hagrees.eq_of_unfinished,
    fun hnot => ?_⟩
  · exact (hstep before operation later heq (hagrees before _ heq)).mp
      (hagrees (before ++ [operation]) later (by rw [heq, List.append_assoc]; rfl))
  · induction before using List.reverseRecOn with
    | nil => exact fun _ _ => agrees_empty historyLimit
    | append_singleton before operation ih =>
        intro later heq
        rw [List.append_assoc] at heq
        exact (hstep before operation later heq (ih _ heq)).mpr (hallowed before _ later heq)
  · -- What is in flight is grounded, so only a build that is not in flight can be at odds.
    have hstray : ∃ id key, (after operations).unfinished? id = some key ∧
        (after operations).inFlight.find? key ≠ some id := by
      by_contra hnone
      refine hnot fun key id => ⟨hall.grounded key id, fun hid => ?_⟩
      by_contra hne
      exact hnone ⟨id, key, hid, hne⟩
    obtain ⟨id, key, hid, hne⟩ := hstray
    exact ⟨id, key, hid, fun fresh hnew now => hall.exists_second hid hne hnew now⟩

/-- A build is discarded after it has ended, while the next build of its tag is in flight.
That one is then in flight no longer, and does not keep a third build out. -/
theorem agrees_iff_allowed_stale :
    let key : TagKey := ⟨"o", "g", "v1"⟩
    let operations : List Operation := [.register key "a" .epoch, .complete "a" .epoch,
      .register key "b" .epoch, .discard "a"]
    let after := (empty 9).performAll operations
    ¬(∀ before later, operations = before ++ later → ((empty 9).performAll before).Agrees) ∧
      after.Grounded ∧ after.unfinished? "b" = some key ∧ after.inFlight.find? key = none ∧
      (after.perform (.register key "c" .epoch)).active.map BuildRecord.id = ["b", "c"] := by
  intro key operations after
  obtain ⟨hgrounded, hiff, -, -⟩ := agrees_iff_allowed 9 operations (by decide +kernel)
  refine ⟨hiff.not.mpr fun hallowed => ?_, hgrounded, by decide +kernel, by decide +kernel,
    by decide +kernel⟩
  have hallows := hallowed (operations.take 3) (.discard "a") [] rfl
  have hfree := hallows (ended (registered key "a" .epoch) none .epoch) (by decide +kernel) rfl
  revert hfree
  decide +kernel

end RouteCompiler.Tracker
