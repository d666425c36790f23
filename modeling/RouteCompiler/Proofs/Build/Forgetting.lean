import RouteCompiler.Proofs.Build.Exclusion
import Mathlib.Data.List.Perm.Subperm
import Mathlib.Data.String.Basic
import Mathlib.Order.Lattice.Nat

/-!
# Forgetting finished builds

Whenever a build ends, the tracker looks at all builds that have ended, puts them in the order
in which they did, and forgets the first ones if there are more than it may remember.  Builds
are kept by their identifiers, in another order, and they may end again, or be started again
after they have ended.  This module shows that the limit is kept all the same, and that nothing
else is ever forgotten.

Main definitions:

- `BuildRecord.EndedBefore`: the order in which builds are forgotten.
- `Tracker.finished`: the records of the builds that have ended.
- `Tracker.Forgets`: what is forgotten, and what is left.
- `Tracker.lasting`: the builds that have ended and are left.

Main results:

- Lemma `forgets_forgetSurplus`: forgetting takes the earliest builds, and no more than needed.
- Lemma `length_finished_perform_le`: no operation exceeds the limit where it was kept.
- Theorem `history_bounded`: after all operations the limit is kept, and what an operation may
  remove.
-/

namespace RouteCompiler

/-! ## The order of endings -/

namespace BuildRecord

variable {r s : BuildRecord}

/-- A build ended before another one, or at the same moment and has the smaller identifier. -/
def EndedBefore (r s : BuildRecord) : Prop :=
  r.endFields < s.endFields ∨ r.endFields = s.endFields ∧ r.id < s.id

theorem isForgottenBefore_iff :
    r.isForgottenBefore s = true ↔
      r.endFields < s.endFields ∨ r.endFields = s.endFields ∧ r.id ≤ s.id := by
  simp [isForgottenBefore]

theorem isForgottenBefore_trans (r s u : BuildRecord) (h : r.isForgottenBefore s = true)
    (h' : s.isForgottenBefore u = true) : r.isForgottenBefore u = true := by
  rw [isForgottenBefore_iff] at h h' ⊢
  rcases h with hlt | ⟨heq, hle⟩ <;> rcases h' with hlt' | ⟨heq', hle'⟩
  · exact .inl (List.lt_trans hlt hlt')
  · exact .inl (heq' ▸ hlt)
  · exact .inl (heq ▸ hlt')
  · exact .inr ⟨heq.trans heq', String.le_trans hle hle'⟩

theorem isForgottenBefore_total (r s : BuildRecord) :
    (r.isForgottenBefore s || s.isForgottenBefore r) = true := by
  rw [Bool.or_eq_true, isForgottenBefore_iff, isForgottenBefore_iff]
  rcases lt_trichotomy r.endFields s.endFields with hlt | heq | hlt
  · exact .inl (.inl hlt)
  · exact (String.le_total r.id s.id).imp (fun h => .inr ⟨heq, h⟩) fun h => .inr ⟨heq.symm, h⟩
  · exact .inr (.inl hlt)

/-- Different builds are forgotten one before the other. -/
theorem EndedBefore.of_isForgottenBefore (h : r.isForgottenBefore s = true) (hne : r.id ≠ s.id) :
    r.EndedBefore s := by
  rcases isForgottenBefore_iff.mp h with hlt | ⟨heq, hle⟩
  · exact .inl hlt
  · exact .inr ⟨heq, lt_of_le_of_ne hle hne⟩

end BuildRecord

namespace Tracker

variable {t t' : Tracker} {gone : List BuildRecord} {r : BuildRecord} {id : BuildId}
  {failure : Option String} {now : Instant}

/-! ## Builds that have ended -/

/-- The records of the builds that have ended, by identifier. -/
def finished (t : Tracker) : List BuildRecord :=
  t.builds.values.filter BuildRecord.isFinished

theorem IsKeyed.mem_finished (h : t.IsKeyed) :
    r ∈ t.finished ↔ t.builds.find? r.id = some r ∧ r.isFinished = true := by
  rw [finished, List.mem_filter, SortedMap.mem_values]
  refine and_congr_left' ⟨?_, fun hr => ⟨r.id, hr⟩⟩
  rintro ⟨key, hkey⟩
  rw [h key r hkey]
  exact hkey

/-- No two records are of one build. -/
theorem IsKeyed.nodup_finished (h : t.IsKeyed) : (t.finished.map BuildRecord.id).Nodup := by
  have hkeys : t.builds.values.map BuildRecord.id = t.builds.keys := by
    rw [SortedMap.values, SortedMap.keys, List.map_map]
    refine List.map_congr_left fun entry hentry => ?_
    exact h entry.1 entry.2 (SortedMap.find_eq_some_iff.mpr hentry)
  have hnodup : t.builds.keys.Nodup := by
    rw [SortedMap.keys, List.Nodup, List.pairwise_map]
    refine t.builds.ascending.imp fun hlt heq => ?_
    rw [heq] at hlt
    simp at hlt
  exact (hkeys ▸ hnodup).sublist (List.filter_sublist.map _)

/-- Where only builds have ended that had ended before, there are no more of them. -/
theorem IsKeyed.length_finished_le (h : t'.IsKeyed) (hsub : ∀ r ∈ t'.finished, r ∈ t.finished) :
    t'.finished.length ≤ t.finished.length :=
  (List.subperm_of_subset h.nodup_finished.of_map hsub).length_le

/-! ## Forgetting -/

/-- A tracker is left of another one after some builds are forgotten: they have ended, earlier
than all that are left and have ended, and there are just as many as exceed the limit. -/
structure Forgets (t t' : Tracker) (gone : List BuildRecord) : Prop where
  split : t.finished.Perm (gone ++ t'.finished)
  amount : gone.length = t.finished.length - t.historyLimit
  earliest : ∀ r ∈ gone, ∀ s ∈ t'.finished, r.EndedBefore s
  find : ∀ id, t'.builds.find? id =
    if id ∈ gone.map BuildRecord.id then none else t.builds.find? id

/-- The limit is kept after forgetting. -/
theorem Forgets.length_le (h : t.Forgets t' gone) : t'.finished.length ≤ t.historyLimit := by
  have hlength := h.split.length_eq
  rw [List.length_append, h.amount] at hlength
  omega

/-- The builds that have ended and are left when the surplus is forgotten, in the order in which
they ended. -/
def lasting (t : Tracker) : List BuildRecord :=
  (t.finished.mergeSort BuildRecord.isForgottenBefore).drop (t.finished.length - t.historyLimit)

theorem surplus_append_lasting (t : Tracker) :
    t.surplus ++ t.lasting = t.finished.mergeSort BuildRecord.isForgottenBefore :=
  List.take_append_drop ..

theorem perm_surplus_append_lasting (t : Tracker) :
    (t.surplus ++ t.lasting).Perm t.finished := by
  rw [surplus_append_lasting]
  exact List.mergeSort_perm ..

theorem length_surplus (t : Tracker) :
    t.surplus.length = t.finished.length - t.historyLimit := by
  have hsplit := t.perm_surplus_append_lasting.length_eq
  rw [List.length_append, lasting, List.length_drop, List.length_mergeSort] at hsplit
  omega

/-- What belongs to the surplus ended before what is left. -/
theorem isForgottenBefore_of_mem_surplus {s : BuildRecord} (hr : r ∈ t.surplus)
    (hs : s ∈ t.lasting) : r.isForgottenBefore s = true := by
  have hsorted : (t.surplus ++ t.lasting).Pairwise fun r s => r.isForgottenBefore s = true := by
    rw [surplus_append_lasting]
    exact List.pairwise_mergeSort BuildRecord.isForgottenBefore_trans
      BuildRecord.isForgottenBefore_total _
  exact (List.pairwise_append.mp hsorted).2.2 r hr s hs

/-- No build belongs to the surplus and is left. -/
theorem IsKeyed.nodup_surplus_append_lasting (h : t.IsKeyed) :
    (t.surplus.map BuildRecord.id ++ t.lasting.map BuildRecord.id).Nodup := by
  rw [← List.map_append]
  exact (t.perm_surplus_append_lasting.map _).nodup_iff.mpr h.nodup_finished

/-- What is left and has ended is the rest of the sorted list, in another order. -/
theorem IsKeyed.finished_forgetSurplus (h : t.IsKeyed) :
    t.forgetSurplus.finished.Perm t.lasting := by
  have hkeyed : t.forgetSurplus.IsKeyed := Every.forgetSurplus h
  have hnodup := h.nodup_surplus_append_lasting
  have hlasting : t.lasting.Nodup := (List.nodup_append.mp hnodup).2.1.of_map
  refine (List.perm_ext_iff_of_nodup hkeyed.nodup_finished.of_map hlasting).mpr fun r => ?_
  have hsplit : r ∈ t.finished ↔ r ∈ t.surplus ∨ r ∈ t.lasting := by
    rw [← t.perm_surplus_append_lasting.mem_iff, List.mem_append]
  rw [hkeyed.mem_finished, find_forgetSurplus]
  constructor
  · rintro ⟨hr, hfinished⟩
    split at hr
    · cases hr
    · next hnot =>
      exact (hsplit.mp (h.mem_finished.mpr ⟨hr, hfinished⟩)).resolve_left fun hgone =>
        hnot (List.mem_map_of_mem hgone)
  · intro hr
    obtain ⟨hfound, hfinished⟩ := h.mem_finished.mp (hsplit.mpr (.inr hr))
    refine ⟨?_, hfinished⟩
    rw [if_neg, hfound]
    exact fun hgone => List.disjoint_of_nodup_append hnodup hgone (List.mem_map_of_mem hr)

/-- Forgetting takes the earliest builds that have ended, and no more than needed. -/
theorem IsKeyed.forgets_forgetSurplus (h : t.IsKeyed) :
    t.Forgets t.forgetSurplus t.surplus where
  split := t.perm_surplus_append_lasting.symm.trans (h.finished_forgetSurplus.symm.append_left _)
  amount := t.length_surplus
  earliest := by
    intro r hr s hs
    have hs' := h.finished_forgetSurplus.mem_iff.mp hs
    refine .of_isForgottenBefore (isForgottenBefore_of_mem_surplus hr hs') fun heq => ?_
    exact List.disjoint_of_nodup_append h.nodup_surplus_append_lasting (List.mem_map_of_mem hr)
      (heq ▸ List.mem_map_of_mem hs')
  find := t.find_forgetSurplus

/-! ## Operations -/

/-- The build that an operation ends, what went wrong with it, and when it ends. -/
def Operation.ending? : Operation → Option (BuildId × Option String × Instant)
  | .complete id now => some (id, none, now)
  | .fail id error now => some (id, some error, now)
  | .register .. | .discard _ | .start .. => none

theorem perform_of_ending {operation : Operation}
    (h : operation.ending? = some (id, failure, now)) :
    t.perform operation = (t.finish id failure now).toOption.getD t := by
  cases operation with
  | complete | fail =>
      obtain ⟨rfl, rfl, rfl⟩ := h
      rfl
  | register | discard | start => cases h

theorem historyLimit_land (t : Tracker) (key : TagKey) (id : BuildId) :
    (t.land key id).historyLimit = t.historyLimit := by
  rw [land]
  split <;> rfl

/-- The limit never changes. -/
@[simp] theorem historyLimit_perform (t : Tracker) (operation : Operation) :
    (t.perform operation).historyLimit = t.historyLimit := by
  have hfinish (id : BuildId) (failure : Option String) (now : Instant) :
      ((t.finish id failure now).toOption.getD t).historyLimit = t.historyLimit := by
    refine getD_of (·.historyLimit = t.historyLimit) rfl fun t' hfinish => ?_
    obtain ⟨r, -, rfl⟩ := exists_of_finish hfinish
    exact historyLimit_land ..
  cases operation with
  | register key fresh now =>
      rw [perform, register]
      split <;> rfl
  | discard id =>
      rw [perform, discard]
      split <;> rfl
  | start id now =>
      refine getD_of (·.historyLimit = t.historyLimit) rfl fun t' hstart => ?_
      obtain ⟨r, -, rfl⟩ := exists_of_start hstart
      rfl
  | complete id now | fail id error now => exact hfinish ..

/-- What holds of every record holds after an operation, if it does of the record that the
operation writes. -/
theorem Every.perform {P : BuildId → BuildRecord → Prop} {operation : Operation} (h : t.Every P)
    (hregistered : ∀ key id now, P id (registered key id now))
    (hstarted : ∀ id r now, P id r → P id (started r now))
    (hended : ∀ id r failure now, t.builds.find? id = some r →
      operation.ending? = some (id, failure, now) → P id r → P id (ended r failure now)) :
    (t.perform operation).Every P := by
  cases operation with
  | register key fresh now => exact h.register (hregistered ..)
  | discard id => exact h.discard id
  | start id now => exact getD_of (·.Every P) h fun t' => h.start fun r => hstarted id r now
  | complete id now | fail id error now =>
      refine getD_of (·.Every P) h fun t' hfinish => ?_
      obtain ⟨r, hr, rfl⟩ := exists_of_finish hfinish
      exact (h.withEnded (hended id r _ now hr rfl (h id r hr))).forgetSurplus

/-- Records stay under their identifiers. -/
theorem IsKeyed.perform (h : t.IsKeyed) (operation : Operation) :
    (t.perform operation).IsKeyed :=
  Every.perform h (fun _ _ _ => rfl) (fun _ _ _ hid => hid) fun _ _ _ _ _ _ hid => hid

/-- A build that ends is one of those that have ended, and the earliest of these are
forgotten. -/
theorem IsKeyed.forgets_withEnded (h : t.IsKeyed) (hr : t.builds.find? id = some r)
    (failure : Option String) (now : Instant) :
    let ending := t.withEnded id r failure now
    ending.Forgets ending.forgetSurplus ending.surplus :=
  IsKeyed.forgets_forgetSurplus (Every.withEnded h (h id r hr))

/-- A record of a build that has not ended adds nothing to those that have. -/
theorem IsKeyed.mem_finished_of_insert (h : t.IsKeyed) (h' : t'.IsKeyed)
    (hbuilds : t'.builds = t.builds.insert id r) (hr : r.isFinished = false) :
    ∀ s ∈ t'.finished, s ∈ t.finished := by
  intro s hs
  obtain ⟨hfind, hfinished⟩ := h'.mem_finished.mp hs
  rw [hbuilds, SortedMap.find_insert] at hfind
  split at hfind
  · rw [← Option.some.inj hfind, hr] at hfinished
    cases hfinished
  · exact h.mem_finished.mpr ⟨hfind, hfinished⟩

/-- No operation exceeds the limit where it was kept. -/
theorem IsKeyed.length_finished_perform_le (h : t.IsKeyed)
    (hle : t.finished.length ≤ t.historyLimit) (operation : Operation) :
    (t.perform operation).finished.length ≤ t.historyLimit := by
  have hmore {t' : Tracker} (h' : t'.IsKeyed) (hsub : ∀ r ∈ t'.finished, r ∈ t.finished) :
      t'.finished.length ≤ t.historyLimit := (h'.length_finished_le hsub).trans hle
  have hfinish {id : BuildId} {failure : Option String} {now : Instant} (t' : Tracker)
      (hfinish : t.finish id failure now = .ok t') : t'.finished.length ≤ t.historyLimit := by
    obtain ⟨r, hr, rfl⟩ := exists_of_finish hfinish
    exact (h.forgets_withEnded hr _ _).length_le.trans_eq (historyLimit_land ..)
  have hkeyed := h.perform operation
  cases operation with
  | register key fresh now =>
      cases hrunning : t.inFlight.find? key with
      | some running =>
          rw [Tracker.perform, register_of_eq_some hrunning]
          exact hle
      | none =>
          rw [Tracker.perform, register_of_eq_none hrunning] at hkeyed ⊢
          exact hmore hkeyed (h.mem_finished_of_insert hkeyed rfl rfl)
  | discard id =>
      cases hr : t.builds.find? id with
      | none =>
          rw [Tracker.perform, Tracker.discard, hr]
          exact hle
      | some r =>
          rw [Tracker.perform, discard_eq hr] at hkeyed ⊢
          refine hmore hkeyed fun s hs => ?_
          obtain ⟨hfind, hfinished⟩ := hkeyed.mem_finished.mp hs
          rw [SortedMap.find_erase] at hfind
          split at hfind
          · cases hfind
          · exact h.mem_finished.mpr ⟨hfind, hfinished⟩
  | start id now =>
      refine getD_of (·.finished.length ≤ t.historyLimit) hle fun t' hstart => ?_
      have hkeyed' : t'.IsKeyed := Every.start h (fun _ hid => hid) hstart
      obtain ⟨r, hr, rfl⟩ := exists_of_start hstart
      exact hmore hkeyed' (h.mem_finished_of_insert (r := started r now) hkeyed' rfl rfl)
  | complete id now | fail id error now =>
      exact getD_of (·.finished.length ≤ t.historyLimit) hle hfinish

/-- A build that has not ended stays, unless an operation discards it or ends it. -/
theorem Sound.unfinished_perform {drawn : List BuildId} {key : TagKey} (h : t.Sound drawn)
    {operation : Operation} (hfresh : ∀ id, t.drawnBy? operation = some id → id ∉ drawn)
    (hid : t.unfinished? id = some key) (hdiscard : operation ≠ .discard id)
    (hending : ∀ failure now, operation.ending? ≠ some (id, failure, now)) :
    (t.perform operation).unfinished? id = some key := by
  have hfinish {other : BuildId} {failure : Option String} {now : Instant} (hne : id ≠ other)
      (t' : Tracker) (hfinish : t.finish other failure now = .ok t') :
      t'.unfinished? id = some key := by
    obtain ⟨r, hr, -⟩ := exists_of_finish hfinish
    rw [(changes_finish h.keyed hfinish hr).unfinished, if_neg hne, hid]
  cases operation with
  | register tag fresh now =>
      cases hrunning : t.inFlight.find? tag with
      | some running =>
          rw [Tracker.perform, register_of_eq_some hrunning]
          exact hid
      | none =>
          have hnew := h.find_eq_none (hfresh fresh (drawnBy_register hrunning fresh now))
          rw [Tracker.perform, (changes_register hrunning fresh now).unfinished, if_neg, hid]
          rintro rfl
          rw [unfinished_of_eq_none hnew] at hid
          cases hid
  | discard other =>
      have hne : id ≠ other := fun heq => hdiscard (heq ▸ rfl)
      cases hr : t.builds.find? other with
      | none =>
          rw [Tracker.perform, Tracker.discard, hr]
          exact hid
      | some r => rw [Tracker.perform, (changes_discard hr).unfinished, if_neg hne, hid]
  | start other now =>
      refine getD_of (·.unfinished? id = some key) hid fun t' hstart => ?_
      obtain ⟨r, hr, -⟩ := exists_of_start hstart
      rw [(changes_start hstart hr).unfinished]
      split
      · next heq => rw [key_of_unfinished (heq ▸ hr) hid]
      · exact hid
  | complete other now =>
      exact getD_of (·.unfinished? id = some key) hid
        (hfinish fun heq => hending none now (heq ▸ rfl))
  | fail other error now =>
      exact getD_of (·.unfinished? id = some key) hid
        (hfinish fun heq => hending (some error) now (heq ▸ rfl))

/-! ## Sequences of operations -/

theorem historyLimit_performAll (t : Tracker) (operations : List Operation) :
    (t.performAll operations).historyLimit = t.historyLimit := by
  induction operations using List.reverseRecOn with
  | nil => rfl
  | append_singleton before operation ih =>
      rw [performAll_append]
      exact (historyLimit_perform ..).trans ih

theorem IsKeyed.performAll (h : t.IsKeyed) (operations : List Operation) :
    (t.performAll operations).IsKeyed := by
  induction operations using List.reverseRecOn with
  | nil => exact h
  | append_singleton before operation ih =>
      rw [performAll_append]
      exact ih.perform operation

/-- The limit is kept all along. -/
theorem length_finished_performAll_le (historyLimit : Nat) (operations : List Operation) :
    ((empty historyLimit).performAll operations).finished.length ≤ historyLimit := by
  induction operations using List.reverseRecOn with
  | nil => exact Nat.zero_le _
  | append_singleton before operation ih =>
      have hkeyed := (sound_empty historyLimit).keyed.performAll before
      have hlimit := historyLimit_performAll (empty historyLimit) before
      rw [performAll_append]
      exact (hkeyed.length_finished_perform_le (ih.trans_eq hlimit.symm) operation).trans_eq hlimit

/-- At most so many builds that have ended are remembered as the limit says, after whatever was
done to the tracker.  An operation that ends a build forgets builds that have ended, the earliest
ones, and no more than needed.  A build that has not ended stays so, unless an operation discards
or ends it. -/
theorem history_bounded (historyLimit : Nat) (operations : List Operation) (operation : Operation)
    (hfresh : ((empty historyLimit).drawnBy (operations ++ [operation])).Nodup) :
    let t := (empty historyLimit).performAll operations
    let t' := t.perform operation
    t'.finished.length ≤ historyLimit ∧
    (∀ id failure now, operation.ending? = some (id, failure, now) →
      (t.builds.find? id = none ∧ t' = t) ∨
      ∃ r gone, t.builds.find? id = some r ∧ (t.withEnded id r failure now).Forgets t' gone) ∧
    ∀ id key, t.unfinished? id = some key → operation ≠ .discard id →
      (∀ failure now, operation.ending? ≠ some (id, failure, now)) →
      t'.unfinished? id = some key := by
  intro t t'
  have hall : (empty historyLimit).performAll (operations ++ [operation]) = t' :=
    performAll_append ..
  rw [drawnBy_concat] at hfresh
  have hsound : t.Sound ([] ++ (empty historyLimit).drawnBy operations) :=
    (sound_empty historyLimit).performAll operations hfresh.of_append_left
  refine ⟨hall ▸ length_finished_performAll_le .., fun id failure now hending => ?_,
    fun id key => hsound.unfinished_perform fun fresh hdrawn hmem => ?_⟩
  · have hperform : t' = (t.finish id failure now).toOption.getD t := perform_of_ending hending
    cases hr : t.builds.find? id with
    | none =>
        rw [finish, build, hr] at hperform
        exact .inl ⟨rfl, hperform⟩
    | some r =>
        rw [finish_eq hr] at hperform
        refine .inr ⟨r, (t.withEnded id r failure now).surplus, rfl, ?_⟩
        rw [hperform]
        exact hsound.keyed.forgets_withEnded hr failure now
  · exact List.disjoint_of_nodup_append hfresh hmem (by rw [hdrawn]; simp)

/-- Two builds end at the same moment, and only one may be remembered.  One of them is forgotten
when the second one ends, and a third build runs on. -/
theorem history_bounded_same_moment :
    let first := registered ⟨"o", "g", "v1"⟩ "a" .epoch
    let operations : List Operation := [.register first.key "a" .epoch,
      .register ⟨"o", "g", "v2"⟩ "b" .epoch, .register ⟨"o", "g", "v3"⟩ "c" .epoch,
      .start "c" .epoch, .complete "b" .epoch]
    let t := (empty 1).performAll operations
    let t' := t.perform (.fail "a" "broken" .epoch)
    t'.finished.length ≤ 1 ∧
      (∃ gone, (t.withEnded "a" first (some "broken") .epoch).Forgets t' gone ∧
        gone.length = 1) ∧
      t'.unfinished? "c" = some ⟨"o", "g", "v3"⟩ := by
  intro first operations t t'
  obtain ⟨hlength, hending, hstays⟩ :=
    history_bounded 1 operations (.fail "a" "broken" .epoch) (by decide +kernel)
  have hfound : t.builds.find? "a" = some first := by decide +kernel
  refine ⟨hlength, ?_, hstays "c" _ (by decide +kernel) (by simp)
    fun failure now => by simp [Operation.ending?]⟩
  rcases hending "a" _ .epoch rfl with ⟨hnone, -⟩ | ⟨r, gone, hr, hforgets⟩
  · cases hnone.symm.trans hfound
  · obtain rfl := Option.some.inj (hr.symm.trans hfound)
    exact ⟨gone, hforgets, hforgets.amount.trans (by decide +kernel)⟩

end Tracker

end RouteCompiler
