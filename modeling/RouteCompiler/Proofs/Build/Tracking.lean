import RouteCompiler.Build.Server
import RouteCompiler.Proofs.Outcome
import Mathlib.Data.List.Nodup

/-!
# What the tracker knows of builds

The tracker keeps a record of every build and, apart from that, the build in flight
of each tag.  Both have to tell the same story as those who hold the builds: a build
is held from its registration until it is discarded or has ended.

Main definitions:

- `Tracker.Every`: what holds of every record.
- `Tracker.unfinished?`: the tag of a build that has a record and has not ended.
- `Tracker.Changes`: what an operation changes of one build and one tag.
- `Tracker.Tracks`: a tracker and a list of builds tell the same story.

Main results:

- Lemmas `exists_of_start` and `exists_of_finish`: starting or ending a build that has a record
  puts another record in its place.
- Lemmas `changes_register`, `changes_discard`, `changes_start` and `changes_finish`: what
  every operation of the tracker changes.
- Theorems `Tracks.register`, `Tracks.discard`, `Tracks.start` and `Tracks.finish`: every
  operation of the tracker keeps them in step, if the list follows.
- Theorem `Tracks.eq_of_key_eq`: a tag has at most one of the builds.
-/

namespace RouteCompiler

namespace Tracker

variable {t t' : Tracker} {id other : BuildId} {key : TagKey} {r : BuildRecord}
  {failure : Option String} {now : Instant}

/-! ## Records -/

/-- What holds of every record, together with the identifier under which it is kept. -/
def Every (t : Tracker) (P : BuildId → BuildRecord → Prop) : Prop :=
  ∀ id r, t.builds.find? id = some r → P id r

/-- Every record is kept under its own identifier. -/
def IsKeyed (t : Tracker) : Prop :=
  t.Every fun id r => r.id = id

/-- All records are of builds with some identifiers. -/
def Within (t : Tracker) (ids : List BuildId) : Prop :=
  t.Every fun id _ => id ∈ ids

/-- The tag of a build that has a record and has not ended. -/
def unfinished? (t : Tracker) (id : BuildId) : Option TagKey :=
  ((t.builds.find? id).filter fun r => !r.isFinished).map BuildRecord.key

theorem unfinished_of_eq_none (h : t.builds.find? id = none) : t.unfinished? id = none := by
  rw [unfinished?, h]
  rfl

theorem unfinished_of_eq_some (h : t.builds.find? id = some r) :
    t.unfinished? id = if r.isFinished then none else some r.key := by
  rw [unfinished?, h]
  cases hfinished : r.isFinished <;> simp [Option.filter, hfinished]

theorem unfinished_eq_some :
    t.unfinished? id = some key ↔
      ∃ r, t.builds.find? id = some r ∧ r.isFinished = false ∧ r.key = key := by
  simp only [unfinished?, Option.map_eq_some_iff, Option.filter_eq_some_iff, Bool.not_eq_true',
    and_assoc]

theorem unfinished_congr (h : t.builds.find? id = t'.builds.find? id) :
    t.unfinished? id = t'.unfinished? id := by
  rw [unfinished?, unfinished?, h]

/-- Another record of a build changes what is known of that build only. -/
theorem unfinished_of_insert (h : t'.builds = t.builds.insert id r) (other : BuildId) :
    t'.unfinished? other =
      if other = id then if r.isFinished then none else some r.key else t.unfinished? other := by
  split
  · next heq => rw [heq, unfinished_of_eq_some (h ▸ SortedMap.find_insert_self ..)]
  · next hne => exact unfinished_congr (h ▸ SortedMap.find_insert_of_ne _ _ hne)

/-- Who waits for a build is told what its record says. -/
theorem find_of_answer (h : t.answer? id = some (.ok r)) : t.builds.find? id = some r := by
  rw [answer?] at h
  split at h
  · next r' hr =>
    split at h
    · obtain rfl := Except.ok.inj (Option.some.inj h)
      rw [build] at hr
      split at hr
      · next hfound => rw [hfound, Except.ok.inj hr]
      · cases hr
    · cases h
  · cases h

theorem Every.insert {P : BuildId → BuildRecord → Prop} (h : t.Every P) (hP : P id r)
    (ht' : t'.builds = t.builds.insert id r) : t'.Every P := by
  intro other r' hr'
  rw [ht'] at hr'
  by_cases hother : other = id
  · rw [hother, SortedMap.find_insert_self, Option.some.injEq] at hr'
    rw [hother, ← hr']
    exact hP
  · rw [SortedMap.find_insert_of_ne _ _ hother] at hr'
    exact h other r' hr'

/-! ## Forgetting -/

/-- Removing records by their identifiers. -/
theorem find_foldl_erase (rs : List BuildRecord) (m : SortedMap BuildId BuildRecord)
    (id : BuildId) :
    (rs.foldl (fun m r => m.erase r.id) m).find? id =
      if id ∈ rs.map BuildRecord.id then none else m.find? id := by
  induction rs generalizing m with
  | nil => simp
  | cons r rs ih =>
      rw [List.foldl_cons, ih]
      by_cases hlater : id ∈ rs.map BuildRecord.id
      · simp [hlater]
      · by_cases hid : id = r.id
        · simp [hid]
        · simp [hlater, hid, SortedMap.find_erase_of_ne]

/-- Only builds that have ended are too many. -/
theorem of_mem_surplus (h : r ∈ t.surplus) : r ∈ t.builds.values ∧ r.isFinished = true := by
  have hmem := List.mem_of_mem_take h
  rw [List.mem_mergeSort] at hmem
  exact List.mem_filter.mp hmem

/-- A record is forgotten or stays as it is. -/
theorem find_forgetSurplus (t : Tracker) (id : BuildId) :
    t.forgetSurplus.builds.find? id =
      if id ∈ t.surplus.map BuildRecord.id then none else t.builds.find? id :=
  find_foldl_erase ..

/-- What holds of every record holds of those that are not forgotten. -/
theorem Every.forgetSurplus {P : BuildId → BuildRecord → Prop} (h : t.Every P) :
    t.forgetSurplus.Every P := by
  intro id r hr
  rw [find_forgetSurplus] at hr
  split at hr
  · cases hr
  · exact h id r hr

/-- No build that has not ended is forgotten. -/
theorem IsKeyed.unfinished_forgetSurplus (h : t.IsKeyed) (id : BuildId) :
    t.forgetSurplus.unfinished? id = t.unfinished? id := by
  have hfind := find_forgetSurplus t id
  by_cases hmem : id ∈ t.surplus.map BuildRecord.id
  · obtain ⟨r, hr, hid⟩ := List.mem_map.mp hmem
    obtain ⟨hvalue, hfinished⟩ := of_mem_surplus hr
    obtain ⟨other, hother⟩ := SortedMap.mem_values.mp hvalue
    have hfound : t.builds.find? id = some r := by
      rw [← hid, h other r hother]
      exact hother
    rw [if_pos hmem] at hfind
    rw [unfinished_of_eq_none hfind, unfinished_of_eq_some hfound, if_pos hfinished]
  · rw [if_neg hmem] at hfind
    exact unfinished_congr hfind

/-! ## Operations -/

theorem register_of_eq_some {running : BuildId} (h : t.inFlight.find? key = some running)
    (id : BuildId) (now : Instant) : t.register key id now = (.existing running, t) := by
  rw [register, h]

/-- The record of a build that was registered. -/
def registered (key : TagKey) (id : BuildId) (now : Instant) : BuildRecord where
  id := id
  key := key
  status := .scheduled
  submittedAt := now

theorem register_of_eq_none (h : t.inFlight.find? key = none) (id : BuildId) (now : Instant) :
    t.register key id now = (.fresh id, { t with
      builds := t.builds.insert id (registered key id now)
      inFlight := t.inFlight.insert key id }) := by
  rw [register, h]
  rfl

theorem discard_eq (h : t.builds.find? id = some r) :
    t.discard id = { t with builds := t.builds.erase id, inFlight := t.inFlight.erase r.key } := by
  rw [discard, h]

/-- Discarding a build that has just been registered undoes the registration. -/
theorem discard_register (hfree : t.inFlight.find? key = none)
    (hnew : t.builds.find? id = none) (now : Instant) :
    (t.register key id now).2.discard id = t := by
  rw [register_of_eq_none hfree, discard_eq (SortedMap.find_insert_self ..)]
  simp only [registered, SortedMap.erase_insert, SortedMap.erase_of_find_eq_none hfree,
    SortedMap.erase_of_find_eq_none hnew]

/-- The record of a build that runs. -/
def started (r : BuildRecord) (now : Instant) : BuildRecord :=
  { r with status := .building, startedAt := some now }

/-- The record of a build that has ended. -/
def ended (r : BuildRecord) (failure : Option String) (now : Instant) : BuildRecord :=
  { r with
    status := if failure.isNone then .successful else .failed
    error := failure
    endedAt := some now }

theorem start_eq (h : t.builds.find? id = some r) (now : Instant) :
    t.start id now = .ok { t with builds := t.builds.insert id (started r now) } := by
  rw [start, build, h]
  rfl

/-- The tracker in which a build has ended, before finished builds are forgotten. -/
def withEnded (t : Tracker) (id : BuildId) (r : BuildRecord) (failure : Option String)
    (now : Instant) : Tracker :=
  { t with builds := t.builds.insert id (ended r failure now) }.land r.key id

theorem finish_eq (h : t.builds.find? id = some r) (failure : Option String) (now : Instant) :
    t.finish id failure now = .ok (t.withEnded id r failure now).forgetSurplus := by
  rw [finish, build, h]
  rfl

theorem builds_land (t : Tracker) (key : TagKey) (id : BuildId) :
    (t.land key id).builds = t.builds := by
  rw [land]
  split <;> rfl

/-- Only a build that has a record is started. -/
theorem exists_of_start (h : t.start id now = .ok t') : ∃ r, t.builds.find? id = some r ∧
    t' = { t with builds := t.builds.insert id (started r now) } := by
  cases hr : t.builds.find? id with
  | none =>
      rw [start, build, hr] at h
      cases h
  | some r =>
      rw [start_eq hr] at h
      exact ⟨r, rfl, (Except.ok.inj h).symm⟩

/-- Only a build that has a record is ended. -/
theorem exists_of_finish (h : t.finish id failure now = .ok t') : ∃ r, t.builds.find? id = some r ∧
    t' = (t.withEnded id r failure now).forgetSurplus := by
  cases hr : t.builds.find? id with
  | none =>
      rw [finish, build, hr] at h
      cases h
  | some r =>
      rw [finish_eq hr] at h
      exact ⟨r, rfl, (Except.ok.inj h).symm⟩

section Every

variable {P : BuildId → BuildRecord → Prop}

theorem Every.register (h : t.Every P) (hP : P id (registered key id now)) :
    (t.register key id now).2.Every P := by
  cases hrunning : t.inFlight.find? key with
  | some running =>
      rw [register_of_eq_some hrunning]
      exact h
  | none =>
      rw [register_of_eq_none hrunning]
      exact h.insert hP rfl

theorem Every.discard (h : t.Every P) (id : BuildId) : (t.discard id).Every P := by
  cases hfind : t.builds.find? id with
  | none =>
      rw [Tracker.discard, hfind]
      exact h
  | some record =>
      rw [discard_eq hfind]
      intro other r hr
      by_cases hid : other = id
      · rw [hid, SortedMap.find_erase_self] at hr
        cases hr
      · rw [SortedMap.find_erase_of_ne _ hid] at hr
        exact h other r hr

theorem Every.start (h : t.Every P) (hP : ∀ r, P id r → P id (started r now))
    (hstart : t.start id now = .ok t') : t'.Every P := by
  obtain ⟨record, hfind, rfl⟩ := exists_of_start hstart
  exact h.insert (hP record (h id record hfind)) rfl

theorem Every.withEnded (h : t.Every P)
    (hP : P id (ended r failure now)) : (t.withEnded id r failure now).Every P :=
  h.insert hP (builds_land ..)

theorem Every.finish (h : t.Every P) (hP : ∀ r, P id r → P id (ended r failure now))
    (hfinish : t.finish id failure now = .ok t') : t'.Every P := by
  obtain ⟨record, hfind, rfl⟩ := exists_of_finish hfinish
  exact (h.withEnded (hP record (h id record hfind))).forgetSurplus

end Every

theorem isFinished_ended (r : BuildRecord) (failure : Option String) (now : Instant) :
    (ended r failure now).isFinished = true := by
  cases failure <;> rfl

/-! ### What an operation changes -/

/-- Trackers differ at most in whether one build has not ended, and in which build of one tag
is in flight. -/
structure Changes (t t' : Tracker) (id : BuildId) (known : Option TagKey) (key : TagKey)
    (running : Option BuildId) : Prop where
  unfinished : ∀ other, t'.unfinished? other = if other = id then known else t.unfinished? other
  inFlight : ∀ other,
    t'.inFlight.find? other = if other = key then running else t.inFlight.find? other

/-- A build that is registered has not ended, and is in flight. -/
theorem changes_register (h : t.inFlight.find? key = none) (id : BuildId) (now : Instant) :
    t.Changes (t.register key id now).2 id (some key) key (some id) := by
  rw [register_of_eq_none h]
  exact ⟨unfinished_of_insert (r := registered key id now) rfl, SortedMap.find_insert _ _ _⟩

/-- After a build is discarded no build of its tag is in flight. -/
theorem changes_discard (h : t.builds.find? id = some r) :
    t.Changes (t.discard id) id none r.key none := by
  rw [discard_eq h]
  refine ⟨fun other => ?_, SortedMap.find_erase _ _⟩
  split
  · next heq => rw [heq, unfinished_of_eq_none (SortedMap.find_erase_self ..)]
  · next hne => exact unfinished_congr (SortedMap.find_erase_of_ne _ hne)

/-- A build that runs has not ended.  What is in flight stays so. -/
theorem changes_start (h : t.start id now = .ok t') (hr : t.builds.find? id = some r) :
    t.Changes t' id (some r.key) r.key (t.inFlight.find? r.key) := by
  rw [start_eq hr, Except.ok.injEq] at h
  subst h
  refine ⟨unfinished_of_insert (r := started r now) rfl, fun other => ?_⟩
  split
  · next heq => rw [heq]
  · rfl

/-- After a build has ended it is not in flight.  Another build of its tag may be. -/
theorem changes_finish (hkeyed : t.IsKeyed) (h : t.finish id failure now = .ok t')
    (hr : t.builds.find? id = some r) :
    t.Changes t' id none r.key
      (if t.inFlight.find? r.key = some id then none else t.inFlight.find? r.key) := by
  rw [finish_eq hr, Except.ok.injEq] at h
  subst h
  have hbuilds : (t.withEnded id r failure now).builds = t.builds.insert id (ended r failure now) :=
    builds_land ..
  have hended : (t.withEnded id r failure now).IsKeyed :=
    hkeyed.insert (r := ended r failure now) (hkeyed id r hr) hbuilds
  refine ⟨fun other => ?_, fun other => ?_⟩
  · rw [hended.unfinished_forgetSurplus, unfinished_of_insert hbuilds,
      if_pos (isFinished_ended ..)]
  · change (t.withEnded id r failure now).inFlight.find? other = _
    rw [withEnded, land]
    by_cases hrunning : t.inFlight.find? r.key = some id
    · rw [if_pos hrunning, if_pos hrunning, SortedMap.find_erase]
    · rw [if_neg hrunning, if_neg hrunning]
      split
      · next heq => rw [heq]
      · rfl

end Tracker

/-! ## Trackers and those who hold builds -/

/-- Builds with the same identifier and the same tag are the same. -/
theorem BuildRequest.eq_of {r r' : BuildRequest} (hid : r.id = r'.id) (hkey : r.key = r'.key) :
    r = r' := by
  obtain ⟨id, key⟩ := r
  obtain ⟨id', key'⟩ := r'
  obtain rfl : id = id' := hid
  obtain rfl : key = key' := hkey
  rfl

/-- A tracker and a list of builds tell the same story: exactly the builds of the list
have not ended, and exactly they are in flight. -/
structure Tracker.Tracks (t : Tracker) (held : List BuildRequest) : Prop where
  keyed : t.IsKeyed
  distinct : (held.map BuildRequest.id).Nodup
  unfinished : ∀ r, r ∈ held ↔ t.unfinished? r.id = some r.key
  inFlight : ∀ key id, t.inFlight.find? key = some id ↔ ⟨id, key⟩ ∈ held

namespace Tracker.Tracks

variable {t : Tracker} {held held' : List BuildRequest} {r r' : BuildRequest} {now : Instant}

/-- Without builds there is nothing to tell. -/
theorem empty (historyLimit : Nat) : (Tracker.empty historyLimit).Tracks [] where
  keyed := fun id r h => by cases h
  distinct := List.nodup_nil
  unfinished := fun r => by simp [unfinished?, Tracker.empty]
  inFlight := fun key id => by simp [Tracker.empty]

theorem perm (h : t.Tracks held) (hperm : held'.Perm held) : t.Tracks held' where
  keyed := h.keyed
  distinct := (hperm.map _).nodup_iff.mpr h.distinct
  unfinished := fun r => hperm.mem_iff.trans (h.unfinished r)
  inFlight := fun key id => (h.inFlight key id).trans hperm.mem_iff.symm

/-- A tag has at most one of the builds. -/
theorem eq_of_key_eq (h : t.Tracks held) (hr : r ∈ held) (hr' : r' ∈ held)
    (hkey : r.key = r'.key) : r = r' := by
  have hfound := (h.inFlight r.key r.id).mpr hr
  have hfound' := (h.inFlight r'.key r'.id).mpr hr'
  rw [← hkey, hfound, Option.some.injEq] at hfound'
  exact BuildRequest.eq_of hfound' hkey

/-- A build has one tag. -/
theorem eq_of_id_eq (h : t.Tracks held) (hr : r ∈ held) (hr' : r' ∈ held)
    (hid : r.id = r'.id) : r = r' :=
  List.inj_on_of_nodup_map h.distinct hr hr' hid

theorem exists_record (h : t.Tracks held) (hr : r ∈ held) :
    ∃ record, t.builds.find? r.id = some record ∧ record.isFinished = false ∧
      record.key = r.key :=
  unfinished_eq_some.mp ((h.unfinished r).mp hr)

/-- A build that is registered anew is held from then on. -/
theorem register (h : t.Tracks held) (hfree : t.inFlight.find? r.key = none)
    (hfresh : t.builds.find? r.id = none) (now : Instant) :
    (t.register r.key r.id now).2.Tracks (r :: held) := by
  have hchanges := changes_register hfree r.id now
  have hid : ∀ other ∈ held, other.id ≠ r.id := by
    intro other hother heq
    obtain ⟨record, hrecord, -⟩ := h.exists_record hother
    rw [heq, hfresh] at hrecord
    cases hrecord
  have hkey : ∀ other ∈ held, other.key ≠ r.key := by
    intro other hother heq
    rw [← heq, (h.inFlight other.key other.id).mpr hother] at hfree
    cases hfree
  refine ⟨h.keyed.register rfl, ?_, fun other => ?_, fun key id => ?_⟩
  · rw [List.map_cons, List.nodup_cons]
    refine ⟨fun hmem => ?_, h.distinct⟩
    obtain ⟨other, hother, heq⟩ := List.mem_map.mp hmem
    exact hid other hother heq
  · rw [hchanges.unfinished, List.mem_cons]
    split
    · next heq =>
      rw [or_iff_left fun hother => hid other hother heq, Option.some.injEq]
      exact ⟨fun hsame => hsame ▸ rfl, fun hsame => BuildRequest.eq_of heq hsame.symm⟩
    · next hne =>
      rw [← h.unfinished]
      exact or_iff_right fun heq => hne (heq ▸ rfl)
  · rw [hchanges.inFlight, List.mem_cons]
    split
    · next heq =>
      rw [or_iff_left fun hother => hkey _ hother heq, Option.some.injEq]
      exact ⟨fun hsame => BuildRequest.eq_of hsame.symm heq, fun hsame => hsame ▸ rfl⟩
    · next hne =>
      rw [h.inFlight]
      exact (or_iff_right fun heq : (⟨id, key⟩ : BuildRequest) = r => hne (heq ▸ rfl)).symm

/-- The first build differs from the others, and so does its tag. -/
theorem ne_of_mem (h : t.Tracks (r :: held)) (hr' : r' ∈ held) :
    r'.id ≠ r.id ∧ r'.key ≠ r.key := by
  have hnot : r ∉ held := by
    have hdistinct := h.distinct
    rw [List.map_cons, List.nodup_cons] at hdistinct
    exact fun hr => hdistinct.1 (List.mem_map_of_mem hr)
  constructor
  · intro hid
    exact hnot (h.eq_of_id_eq (List.mem_cons_of_mem _ hr') List.mem_cons_self hid ▸ hr')
  · intro hkey
    exact hnot (h.eq_of_key_eq (List.mem_cons_of_mem _ hr') List.mem_cons_self hkey ▸ hr')

/-- A tracker in which a build is unfinished and in flight no longer, and nothing else has
changed. -/
theorem release {t' : Tracker} (h : t.Tracks (r :: held)) (hkeyed : t'.IsKeyed)
    (hchanges : t.Changes t' r.id none r.key none) : t'.Tracks held := by
  refine ⟨hkeyed, ?_, fun other => ?_, fun key id => ?_⟩
  · have hdistinct := h.distinct
    rw [List.map_cons] at hdistinct
    exact hdistinct.of_cons
  · rw [hchanges.unfinished]
    split
    · next hid =>
      exact iff_of_false (fun hmem => (h.ne_of_mem hmem).1 hid) fun heq => by cases heq
    · next hid =>
      rw [← h.unfinished, List.mem_cons]
      exact (or_iff_right fun heq : other = r => hid (heq ▸ rfl)).symm
  · rw [hchanges.inFlight]
    split
    · next hkey =>
      exact iff_of_false (fun heq => by cases heq) fun hmem => (h.ne_of_mem hmem).2 hkey
    · next hkey =>
      rw [h.inFlight, List.mem_cons]
      exact or_iff_right fun heq : (⟨id, key⟩ : BuildRequest) = r => hkey (heq ▸ rfl)

/-- A build that is discarded is held no longer. -/
theorem discard (h : t.Tracks (r :: held)) : (t.discard r.id).Tracks held := by
  obtain ⟨record, hrecord, -, hkey⟩ := h.exists_record List.mem_cons_self
  exact h.release (h.keyed.discard r.id) (hkey ▸ changes_discard hrecord)

/-- A build that is noted to run is still held. -/
theorem start (h : t.Tracks held) (hr : r ∈ held) (now : Instant) :
    ∃ t', t.start r.id now = .ok t' ∧ t'.Tracks held := by
  obtain ⟨record, hrecord, -, hkey⟩ := h.exists_record hr
  have hstart := start_eq hrecord now
  refine ⟨_, hstart, h.keyed.start (fun _ hid => hid) hstart, h.distinct, fun other => ?_,
    h.inFlight⟩
  rw [(changes_start hstart hrecord).unfinished, h.unfinished]
  split
  · next hid => rw [hid, (h.unfinished r).mp hr, hkey]
  · rfl

/-- A build that is noted to have ended is held no longer. -/
theorem finish (h : t.Tracks (r :: held)) (failure : Option String) (now : Instant) :
    ∃ t', t.finish r.id failure now = .ok t' ∧ t'.Tracks held := by
  obtain ⟨record, hrecord, -, hkey⟩ := h.exists_record List.mem_cons_self
  have hfinish := finish_eq hrecord failure now
  have hrunning : t.inFlight.find? record.key = some r.id :=
    hkey ▸ (h.inFlight r.key r.id).mpr List.mem_cons_self
  have hchanges := changes_finish h.keyed hfinish hrecord
  rw [if_pos hrunning, hkey] at hchanges
  exact ⟨_, hfinish, h.release (h.keyed.finish (fun _ hid => hid) hfinish) hchanges⟩

end Tracker.Tracks

end RouteCompiler
