import RouteCompiler.Proofs.Build.Authoring
import RouteCompiler.Proofs.Build.Phases

/-!
# Statuses of tags

A worker writes the record of a tag from a copy that it fetched earlier, and nobody checks
what the store holds by then.  This module shows what it does hold: in every phase of a
build the status of its tag is known, and the copy, if there is one, is the stored record.

Main definitions:

- `Server.write?`: the record that an action asks the store to write.
- `Expected`: what is stored of a tag whose build is in a phase.
- `Server.Fits`: everything stored is as expected.
- `Server.Rewrites`: which record is made of which.
- `Proceeds`: what a job does next where everything is as expected.

Main results:

- Theorem `store_step`: a move writes that record, and leaves the store alone otherwise.
- Theorem `Fits.tag_act_cases`: what an action makes of the record of a tag.
- Theorem `fits_play`: after every interleaving everything stored is as expected.
-/

namespace RouteCompiler

/-- Others than the server do nothing to the store but author. -/
def Action.IsAuthored : Action Repository → Prop
  | .move .. => True
  | .change f => ∃ edit : Edit, f = edit.apply

/-! ## Writing records -/

/-- The record that the next move of a call writes, with its key. -/
def Submission.write? (c : Submission) : Option (TagKey × Tag) :=
  match c.stage with
  | .mark _ tag => some (c.key, Server.scheduledTag tag)
  | _ => none

theorem Submission.key_of_write {c : Submission} {x : TagKey × Tag} (h : c.write? = some x) :
    x.1 = c.key := by
  obtain ⟨key, stage⟩ := c
  cases stage with
  | mark id tag => rw [← Option.some.inj h]
  | lookUp | register | reserve | refresh | enqueue | withdraw | answered => cases h

/-- The record that the next move of a job writes, with its key. -/
def Job.write? (now : Instant) (job : Job) : Option (TagKey × Tag) :=
  match job.stage with
  | .mark tag _ => some (job.request.key, Server.buildingTag tag)
  | .record tag outcome => some (job.request.key, Server.finishedTag tag outcome now)
  | _ => none

theorem Job.key_of_write {now : Instant} {job : Job} {x : TagKey × Tag}
    (h : job.write? now = some x) : x.1 = job.request.key := by
  obtain ⟨request, stage⟩ := job
  cases stage with
  | mark | record => rw [← Option.some.inj h]
  | fetchTag | fetchSnapshot | start | generate | deploy | report => cases h

/-- The record that an action asks the store to write, with its key. -/
def Server.write? {σ : Type} (s : Server σ) : Action σ → Option (TagKey × Tag)
  | .move _ (.advance call _ _) => s.submissions[call]?.bind Submission.write?
  | .move _ (.work worker _ now) => (s.job? worker).bind (Job.write? now)
  | .move _ (.submit _) | .move _ .shutDown | .change _ => none

namespace Repository

variable {r r' : Repository} {key : TagKey} {tag : Tag}

/-- The store after a record is written, if one is. -/
def write (r : Repository) : Option (TagKey × Tag) → Repository
  | some (key, tag) => (Store.updateTag key tag r).2
  | none => r

/-- The record of a tag that is there can be written for a build. -/
theorem store_updateTag {stored : Tag} (h : r.tag? key = some stored) (tag : Tag) :
    Store.updateTag key tag r = (.ok (), r.write (some (key, tag))) := by
  obtain ⟨t, ht, -⟩ := Option.map_eq_some_iff.mp h
  obtain ⟨r', hr'⟩ := exists_updateTag ht tag
  simp only [write, Store.updateTag, hr']

/-- Writing a record changes that record only, if it is there, and leaves its snapshot. -/
theorem tagged_write (r : Repository) (key : TagKey) (tag : Tag) (other : TagKey) :
    (r.write (some (key, tag))).tagged? other =
      if other = key then (r.tagged? key).map fun t => { t with tag := { tag with name := key.tag } }
      else r.tagged? other := by
  cases hwrite : r.updateTag key tag with
  | ok r' =>
      have hstore : r.write (some (key, tag)) = r' := by
        simp only [write, Store.updateTag, hwrite]
      rw [hstore, tagged_updateTag hwrite]
  | error e =>
      have hstore : r.write (some (key, tag)) = r := by
        simp only [write, Store.updateTag, hwrite]
      have hnone : r.tagged? key = none := by
        refine Option.eq_none_iff_forall_not_mem.mpr fun t ht => ?_
        obtain ⟨r', hr'⟩ := exists_updateTag ht tag
        rw [hr'] at hwrite
        cases hwrite
      rw [hstore]
      split
      · next heq => rw [heq, hnone, Option.map_none]
      · rfl

/-- Writing a record changes that record only, and only if it is there. -/
theorem tag_write (r : Repository) (key : TagKey) (tag : Tag) (other : TagKey) :
    (r.write (some (key, tag))).tag? other =
      if other = key then (r.tag? key).map fun _ => { tag with name := key.tag }
      else r.tag? other := by
  rw [tag?, tagged_write, tag?, tag?]
  split <;> simp [Function.comp_def]

/-- A record that is written over another is there. -/
theorem tag_write_self {stored : Tag} (h : r.tag? key = some stored) (hname : tag.name = key.tag) :
    (r.write (some (key, tag))).tag? key = some tag := by
  rw [tag_write, if_pos rfl, h, Option.map_some, ← hname]

/-- Every record bears the name under which it is kept, and none is kept for a working
copy. -/
def IsNamed (r : Repository) : Prop :=
  ∀ key tag, r.tag? key = some tag → tag.name = key.tag ∧ key.tag ≠ masterTag

/-- What a tag was and what it is in a store that has grown. -/
theorem Grows.tag_cases (h : r.Grows r') (key : TagKey) :
    r'.tag? key = r.tag? key ∨ r.tag? key = none ∧ ∃ t : TaggedSnapshot,
      r'.tag? key = some t.tag ∧ t.IsNew key := by
  rcases h key with hsame | ⟨hnone, t, hsome, hnew⟩
  · rw [tag?, hsame]
    exact .inl rfl
  · rw [tag?, tag?, hnone, hsome]
    exact .inr ⟨rfl, t, rfl, hnew⟩

theorem IsNamed.write (h : r.IsNamed) (w : Option (TagKey × Tag)) : (r.write w).IsNamed := by
  cases w with
  | none => exact h
  | some w =>
      intro other tag htag
      rw [tag_write] at htag
      split at htag
      · next heq =>
        obtain ⟨stored, hstored, rfl⟩ := Option.map_eq_some_iff.mp htag
        rw [heq]
        exact ⟨rfl, (h _ _ hstored).2⟩
      · exact h other tag htag

theorem IsNamed.grows (h : r.IsNamed) (hgrows : r.Grows r') : r'.IsNamed := by
  intro key tag htag
  rcases hgrows.tag_cases key with hsame | ⟨-, t, hsome, hnew⟩
  · exact h key tag (hsame ▸ htag)
  · rw [hsome, Option.some.injEq] at htag
    rw [← htag]
    exact ⟨hnew.name_eq, hnew.ne_master⟩

end Repository

/-! ## Expectations -/

/-- What is stored of a tag whose build is in a phase, or that has no build in flight. -/
def Expected (stored : Option Tag) : Option Phase → Prop
  | some (.submitted (.mark _ tag)) => stored = some tag ∧ tag.status.isInFlight = false
  | some (.submitted (.enqueue _)) | some .queued | some (.running .fetchTag) =>
      ∃ tag, stored = some tag ∧ tag.status = .scheduled
  | none | some (.submitted _) => ∀ tag, stored = some tag → tag.status.isInFlight = false
  | some (.running (.fetchSnapshot tag)) | some (.running (.mark tag _)) =>
      stored = some tag ∧ tag.status = .scheduled
  | some (.running (.start tag _)) | some (.running (.generate tag _))
  | some (.running (.deploy tag _)) => stored = some tag ∧ tag.status = .building
  | some (.running (.record tag outcome)) =>
      stored = some tag ∧
        (tag.status = .building ∨ tag.status = .scheduled ∧ outcome.isOk = false)
  | some (.running (.report failure)) =>
      ∃ tag, stored = some tag ∧ tag.status = if failure.isNone then .successful else .failed

/-- A tag that comes anew is as expected. -/
theorem Expected.grows {r r' : Repository} {key : TagKey} {phase : Option Phase}
    (h : Expected (r.tag? key) phase) (hgrows : r.Grows r') : Expected (r'.tag? key) phase := by
  rcases hgrows.tag_cases key with hsame | ⟨hnone, t, hsome, hnew⟩
  · rwa [hsame]
  · -- Only where nothing need be stored can something come.
    have hrest : ∀ tag, some t.tag = some tag → tag.status.isInFlight = false := by
      intro tag htag
      rw [← Option.some.inj htag, hnew.status_eq]
      rfl
    rw [hnone] at h
    rw [hsome]
    match phase, h with
    | none, _ => exact hrest
    | some (.submitted (.mark _ _)), h => cases h.1
    | some (.submitted (.enqueue _)), h | some .queued, h | some (.running .fetchTag), h
    | some (.running (.report _)), h =>
        obtain ⟨tag, htag, -⟩ := h
        cases htag
    | some (.submitted .lookUp), _ | some (.submitted .register), _
    | some (.submitted (.reserve _)), _ | some (.submitted (.refresh _)), _
    | some (.submitted (.withdraw ..)), _ | some (.submitted (.answered _)), _ => exact hrest
    | some (.running (.fetchSnapshot _)), h | some (.running (.mark ..)), h
    | some (.running (.start ..)), h | some (.running (.generate ..)), h
    | some (.running (.deploy ..)), h | some (.running (.record ..)), h => cases h.1

/-- The tag of a build that a worker has is there. -/
theorem Expected.exists_tag {stored : Option Tag} {stage : JobStage}
    (h : Expected stored (some (.running stage))) : ∃ tag, stored = some tag := by
  cases stage with
  | fetchTag | report =>
      obtain ⟨tag, htag, -⟩ := h
      exact ⟨tag, htag⟩
  | fetchSnapshot | mark | start | generate | deploy | record => exact ⟨_, h.1⟩

namespace Server

variable {s s' : Server Repository} {old new : Option (BuildRequest × Phase)}
  {r : BuildRequest}

/-- Everything stored is as expected of the builds in flight. -/
structure Fits (s : Server Repository) : Prop where
  named : s.store.IsNamed
  phases : ∀ x ∈ s.phases, Expected (s.store.tag? x.1.key) (some x.2)
  rest : ∀ key, (∀ r ∈ s.held, r.key ≠ key) → Expected (s.store.tag? key) none

/-! ## Moves -/

/-- A move of a call writes the record of that call. -/
theorem store_advanceStage (s : Server Repository) (key : TagKey) (fresh : BuildId)
    (now : Instant) (stage : SubmissionStage) :
    (s.advanceStage key fresh now stage).2.store =
      s.store.write (Submission.write? ⟨key, stage⟩) := by
  cases stage with
  | lookUp | register | reserve | refresh | mark =>
      simp only [advanceStage]
      split <;> rfl
  | enqueue | withdraw | answered => rfl

/-- A move of a job writes the record of that job. -/
theorem store_workStage (compile : Compiler) (s : Server Repository) (r : BuildRequest)
    (deployment : DeployOutcome) (now : Instant) (stage : JobStage) :
    (s.workStage compile r deployment now stage).2.store =
      s.store.write (Job.write? now ⟨r, stage⟩) := by
  cases stage with
  | fetchTag | fetchSnapshot | mark | generate | record =>
      simp only [workStage]
      split <;> rfl
  | start | report =>
      simp only [workStage, trackerAfter]
      split <;> rfl
  | deploy => rfl

/-- A call writes its record. -/
theorem store_advance {call : Nat} {c : Submission} (hc : s.submissions[call]? = some c)
    (fresh : BuildId) (now : Instant) :
    (s.advance call fresh now).store = s.store.write c.write? := by
  simp only [advance, hc]
  exact s.store_advanceStage c.key fresh now c.stage

/-- A worker writes the record of its job. -/
theorem store_work {i : Nat} {job : Job} (hw : s.workers[i]? = some (.busy job))
    (compile : Compiler) (deployment : DeployOutcome) (now : Instant) :
    (s.work compile i deployment now).store = s.store.write (job.write? now) := by
  rw [work_of_busy hw]
  exact s.store_workStage compile job.request deployment now job.stage

/-- Moves write records, and leave the store alone otherwise. -/
theorem store_step (compile : Compiler) (s : Server Repository) (move : Move) :
    (s.step compile move).store = s.store.write (s.write? (.move compile move)) := by
  cases move with
  | submit | shutDown => rfl
  | advance call fresh now =>
      cases hc : s.submissions[call]? with
      | none => simp [step, advance, write?, hc, Repository.write]
      | some c =>
          simp only [step, write?, hc, Option.bind_some]
          exact store_advance hc fresh now
  | work i deployment now =>
      cases s.turn_work compile i deployment now with
      | rests hjob _ hsame =>
          simp only [step, write?, hjob, hsame, Option.bind_none, Repository.write]
      | leaves hidle _ _ hleft =>
          simp only [step, write?, job_of_idle hidle, hleft, Option.bind_none, Repository.write]
          rfl
      | takes hidle _ htaken =>
          simp only [step, write?, job_of_idle hidle, htaken, Option.bind_none, Repository.write]
          rfl
      | works hw =>
          simp only [step, write?, job_eq_some.mpr hw, Option.bind_some]
          exact store_work hw compile deployment now

/-- What a job does next where everything stored is as expected. -/
inductive Proceeds (compile : Compiler) (store : Repository) (r : BuildRequest)
    (deployment : DeployOutcome) : JobStage → Option JobStage → Prop
  | found {tag : Tag} (htag : store.tag? r.key = some tag) :
      Proceeds compile store r deployment .fetchTag (some (.fetchSnapshot tag))
  | fetched {tag : Tag} {snapshot : Snapshot} (hsnapshot : store.snapshot? r.key = .ok snapshot) :
      Proceeds compile store r deployment (.fetchSnapshot tag) (some (.mark tag snapshot))
  | missed {tag : Tag} {e : BuildError} :
      Proceeds compile store r deployment (.fetchSnapshot tag) (some (.record tag (.error e)))
  | marked {tag : Tag} {snapshot : Snapshot} :
      Proceeds compile store r deployment (.mark tag snapshot)
        (some (.start (buildingTag tag) snapshot))
  | started {tag : Tag} {snapshot : Snapshot} :
      Proceeds compile store r deployment (.start tag snapshot) (some (.generate tag snapshot))
  | generated {tag : Tag} {snapshot : Snapshot} {policies : List GeneratedPolicy}
      (hcompile : compile snapshot = .ok policies) :
      Proceeds compile store r deployment (.generate tag snapshot) (some (.deploy tag policies))
  | rejected {tag : Tag} {snapshot : Snapshot} {e : GenerationError}
      (hcompile : compile snapshot = .error e) :
      Proceeds compile store r deployment (.generate tag snapshot)
        (some (.record tag (.error (.generation e))))
  | deployed {tag : Tag} {policies : List GeneratedPolicy} :
      Proceeds compile store r deployment (.deploy tag policies)
        (some (.record tag (outcomeOf policies deployment)))
  | recorded {tag : Tag} {outcome : BuildOutcome} :
      Proceeds compile store r deployment (.record tag outcome)
        (some (.report (failureOf outcome)))
  | reported {failure : Option String} :
      Proceeds compile store r deployment (.report failure) none

/-- Where everything stored is as expected, a job proceeds. -/
theorem proceeds_workStage {stage : JobStage}
    (h : Expected (s.store.tag? r.key) (some (.running stage))) (compile : Compiler)
    (deployment : DeployOutcome) (now : Instant) :
    Proceeds compile s.store r deployment stage
      (s.workStage compile r deployment now stage).1 := by
  cases stage with
  | fetchTag =>
      obtain ⟨tag, htag, -⟩ := h
      simp only [workStage, Store.getTag, htag, requireTag]
      exact .found htag
  | fetchSnapshot tag =>
      simp only [workStage, Store.getSnapshot]
      split
      · next snapshot hsnapshot => exact .fetched hsnapshot
      · exact .missed
      · exact .missed
  | mark tag snapshot =>
      simp only [workStage, Repository.store_updateTag h.1]
      exact .marked
  | start tag snapshot => exact .started
  | generate tag snapshot =>
      simp only [workStage]
      split
      · next policies hcompile => exact .generated hcompile
      · next e hcompile => exact .rejected hcompile
  | deploy tag policies => exact .deployed
  | record tag outcome =>
      simp only [workStage, Repository.store_updateTag h.1]
      exact .recorded
  | report failure => exact .reported

/-- Where a job has proceeded and its record is written, everything is as expected of the
next phase. -/
theorem Proceeds.expected {compile : Compiler} {store : Repository} {deployment : DeployOutcome}
    {stage : JobStage} {next : Option JobStage} (now : Instant)
    (hproceeds : Proceeds compile store r deployment stage next) (hnamed : store.IsNamed)
    (h : Expected (store.tag? r.key) (some (.running stage))) :
    Expected ((store.write (Job.write? now ⟨r, stage⟩)).tag? r.key) (next.map .running) := by
  cases hproceeds with
  | found htag =>
      obtain ⟨tag, hsome, hstatus⟩ := h
      obtain rfl := Option.some.inj (htag.symm.trans hsome)
      exact ⟨htag, hstatus⟩
  | fetched | started | generated => exact h
  | missed => exact ⟨h.1, .inr ⟨h.2, rfl⟩⟩
  | @marked tag snapshot =>
      have hname : (buildingTag tag).name = r.key.tag := (hnamed _ _ h.1).1
      exact ⟨Repository.tag_write_self h.1 hname, rfl⟩
  | rejected | deployed => exact ⟨h.1, .inl h.2⟩
  | @recorded tag outcome =>
      have hname : (finishedTag tag outcome now).name = r.key.tag := by
        rw [← (hnamed _ _ h.1).1]
        cases outcome <;> rfl
      refine ⟨_, Repository.tag_write_self h.1 hname, ?_⟩
      cases outcome <;> rfl
  | @reported failure =>
      obtain ⟨stored, hstored, hstatus⟩ := h
      intro tag htag
      obtain rfl := Option.some.inj (hstored.symm.trans htag)
      rw [hstatus]
      cases failure <;> rfl

/-- Where everything is as expected of the phase of a call, it is so of the next phase. -/
theorem exists_callPhase {key : TagKey} {stage : SubmissionStage} {phase : Phase}
    (hphase : Submission.phase? ⟨key, stage⟩ = some (r, phase)) (hnamed : s.store.IsNamed)
    (h : Expected (s.store.tag? key) (some phase)) (fresh : BuildId) (now : Instant) :
    ∃ next, s.callPhase? key fresh now stage = next.map (r, ·) ∧
      Expected ((s.store.write (Submission.write? ⟨key, stage⟩)).tag? key) next := by
  cases stage with
  | lookUp | register | answered => cases hphase
  | reserve id =>
      obtain ⟨rfl, rfl⟩ := Prod.mk.inj (Option.some.inj hphase)
      simp only [callPhase?, advanceStage]
      split
      · exact ⟨some (.submitted (.refresh id)), rfl, h⟩
      · next e _ => exact ⟨some (.submitted (.withdraw id false e)), rfl, h⟩
  | refresh id =>
      obtain ⟨rfl, rfl⟩ := Prod.mk.inj (Option.some.inj hphase)
      simp only [callPhase?, advanceStage, Store.getTag]
      cases htag : s.store.tag? key with
      | none =>
          refine ⟨some (.submitted (.withdraw id true (.tagNotFound key))), rfl, ?_⟩
          exact fun tag hsome => h tag hsome
      | some tag => exact ⟨some (.submitted (.mark id tag)), rfl, htag, h tag htag⟩
  | mark id tag =>
      obtain ⟨rfl, rfl⟩ := Prod.mk.inj (Option.some.inj hphase)
      have hname : (scheduledTag tag).name = key.tag := (hnamed _ _ h.1).1
      simp only [callPhase?, advanceStage, Repository.store_updateTag h.1]
      refine ⟨some (.submitted (.enqueue id)), rfl, scheduledTag tag, ?_, rfl⟩
      exact Repository.tag_write_self h.1 hname
  | enqueue id =>
      obtain ⟨rfl, rfl⟩ := Prod.mk.inj (Option.some.inj hphase)
      exact ⟨some .queued, rfl, h⟩
  | withdraw id holdsPlace e =>
      obtain ⟨rfl, rfl⟩ := Prod.mk.inj (Option.some.inj hphase)
      exact ⟨none, rfl, h⟩

/-! ## Keeping expectations -/

/-- A server that works as before on the same store. -/
theorem Fits.of_perm (h : s.Fits) (hphases : s'.phases.Perm s.phases)
    (hstore : s'.store = s.store) : s'.Fits where
  named := hstore ▸ h.named
  phases := by
    intro x hx
    rw [hstore]
    exact h.phases x (hphases.mem_iff.mp hx)
  rest := by
    intro key hkey
    rw [hstore]
    refine h.rest key fun r hr => hkey r ?_
    rw [← map_fst_phases] at hr ⊢
    exact ((hphases.map Prod.fst).mem_iff).mpr hr

/-- A build comes, of a tag that has none in flight. -/
theorem Fits.come {phase : Phase} (h : s.Fits) (hshift : Shifts s s' none (some (r, phase)))
    (hstore : s'.store = s.store) (hphase : Expected (s.store.tag? r.key) (some phase)) :
    s'.Fits where
  named := hstore ▸ h.named
  phases := by
    obtain ⟨rest, hbefore, hafter⟩ := hshift
    intro x hx
    rw [hstore]
    rcases List.mem_cons.mp (hafter.mem_iff.mp hx) with rfl | hx
    · exact hphase
    · exact h.phases x (hbefore.mem_iff.mpr hx)
  rest := by
    obtain ⟨rest, hbefore, hafter⟩ := hshift
    intro key hkey
    rw [hstore]
    refine h.rest key fun r hr => hkey r ?_
    rw [← map_fst_phases] at hr ⊢
    refine ((hafter.map Prod.fst).mem_iff).mpr (List.mem_cons_of_mem _ ?_)
    exact ((hbefore.map Prod.fst).mem_iff).mp hr

/-- A build goes on to the next phase, or leaves, and its record is written. -/
theorem Fits.shift {phase : Phase} {next : Option Phase} {w : Option (TagKey × Tag)} (h : s.Fits)
    (ht : s.tracker.Tracks s.held) (hshift : Shifts s s' (some (r, phase)) (next.map (r, ·)))
    (hstore : s'.store = s.store.write w) (hw : ∀ x, w = some x → x.1 = r.key)
    (hnext : Expected ((s.store.write w).tag? r.key) next) : s'.Fits := by
  have hothers (key : TagKey) (hkey : key ≠ r.key) : s'.store.tag? key = s.store.tag? key := by
    rw [hstore]
    cases w with
    | none => rfl
    | some x => rw [Repository.tag_write, if_neg fun heq => hkey (heq.trans (hw x rfl))]
  obtain ⟨rest, hbefore, hafter⟩ := hshift
  refine ⟨hstore ▸ h.named.write w, fun x hx => ?_, fun key hkey => ?_⟩
  · rcases List.mem_append.mp (hafter.mem_iff.mp hx) with hx | hx
    · obtain ⟨phase', rfl, rfl⟩ := Option.map_eq_some_iff.mp (Option.mem_toList.mp hx)
      rw [hstore]
      exact hnext
    · rw [hothers _ (apart_of_perm hbefore ht hx).2]
      exact h.phases x (hbefore.mem_iff.mpr (List.mem_cons_of_mem _ hx))
  · by_cases heq : key = r.key
    · cases next with
      | none => rwa [heq, hstore]
      | some phase' =>
          refine absurd heq.symm (hkey r (mem_held_of_mem_phases (x := (r, phase')) ?_))
          exact hafter.mem_iff.mpr List.mem_cons_self
    · rw [hothers key heq]
      refine h.rest key fun r' hr' => ?_
      rw [← map_fst_phases] at hr'
      obtain ⟨x, hx, rfl⟩ := List.mem_map.mp hr'
      rcases List.mem_cons.mp (hbefore.mem_iff.mp hx) with rfl | hx
      · exact Ne.symm heq
      · refine hkey x.1 (mem_held_of_mem_phases ?_)
        exact hafter.mem_iff.mpr (List.mem_append_right _ hx)

/-- A move of a call keeps everything as expected. -/
theorem Fits.advance (h : s.Fits) (ht : s.tracker.Tracks s.held) (call : Nat) (fresh : BuildId)
    (now : Instant) : (s.advance call fresh now).Fits := by
  cases hc : s.submissions[call]? with
  | none =>
      simp only [Server.advance, hc]
      exact h
  | some c =>
      obtain ⟨key, stage⟩ := c
      have hshift := shifts_advance hc fresh now
      have hstore := store_advance hc fresh now
      cases hphase : Submission.phase? ⟨key, stage⟩ with
      | some x =>
          obtain ⟨r, phase⟩ := x
          have hkey : r.key = key := Submission.key_of_phase hphase
          have hexpected : Expected (s.store.tag? key) (some phase) :=
            hkey ▸ h.phases _ (mem_phases_of_call hc hphase)
          obtain ⟨next, hnext, hafter⟩ := exists_callPhase hphase h.named hexpected fresh now
          rw [hphase, hnext] at hshift
          refine h.shift ht hshift hstore (fun x hx => ?_) (hkey ▸ hafter)
          rw [Submission.key_of_write hx, hkey]
      | none =>
          have hwrite : Submission.write? ⟨key, stage⟩ = none := by
            cases stage with
            | mark => cases hphase
            | lookUp | register | reserve | refresh | enqueue | withdraw | answered => rfl
          rw [hwrite] at hstore
          rw [hphase] at hshift
          rcases s.callPhase_of_none hphase fresh now with hnone | ⟨hfree, hsome⟩
          · rw [hnone] at hshift
            exact h.of_perm hshift.perm hstore
          · rw [hsome] at hshift
            refine h.come hshift hstore (h.rest key fun r hr heq => ?_)
            have hrunning := (ht.inFlight key r.id).mpr (heq ▸ hr)
            rw [hfree] at hrunning
            cases hrunning

/-- A move of a worker keeps everything as expected. -/
theorem Fits.work (h : s.Fits) (ht : s.tracker.Tracks s.held) (compile : Compiler) (i : Nat)
    (deployment : DeployOutcome) (now : Instant) : (s.work compile i deployment now).Fits := by
  cases s.turn_work compile i deployment now with
  | rests _ _ hsame =>
      rw [hsame]
      exact h
  | leaves hidle _ _ hleft =>
      rw [hleft]
      exact h.of_perm (shifts_stop hidle).perm rfl
  | @takes r scheduler hidle htake htaken =>
      have hshift : Shifts s (s.work compile i deployment now) (some (r, .queued))
          ((some (Phase.running .fetchTag)).map (r, ·)) :=
        shifts_take hidle htake compile deployment now
      refine h.shift (w := none) ht hshift ?_ (fun x hx => by cases hx)
        (h.phases _ (mem_phases_of_take htake))
      rw [htaken]
      rfl
  | @works r stage hw =>
      have hexpected := h.phases _ (mem_phases_of_worker hw)
      have hproceeds := proceeds_workStage hexpected compile deployment now
      have hshift : Shifts s (s.work compile i deployment now) (some (r, .running stage))
          (((s.workStage compile r deployment now stage).1.map .running).map (r, ·)) := by
        rw [Option.map_map]
        exact shifts_work hw compile deployment now
      exact h.shift ht hshift (store_work hw compile deployment now)
        (fun x hx => Job.key_of_write hx) (hproceeds.expected now h.named hexpected)

/-- A change that makes the store grow keeps everything as expected. -/
theorem Fits.grows (h : s.Fits) {store : Repository} (hgrows : s.store.Grows store) :
    ({ s with store } : Server Repository).Fits where
  named := h.named.grows hgrows
  phases := fun x hx => (h.phases x hx).grows hgrows
  rest := fun key hkey => (h.rest key hkey).grows hgrows

/-! ## Records over records -/

/-- A record that is written is made of the one that is stored. -/
inductive Rewrites (s : Server Repository) (stored : Tag) : Tag → Prop
  | scheduled (hrest : stored.status.isInFlight = false) : Rewrites s stored (scheduledTag stored)
  | building (hscheduled : stored.status = .scheduled) : Rewrites s stored (buildingTag stored)
  | finished {r : BuildRequest} {outcome : BuildOutcome} {now : Instant}
      (hphase : (r, .running (.record stored outcome)) ∈ s.phases)
      (hstatus : stored.status = .building ∨ stored.status = .scheduled ∧ outcome.isOk = false) :
      Rewrites s stored (finishedTag stored outcome now)

/-- What its author wrote stays when another record is made of one. -/
theorem Rewrites.authored_eq {stored tag : Tag} (h : s.Rewrites stored tag) :
    tag.name = stored.name ∧ tag.description = stored.description ∧
      tag.createdBy = stored.createdBy ∧ tag.createdAt = stored.createdAt := by
  cases h with
  | scheduled | building => exact ⟨rfl, rfl, rfl, rfl⟩
  | @finished r outcome now => cases outcome <;> exact ⟨rfl, rfl, rfl, rfl⟩

/-- Where everything is as expected, a record that is written is made of the stored one. -/
theorem Fits.rewrites_of_write (h : s.Fits) {action : Action Repository} {key : TagKey} {tag : Tag}
    (hwrite : s.write? action = some (key, tag)) :
    ∃ stored, s.store.tag? key = some stored ∧ s.Rewrites stored tag := by
  cases action with
  | change f => cases hwrite
  | move compile move =>
      cases move with
      | submit | shutDown => cases hwrite
      | advance call fresh now =>
          obtain ⟨⟨key', stage⟩, hc, hwrite⟩ := Option.bind_eq_some_iff.mp hwrite
          cases stage with
          | lookUp | register | reserve | refresh | enqueue | withdraw | answered => cases hwrite
          | mark id copy =>
              obtain ⟨rfl, rfl⟩ := Prod.mk.inj (Option.some.inj hwrite)
              obtain ⟨hstored, hrest⟩ := h.phases _ (mem_phases_of_call hc rfl)
              exact ⟨copy, hstored, .scheduled hrest⟩
      | work worker deployment now =>
          obtain ⟨⟨r, stage⟩, hjob, hwrite⟩ := Option.bind_eq_some_iff.mp hwrite
          have hphase := mem_phases_of_worker (job_eq_some.mp hjob)
          have hexpected := h.phases _ hphase
          cases stage with
          | fetchTag | fetchSnapshot | start | generate | deploy | report => cases hwrite
          | mark copy snapshot =>
              obtain ⟨rfl, rfl⟩ := Prod.mk.inj (Option.some.inj hwrite)
              exact ⟨copy, hexpected.1, .building hexpected.2⟩
          | record copy outcome =>
              obtain ⟨rfl, rfl⟩ := Prod.mk.inj (Option.some.inj hwrite)
              exact ⟨copy, hexpected.1, .finished hphase hexpected.2⟩

/-- An action keeps the record of a tag, makes one anew, or makes one of the stored one. -/
theorem Fits.tag_act_cases (h : s.Fits) {action : Action Repository}
    (hauthored : action.IsAuthored) (key : TagKey) :
    (s.act action).store.tag? key = s.store.tag? key ∨
    (s.store.tag? key = none ∧ ∃ t : TaggedSnapshot,
      (s.act action).store.tag? key = some t.tag ∧ t.IsNew key) ∨
    ∃ stored tag, s.store.tag? key = some stored ∧ (s.act action).store.tag? key = some tag ∧
      s.Rewrites stored tag := by
  cases action with
  | change f =>
      obtain ⟨edit, rfl⟩ := hauthored
      exact ((s.store.grows_apply edit).tag_cases key).imp_right .inl
  | move compile move =>
      have hstore : (s.act (.move compile move)).store = _ := s.store_step compile move
      rw [hstore]
      cases hwrite : s.write? (.move compile move) with
      | none => exact .inl rfl
      | some w =>
          obtain ⟨key', tag⟩ := w
          by_cases hkey : key = key'
          · obtain rfl := hkey
            obtain ⟨stored, hstored, hrewrites⟩ := h.rewrites_of_write hwrite
            have hname : tag.name = key.tag := hrewrites.authored_eq.1.trans (h.named _ _ hstored).1
            exact .inr (.inr ⟨stored, tag, hstored, Repository.tag_write_self hstored hname,
              hrewrites⟩)
          · rw [Repository.tag_write, if_neg hkey]
            exact .inl rfl

/-! ## Interleavings -/

/-- A server that starts on a store that was authored finds everything as expected. -/
theorem fits_start {config : ServerConfig} {setup : List Edit}
    (h : Server.start config (.authored setup) = .ok s) : s.Fits := by
  have hphases := phases_start h
  obtain rfl := eq_of_start h
  have hnew (key : TagKey) (tag : Tag) (htag : (Repository.authored setup).tag? key = some tag) :
      ∃ t : TaggedSnapshot, t.tag = tag ∧ t.IsNew key := by
    obtain ⟨t, ht, rfl⟩ := Option.map_eq_some_iff.mp htag
    exact ⟨t, rfl, Repository.isNew_of_authored ht⟩
  refine ⟨fun key tag htag => ?_, fun x hx => ?_, fun key _ tag htag => ?_⟩
  · obtain ⟨t, rfl, ht⟩ := hnew key tag htag
    exact ⟨ht.name_eq, ht.ne_master⟩
  · rw [hphases] at hx
    cases hx
  · obtain ⟨t, rfl, ht⟩ := hnew key tag htag
    rw [ht.status_eq]
    rfl

/-- Every action keeps everything as expected. -/
theorem Fits.act (h : s.Fits) (ht : s.tracker.Tracks s.held) {action : Action Repository}
    (hauthored : action.IsAuthored) : (s.act action).Fits := by
  cases action with
  | change f =>
      obtain ⟨edit, rfl⟩ := hauthored
      exact h.grows (s.store.grows_apply edit)
  | move compile move =>
      cases move with
      | submit key => exact h.of_perm (.of_eq (s.phases_submit compile key)) rfl
      | shutDown => exact h.of_perm (.refl _) rfl
      | advance call fresh now => exact h.advance ht call fresh now
      | work worker deployment now => exact h.work ht compile worker deployment now

/-- After every interleaving everything stored is as expected. -/
theorem fits_play {config : ServerConfig} {setup : List Edit} {s₀ : Server Repository}
    {actions : List (Action Repository)}
    (hstart : Server.start config (.authored setup) = .ok s₀) (hfresh : s₀.DrawsOnce actions)
    (hauthored : ∀ action ∈ actions, action.IsAuthored) : (s₀.play actions).Fits := by
  induction actions using List.reverseRecOn with
  | nil => exact fits_start hstart
  | append_singleton actions action ih =>
      rw [play_concat]
      refine Fits.act (ih hfresh.of_append fun a ha => hauthored a (List.mem_append_left _ ha))
        (consistent_play hstart hfresh.of_append).tracks (hauthored action ?_)
      exact List.mem_append_right _ (List.mem_singleton_self _)

/-- A group is put into the store, and tagged twice. -/
def tagTwice : List Edit :=
  [.putGroup "o" { group := { name := "g" } },
    .createTag ⟨"o", "g"⟩ { name := "v1", createdAt := .epoch },
    .createTag ⟨"o", "g"⟩ { name := "v2", createdAt := .epoch }]

/-- Three calls submit two tags and two workers take the builds, as in `interleavedMoves`;
meanwhile the group is tagged once more.  Then the first worker fails to deploy. -/
def interleavedActions : List (Action Repository) :=
  let third : Edit := .createTag ⟨"o", "g"⟩ { name := "v3", createdAt := .epoch }
  let reason : BuildError := .repository "read-only"
  (interleavedMoves.take 20).map (.move noCompiler) ++ .change third.apply ::
    (interleavedMoves.drop 20).map (.move noCompiler) ++
    [.move noCompiler (.work 0 (.failed reason) .epoch)]

theorem isAuthored_interleavedActions : ∀ a ∈ interleavedActions, a.IsAuthored := by
  have hmoves (moves : List Move) : ∀ a ∈ moves.map (Action.move (σ := Repository) noCompiler),
      a.IsAuthored := by
    intro a ha
    obtain ⟨move, -, rfl⟩ := List.mem_map.mp ha
    trivial
  intro a ha
  rcases List.mem_append.mp ha with ha | ha
  · rcases List.mem_append.mp ha with ha | ha
    · exact hmoves _ a ha
    · rcases List.mem_cons.mp ha with rfl | ha
      · exact ⟨_, rfl⟩
      · exact hmoves _ a ha
  · rw [List.mem_singleton.mp ha]
    trivial

end Server

end RouteCompiler
