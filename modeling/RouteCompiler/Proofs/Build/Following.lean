import RouteCompiler.Proofs.Build.Custody

/-!
# One tag at a time

Builds of different tags share a tracker, a queue, workers and a store.  This module looks at
a server as somebody does who cares for a single tag.  At every moment that tag has a build
in some phase, or none, and an action either lets the tag alone or takes its build a step
further.  What happens to other builds cannot be told from there.

Main definitions:

- `Server.phaseOf`: the phase of the build of a tag, if one is in flight.
- `Server.Spares`: an action that neither writes the record of a tag nor queues its build.
- `Server.Passes`: what an action does, seen from a tag.

Main results:

- Theorem `Shifts.phaseOf_eq`: a shift changes the phase of one tag only.
- Theorem `passes_act`: every action lets a tag alone, or takes its build a step further.
-/

namespace RouteCompiler.Server

variable {σ : Type} {s s' : Server σ} {key : TagKey} {r : BuildRequest} {phase : Phase}

/-! ## The phase of a tag -/

/-- The phase of the build of a tag, if one is in flight. -/
def phaseOf (s : Server σ) (key : TagKey) : Option Phase :=
  (s.phases.find? fun x => x.1.key == key).map Prod.snd

theorem phaseOf_eq_none : s.phaseOf key = none ↔ ∀ r ∈ s.held, r.key ≠ key := by
  simp [phaseOf, ← map_fst_phases]

/-- A tag has at most one build in flight, so its phase is that of any of its builds. -/
theorem phaseOf_eq_some (ht : s.tracker.Tracks s.held) :
    s.phaseOf key = some phase ↔ ∃ r, r.key = key ∧ (r, phase) ∈ s.phases := by
  constructor
  · intro h
    obtain ⟨⟨r, phase'⟩, hfind, rfl⟩ := Option.map_eq_some_iff.mp h
    exact ⟨r, by simpa using List.find?_some hfind, List.mem_of_find?_eq_some hfind⟩
  · rintro ⟨r, rfl, hmem⟩
    rw [phaseOf]
    cases hfind : s.phases.find? fun x => x.1.key == r.key with
    | none => exact absurd (beq_self_eq_true r.key) (List.find?_eq_none.mp hfind _ hmem)
    | some y =>
        obtain ⟨before, later, hphases⟩ := List.append_of_mem hmem
        have hperm : s.phases.Perm ((r, phase) :: (before ++ later)) := hphases ▸ List.perm_middle
        have hkey : y.1.key = r.key := by simpa using List.find?_some hfind
        rcases List.mem_cons.mp (hperm.mem_iff.mp (List.mem_of_find?_eq_some hfind)) with rfl | hy
        · rfl
        · -- A second build of the tag would be held beside the first.
          exact absurd hkey (apart_of_perm hperm ht hy).2

/-- A shift changes the phase of one tag only. -/
theorem Shifts.phaseOf_eq {old new : Option Phase}
    (h : Shifts s s' (old.map (r, ·)) (new.map (r, ·))) (hsome : old.isSome ∨ new.isSome)
    (ht : s.tracker.Tracks s.held) (ht' : s'.tracker.Tracks s'.held) :
    s.phaseOf r.key = old ∧ s'.phaseOf r.key = new ∧
      ∀ key, key ≠ r.key → s'.phaseOf key = s.phaseOf key := by
  obtain ⟨rest, hbefore, hafter⟩ := h
  have hapart : ∀ x ∈ rest, x.1.key ≠ r.key := by
    intro x hx
    rcases hsome with hold | hnew
    · obtain ⟨phase, rfl⟩ := Option.isSome_iff_exists.mp hold
      exact (apart_of_perm hbefore ht hx).2
    · obtain ⟨phase, rfl⟩ := Option.isSome_iff_exists.mp hnew
      exact (apart_of_perm hafter ht' hx).2
  have hsame {s : Server σ} {o : Option Phase} (ht : s.tracker.Tracks s.held)
      (hperm : s.phases.Perm ((o.map (r, ·)).toList ++ rest)) : s.phaseOf r.key = o := by
    cases o with
    | some phase => exact (phaseOf_eq_some ht).mpr ⟨r, rfl, hperm.mem_iff.mpr (by simp)⟩
    | none =>
        refine phaseOf_eq_none.mpr fun r' hr' => ?_
        rw [← map_fst_phases] at hr'
        obtain ⟨x, hx, rfl⟩ := List.mem_map.mp hr'
        exact hapart x (hperm.mem_iff.mp hx)
  have hrest {s : Server σ} {o : Option Phase} {x : BuildRequest × Phase}
      (hperm : s.phases.Perm ((o.map (r, ·)).toList ++ rest)) (hx : x.1.key ≠ r.key) :
      x ∈ s.phases ↔ x ∈ rest := by
    rw [hperm.mem_iff, List.mem_append, or_iff_right]
    intro hmem
    obtain ⟨phase, -, rfl⟩ := Option.map_eq_some_iff.mp (Option.mem_toList.mp hmem)
    exact hx rfl
  refine ⟨hsame ht hbefore, hsame ht' hafter, fun key hkey => Option.ext fun phase => ?_⟩
  rw [phaseOf_eq_some ht', phaseOf_eq_some ht]
  refine exists_congr fun r' => and_congr_right ?_
  rintro rfl
  rw [hrest hafter hkey, hrest hbefore hkey]

/-- Where no build comes or goes, no tag changes its phase. -/
theorem Shifts.phaseOf_eq_of_none (h : Shifts s s' none none) (ht : s.tracker.Tracks s.held)
    (ht' : s'.tracker.Tracks s'.held) (key : TagKey) : s'.phaseOf key = s.phaseOf key := by
  refine Option.ext fun phase => ?_
  simp only [phaseOf_eq_some ht', phaseOf_eq_some ht, h.perm.mem_iff]

/-! ## Steps of one build -/

/-- An action neither writes the record of a tag nor queues a build of it. -/
structure Spares (s : Server σ) (action : Action σ) (key : TagKey) : Prop where
  write : ∀ w, s.write? action = some w → w.1 ≠ key
  queued : ∀ r, s.queued? action = some r → r.key ≠ key

theorem spares_of_none {action : Action σ} (hwrite : s.write? action = none)
    (hqueued : s.queued? action = none) (key : TagKey) : s.Spares action key where
  write := fun w hw => by rw [hwrite] at hw; cases hw
  queued := fun r hr => by rw [hqueued] at hr; cases hr

variable [Store σ]

/-- What an action does to the phase of a tag. -/
inductive Passes (s : Server σ) (key : TagKey) :
    Action σ → Option Phase → Option Phase → Prop
  /-- The tag is let alone. -/
  | stays {action : Action σ} {phase : Option Phase} (hspares : s.Spares action key) :
      Passes s key action phase phase
  /-- A build is registered. -/
  | comes {action : Action σ} {id : BuildId} (hspares : s.Spares action key) :
      Passes s key action none (some (.submitted (.reserve id)))
  /-- The call that holds the build goes on. -/
  | calls {compile : Compiler} {call : Nat} {stage : SubmissionStage} {r : BuildRequest}
      {fresh : BuildId} {now : Instant} (hc : s.submissions[call]? = some ⟨key, stage⟩)
      (hphase : Submission.phase? ⟨key, stage⟩ = some (r, .submitted stage)) :
      Passes s key (.move compile (.advance call fresh now)) (some (.submitted stage))
        ((s.callPhase? key fresh now stage).map Prod.snd)
  /-- A worker takes the build from the queue. -/
  | takes {action : Action σ} (hspares : s.Spares action key) :
      Passes s key action (some .queued) (some (.running .fetchTag))
  /-- The worker that has the build goes on. -/
  | works {compile : Compiler} {i : Nat} {r : BuildRequest} {stage : JobStage}
      {deployment : DeployOutcome} {now : Instant}
      (hw : s.workers[i]? = some (.busy ⟨r, stage⟩)) (hkey : r.key = key) :
      Passes s key (.move compile (.work i deployment now)) (some (.running stage))
        ((s.workStage compile r deployment now stage).1.map .running)

variable {compile : Compiler}

/-- A call keeps the build that it holds, or gives it up. -/
theorem callPhase_eq_map {stage : SubmissionStage}
    (hphase : Submission.phase? ⟨key, stage⟩ = some (r, phase)) (fresh : BuildId)
    (now : Instant) :
    s.callPhase? key fresh now stage =
      ((s.callPhase? key fresh now stage).map Prod.snd).map (r, ·) := by
  cases stage with
  | lookUp | register | answered => cases hphase
  | enqueue | withdraw =>
      obtain ⟨rfl, -⟩ := Prod.mk.inj (Option.some.inj hphase)
      rfl
  | reserve | refresh | mark =>
      obtain ⟨rfl, -⟩ := Prod.mk.inj (Option.some.inj hphase)
      simp only [callPhase?, advanceStage]
      split <;> rfl

omit [Store σ] in
/-- A call spares all tags but the one that it submits. -/
theorem spares_advance {call : Nat} {c : Submission} (hc : s.submissions[call]? = some c)
    (hkey : key ≠ c.key) (fresh : BuildId) (now : Instant) :
    s.Spares (.move compile (.advance call fresh now)) key := by
  obtain ⟨submitted, stage⟩ := c
  constructor
  · intro w hw
    simp only [write?, hc, Option.bind_some] at hw
    exact fun heq => hkey (heq.symm.trans (Submission.key_of_write hw))
  · intro r hr
    simp only [queued?, hc] at hr
    split at hr
    · next heq =>
      rw [← Option.some.inj hr]
      exact fun hsame => hkey (hsame ▸ (Submission.mk.inj (Option.some.inj heq)).1.symm)
    · cases hr

omit [Store σ] in
/-- A call that holds no build spares all tags. -/
theorem spares_of_phase {call : Nat} {stage : SubmissionStage}
    (hc : s.submissions[call]? = some ⟨key, stage⟩)
    (hphase : Submission.phase? ⟨key, stage⟩ = none) (fresh : BuildId) (now : Instant)
    (other : TagKey) : s.Spares (.move compile (.advance call fresh now)) other := by
  refine spares_of_none ?_ (queued_eq_none hc ?_ fresh now) other
  · simp only [write?, hc, Option.bind_some]
    cases stage with
    | mark => cases hphase
    | lookUp | register | reserve | refresh | enqueue | withdraw | answered => rfl
  · rintro id rfl
    cases hphase

/-- A move of a call, seen from a tag. -/
theorem passes_advance (ht : s.tracker.Tracks s.held) {call : Nat} {fresh : BuildId}
    {now : Instant}
    (ht' : (s.advance call fresh now).tracker.Tracks (s.advance call fresh now).held)
    (key : TagKey) :
    Passes s key (.move compile (.advance call fresh now)) (s.phaseOf key)
      ((s.advance call fresh now).phaseOf key) := by
  cases hc : s.submissions[call]? with
  | none =>
      have hsame : s.advance call fresh now = s := by simp only [advance, hc]
      rw [hsame]
      exact .stays (spares_of_none (by rw [write?, hc]; rfl) (by rw [queued?, hc]) key)
  | some c =>
      obtain ⟨submitted, stage⟩ := c
      have hshift := shifts_advance hc fresh now
      cases hphase : Submission.phase? ⟨submitted, stage⟩ with
      | some x =>
          obtain ⟨r, phase⟩ := x
          obtain rfl : r.key = submitted := Submission.key_of_phase hphase
          obtain rfl : phase = .submitted stage := Submission.eq_submitted_of_phase hphase
          have hown : Shifts s (s.advance call fresh now) ((some (.submitted stage)).map (r, ·))
              (((s.callPhase? r.key fresh now stage).map Prod.snd).map (r, ·)) := by
            rw [← callPhase_eq_map hphase, Option.map_some, ← hphase]
            exact hshift
          obtain ⟨hbefore, hafter, hothers⟩ := hown.phaseOf_eq (.inl rfl) ht ht'
          by_cases hkey : key = r.key
          · rw [hkey, hbefore, hafter]
            exact .calls hc hphase
          · rw [hothers key hkey]
            exact .stays (spares_advance hc hkey fresh now)
      | none =>
          have hspares : s.Spares (.move compile (.advance call fresh now)) key :=
            spares_of_phase hc hphase fresh now key
          rw [hphase] at hshift
          rcases s.callPhase_of_none hphase fresh now with hnone | ⟨-, hsome⟩
          · rw [hnone] at hshift
            rw [hshift.phaseOf_eq_of_none ht ht']
            exact .stays hspares
          · rw [hsome] at hshift
            have hown : Shifts s (s.advance call fresh now)
                (none.map ((⟨fresh, submitted⟩ : BuildRequest), ·))
                ((some (.submitted (.reserve fresh))).map (⟨fresh, submitted⟩, ·)) := hshift
            obtain ⟨hbefore, hafter, hothers⟩ := hown.phaseOf_eq (.inr rfl) ht ht'
            by_cases hkey : key = submitted
            · rw [hkey, hbefore, hafter]
              exact .comes (hkey ▸ hspares)
            · rw [hothers key hkey]
              exact .stays hspares

/-- A move of a worker, seen from a tag. -/
theorem passes_work (ht : s.tracker.Tracks s.held) {i : Nat} {deployment : DeployOutcome}
    {now : Instant}
    (ht' : (s.work compile i deployment now).tracker.Tracks
      (s.work compile i deployment now).held) (key : TagKey) :
    Passes s key (.move compile (.work i deployment now)) (s.phaseOf key)
      ((s.work compile i deployment now).phaseOf key) := by
  have hidles (hjob : s.job? i = none) (key : TagKey) :
      s.Spares (.move compile (.work i deployment now)) key :=
    spares_of_none (by rw [write?, hjob, Option.bind_none]) rfl key
  cases s.turn_work compile i deployment now with
  | rests hjob _ hsame =>
      rw [hsame]
      exact .stays (hidles hjob key)
  | leaves hidle _ _ hleft =>
      rw [hleft] at ht' ⊢
      rw [(shifts_stop hidle).phaseOf_eq_of_none ht ht']
      exact .stays (hidles (job_of_idle hidle) key)
  | @takes r scheduler hidle htake _ =>
      have hown : Shifts s (s.work compile i deployment now) ((some .queued).map (r, ·))
          ((some (.running .fetchTag)).map (r, ·)) := shifts_take hidle htake compile deployment now
      obtain ⟨hbefore, hafter, hothers⟩ := hown.phaseOf_eq (.inl rfl) ht ht'
      by_cases hkey : key = r.key
      · rw [hkey, hbefore, hafter]
        exact .takes (hidles (job_of_idle hidle) _)
      · rw [hothers key hkey]
        exact .stays (hidles (job_of_idle hidle) key)
  | @works r stage hw =>
      have hown : Shifts s (s.work compile i deployment now) ((some (.running stage)).map (r, ·))
          (((s.workStage compile r deployment now stage).1.map .running).map (r, ·)) := by
        rw [Option.map_map]
        exact shifts_work hw compile deployment now
      obtain ⟨hbefore, hafter, hothers⟩ := hown.phaseOf_eq (.inl rfl) ht ht'
      by_cases hkey : key = r.key
      · rw [hkey, hbefore, hafter]
        exact .works hw rfl
      · rw [hothers key hkey]
        refine .stays ⟨fun w hwrite heq => ?_, fun r' hr' => by cases hr'⟩
        simp only [write?, job_eq_some.mpr hw, Option.bind_some] at hwrite
        exact hkey (heq.symm.trans (Job.key_of_write hwrite))

/-- Every action lets a tag alone, or takes its build a step further. -/
theorem passes_act {action : Action σ} (ht : s.tracker.Tracks s.held)
    (ht' : (s.act action).tracker.Tracks (s.act action).held) (key : TagKey) :
    Passes s key action (s.phaseOf key) ((s.act action).phaseOf key) := by
  cases action with
  | change f => exact .stays (spares_of_none rfl rfl key)
  | move compile move =>
      cases move with
      | submit submitted =>
          have hsame : (s.step compile (.submit submitted)).phaseOf key = s.phaseOf key := by
            rw [phaseOf, phases_submit]
            rfl
          rw [act, hsame]
          exact .stays (spares_of_none rfl rfl key)
      | shutDown => exact .stays (spares_of_none rfl rfl key)
      | advance call fresh now => exact passes_advance ht ht' key
      | work i deployment now => exact passes_work ht ht' key

end RouteCompiler.Server
