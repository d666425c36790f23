import RouteCompiler.Proofs.Build.Statuses
import RouteCompiler.Proofs.Generation.Remarks

/-!
# Settled builds

What came of a build is written twice: on its tag, and in its record with the tracker.  Both
are written from what the worker remembers, by different moves.  This module logs what is
generated and delivered for each build, and shows that both go back to it.

Main definitions:

- `Server.generation?` and `Server.delivery?`: what a move generates, and what it delivers.
- `finalStatus`: the status in which a build ends, by what became of its deliveries.
- `Tag.IsRemarked`: a tag has the issues that its status asks for.
- `JobStage.Justified`: a stage of a job goes back to what was generated and delivered.
- `Server.Settled`: all jobs do, and so do the records of the tracker; all tags have the
  issues that their status asks for.

Main results:

- Theorem `Proceeds.justified`: the next stage of a job is justified.
- Theorem `Settled.act`: every action keeps everything settled.
- Theorem `settled_play`: after every interleaving everything is settled.
- Theorem `builds_settle`: a build is delivered at most once, as it was generated, and tag
  and tracker say of it what became of the delivery.
-/

namespace RouteCompiler

/-! ## Generations and deliveries -/

/-- A snapshot that was generated for a build. -/
structure Generation where
  request : BuildRequest
  snapshot : Snapshot
  result : Except GenerationError (List GeneratedPolicy)

/-- What was generated gives advice only, and there is something for each policy. -/
def Generation.IsComplete (g : Generation) : Prop :=
  ∀ policies, g.result = .ok policies → (∀ p ∈ policies, Issue.AreAdvice p.issues) ∧
    policies.map GeneratedPolicy.policy = g.snapshot.policies.map Policy.name

/-- What was given to the deployer for a build, and what became of it. -/
structure Delivery where
  request : BuildRequest
  policies : List GeneratedPolicy
  outcome : DeployOutcome

/-- What the next move of a job generates. -/
def Job.generation? (compile : Compiler) (job : Job) : Option Generation :=
  match job.stage with
  | .generate _ snapshot => some ⟨job.request, snapshot, compile snapshot⟩
  | _ => none

/-- What the next move of a job delivers. -/
def Job.delivery? (deployment : DeployOutcome) (job : Job) : Option Delivery :=
  match job.stage with
  | .deploy _ policies => some ⟨job.request, policies, deployment⟩
  | _ => none

/-- A job delivers for its own build. -/
theorem Job.request_of_delivery {deployment : DeployOutcome} {job : Job} {d : Delivery}
    (h : job.delivery? deployment = some d) : d.request = job.request := by
  obtain ⟨r, stage⟩ := job
  cases stage with
  | deploy => rw [← Option.some.inj h]
  | fetchTag | fetchSnapshot | mark | start | generate | record | report => cases h

/-- What became of the deliveries for a build. -/
def outcomesOf (id : BuildId) (deliveries : List Delivery) : List DeployOutcome :=
  (deliveries.filter fun d => d.request.id == id).map Delivery.outcome

theorem outcomesOf_append (id : BuildId) (deliveries more : List Delivery) :
    outcomesOf id (deliveries ++ more) = outcomesOf id deliveries ++ outcomesOf id more := by
  rw [outcomesOf, List.filter_append, List.map_append]
  rfl

theorem outcomesOf_eq_nil {id : BuildId} {deliveries : List Delivery} :
    outcomesOf id deliveries = [] ↔ ∀ d ∈ deliveries, d.request.id ≠ id := by
  simp [outcomesOf]

/-- The status in which a build ends, by what became of its deliveries. -/
def finalStatus (outcomes : List DeployOutcome) : BuildStatus :=
  if .done ∈ outcomes then .successful else .failed

/-- A worker that knows whether a build was delivered knows in which status it ends. -/
theorem finalStatus_eq {failure : Option String} {outcomes : List DeployOutcome}
    (h : failure = none ↔ .done ∈ outcomes) :
    (if failure.isNone then .successful else .failed) = finalStatus outcomes := by
  rw [finalStatus, ← Option.isNone_iff_eq_none] at *
  simp only [h]

/-- What became of what a job delivers. -/
theorem outcomesOf_delivery (deployment : DeployOutcome) (job : Job) :
    outcomesOf job.request.id (job.delivery? deployment).toList =
      ((job.delivery? deployment).map Delivery.outcome).toList := by
  cases hd : job.delivery? deployment with
  | none => rfl
  | some d =>
      have hid : d.request.id = job.request.id := by rw [Job.request_of_delivery hd]
      simp [outcomesOf, hid]

/-- A snapshot is generated by some generator. -/
def Action.Generates : Action Repository → Prop
  | .move compile _ => ∀ snapshot, ∃ (g : Generator) (directories : Directories),
      compile snapshot = g.generateSnapshot directories snapshot
  | .change _ => True

/-- A snapshot was tagged under a key. -/
def Repository.Tagged (r : Repository) (key : TagKey) (snapshot : Snapshot) : Prop :=
  (r.tagged? key).map TaggedSnapshot.snapshot = some snapshot

namespace Repository.Tagged

variable {r r' : Repository} {key : TagKey} {snapshot : Snapshot}

/-- A snapshot stays tagged while a store grows. -/
theorem grows (h : r.Tagged key snapshot) (hgrows : r.Grows r') : r'.Tagged key snapshot := by
  rcases hgrows key with hsame | ⟨hnone, -⟩
  · rwa [Repository.Tagged, hsame]
  · rw [Repository.Tagged, hnone] at h
    cases h

/-- A snapshot stays tagged whatever record is written. -/
theorem write (h : r.Tagged key snapshot) (w : Option (TagKey × Tag)) :
    (r.write w).Tagged key snapshot := by
  cases w with
  | none => exact h
  | some w =>
      obtain ⟨written, tag⟩ := w
      rw [Repository.Tagged, Repository.tagged_write]
      split
      · next heq =>
        rw [Option.map_map]
        exact heq ▸ h
      · exact h

end Repository.Tagged

/-! ## Issues -/

theorem BuildError.severity_toIssue (e : BuildError) : e.toIssue.severity = .error := by
  cases e with
  | generation e => exact e.severity_toIssue
  | model e => exact e.severity_toIssue
  | tagNotFound | snapshotNotFound | queueFull | buildNotFound | deployment | repository
  | invalidConfig | file | shuttingDown | internal => rfl

/-- A tag has the issues that its status asks for: advice if its build was successful, a
single error if it failed, and none before. -/
def Tag.IsRemarked (tag : Tag) : Prop :=
  match tag.status with
  | .successful => Issue.AreAdvice tag.issues
  | .failed => ∃ i, tag.issues = [i] ∧ i.severity = .error
  | .created | .scheduled | .building => tag.issues = []

/-- The issues of policies are advice if those of each policy are. -/
theorem areAdvice_issuesOf {policies : List GeneratedPolicy}
    (h : ∀ p ∈ policies, Issue.AreAdvice p.issues) :
    Issue.AreAdvice (Server.issuesOf policies) := by
  have hfold (issues acc : List Issue) (hissues : Issue.AreAdvice issues)
      (hacc : Issue.AreAdvice acc) : Issue.AreAdvice (issues.foldl Generator.addIssue acc) := by
    induction issues generalizing acc with
    | nil => exact hacc
    | cons i issues ih =>
        obtain ⟨hi, hrest⟩ := List.forall_mem_cons.mp hissues
        exact ih _ hrest (hacc.addIssue hi)
  refine hfold _ [] (fun i hi => ?_) fun i hi => by cases hi
  obtain ⟨p, hp, hi⟩ := List.mem_flatMap.mp hi
  exact h p hp i hi

/-! ## Justification -/

/-- A stage of a job goes back to what was generated for its build, and to what became of
what was delivered. -/
def JobStage.Justified (store : Repository) (generations : List Generation)
    (outcomes : List DeployOutcome) (r : BuildRequest) : JobStage → Prop
  | .fetchTag | .fetchSnapshot _ => outcomes = []
  | .mark _ snapshot | .start _ snapshot | .generate _ snapshot =>
      outcomes = [] ∧ store.Tagged r.key snapshot
  | .deploy _ policies => outcomes = [] ∧ ∃ g ∈ generations, g.request = r ∧
      store.Tagged r.key g.snapshot ∧ g.result = .ok policies
  | .record _ outcome => (outcome.isOk ↔ .done ∈ outcomes) ∧
      ∀ issues, outcome = .ok issues → Issue.AreAdvice issues
  | .report failure => failure = none ↔ .done ∈ outcomes

/-- What has not been taken by a worker has not been delivered. -/
def Phase.Justified (store : Repository) (generations : List Generation)
    (outcomes : List DeployOutcome) (r : BuildRequest) : Phase → Prop
  | .submitted _ | .queued => outcomes = []
  | .running stage => stage.Justified store generations outcomes r

variable {store store' : Repository} {generations generations' : List Generation}
  {outcomes : List DeployOutcome} {r : BuildRequest}

/-- A phase stays justified while snapshots stay tagged and others generate. -/
theorem Phase.Justified.mono {phase : Phase} (h : phase.Justified store generations outcomes r)
    (htagged : ∀ key snapshot, store.Tagged key snapshot → store'.Tagged key snapshot)
    (hmore : generations ⊆ generations') : phase.Justified store' generations' outcomes r := by
  cases phase with
  | submitted | queued => exact h
  | running stage =>
      cases stage with
      | fetchTag | fetchSnapshot | record | report => exact h
      | mark | start | generate => exact ⟨h.1, htagged _ _ h.2⟩
      | deploy tag policies =>
          obtain ⟨hnone, g, hg, hrequest, hsnapshot, hresult⟩ := h
          exact ⟨hnone, g, hmore hg, hrequest, htagged _ _ hsnapshot, hresult⟩

namespace Server

/-- The next stage of a job is justified by what its move generates and delivers. -/
theorem Proceeds.justified {compile : Compiler} {deployment : DeployOutcome}
    {stage next : JobStage} (hproceeds : Proceeds compile store r deployment stage (some next))
    (h : stage.Justified store generations outcomes r) (hmaster : r.key.tag ≠ masterTag)
    (hgenerated : ∀ g ∈ generations, g.IsComplete) :
    next.Justified store (generations ++ (Job.generation? compile ⟨r, stage⟩).toList)
      (outcomes ++ ((Job.delivery? deployment ⟨r, stage⟩).map Delivery.outcome).toList) r := by
  have hfailed (e : BuildError) : (Except.error e : BuildOutcome).isOk ↔
      DeployOutcome.done ∈ ([] : List DeployOutcome) := by
    simp [Except.isOk, Except.toBool]
  cases hproceeds with
  | found => exact (List.append_nil outcomes).trans h
  | @fetched tag snapshot hsnapshot =>
      refine ⟨(List.append_nil outcomes).trans h, ?_⟩
      have hstored := Repository.stored_of_snapshot hsnapshot
      rwa [Repository.stored?, if_neg hmaster] at hstored
  | missed =>
      obtain rfl : outcomes = [] := h
      exact ⟨hfailed _, fun issues hissues => by cases hissues⟩
  | marked | started => exact ⟨(List.append_nil outcomes).trans h.1, h.2⟩
  | @generated tag snapshot policies hcompile =>
      refine ⟨(List.append_nil outcomes).trans h.1, ⟨r, snapshot, compile snapshot⟩, ?_, rfl, h.2,
        hcompile⟩
      exact List.mem_append_right _ (List.mem_singleton_self _)
  | rejected =>
      obtain ⟨rfl, -⟩ := h
      exact ⟨hfailed _, fun issues hissues => by cases hissues⟩
  | @deployed tag policies =>
      obtain ⟨rfl, g, hg, -, -, hresult⟩ := h
      have houtcome : (outcomeOf policies deployment).isOk ↔ DeployOutcome.done ∈ [deployment] := by
        cases deployment <;> simp [outcomeOf, Except.isOk, Except.toBool]
      refine ⟨houtcome, fun issues hissues => ?_⟩
      cases deployment with
      | failed | crashed => cases hissues
      | done =>
          rw [← Except.ok.inj hissues]
          exact areAdvice_issuesOf (hgenerated g hg policies hresult).1
  | @recorded tag outcome =>
      have hfailure : failureOf outcome = none ↔ outcome.isOk := by
        cases outcome <;> simp [failureOf, Except.isOk, Except.toBool]
      simp only [Job.delivery?, Option.map_none, Option.toList_none, List.append_nil]
      exact hfailure.trans h.1

/-! ## Settlement -/

/-- What an action generates for a build. -/
def generation? {σ : Type} (s : Server σ) : Action σ → Option Generation
  | .move compile (.work worker _ _) => (s.job? worker).bind (Job.generation? compile)
  | .move _ (.submit _) | .move _ (.advance ..) | .move _ .shutDown | .change _ => none

/-- What an action gives to the deployer. -/
def delivery? {σ : Type} (s : Server σ) : Action σ → Option Delivery
  | .move _ (.work worker deployment _) => (s.job? worker).bind (Job.delivery? deployment)
  | .move _ (.submit _) | .move _ (.advance ..) | .move _ .shutDown | .change _ => none

/-- All builds go back to what was generated and delivered for them.  No build was delivered
twice, and only builds that were registered were.  The tracker says of builds that have ended
what became of the delivery, and tags have the issues that their status asks for. -/
structure Settled (s : Server Repository) (generations : List Generation)
    (deliveries : List Delivery) (drawn : List BuildId) : Prop where
  phases : ∀ x ∈ s.phases, x.2.Justified s.store generations (outcomesOf x.1.id deliveries) x.1
  generated : ∀ g ∈ generations, g.IsComplete
  once : (deliveries.map fun d => d.request.id).Nodup
  within : ∀ d ∈ deliveries, d.request.id ∈ drawn
  records : s.tracker.Every fun id record => record.isFinished →
    record.status = finalStatus (outcomesOf id deliveries)
  remarks : ∀ key tag, s.store.tag? key = some tag → tag.IsRemarked

variable {s s' : Server Repository} {deliveries : List Delivery} {drawn : List BuildId}
  {action : Action Repository} {old new : Option (BuildRequest × Phase)}

/-- Builds stay justified where nothing is generated or delivered, if the one that goes on
is. -/
theorem Settled.justified_of_quiet (h : s.Settled generations deliveries drawn)
    (ht : s.tracker.Tracks s.held) (ht' : s'.tracker.Tracks s'.held) (hshift : Shifts s s' old new)
    (htagged : ∀ key snapshot, s.store.Tagged key snapshot → s'.store.Tagged key snapshot)
    (hnew : ∀ x, new = some x → x.2.Justified s'.store generations
      (outcomesOf x.1.id deliveries) x.1) :
    ∀ x ∈ s'.phases, x.2.Justified s'.store generations (outcomesOf x.1.id deliveries) x.1 :=
  hshift.forall ht ht' h.phases hnew fun _ _ _ hjustified _ =>
    hjustified.mono htagged (List.Subset.refl _)

/-- A build that no worker has is justified if nothing was delivered for it. -/
theorem justified_of_not_running {phase : Phase} (h : phase.isRunning = false) :
    phase.Justified store generations outcomes r ↔ outcomes = [] := by
  cases phase with
  | submitted | queued => exact Iff.rfl
  | running => cases h

/-- A move of a call keeps builds justified. -/
theorem Settled.justified_advance (h : s.Settled generations deliveries drawn) (hfits : s.Fits)
    (ht : s.tracker.Tracks s.held) {call : Nat} {fresh : BuildId} {now : Instant}
    (ht' : (s.advance call fresh now).tracker.Tracks (s.advance call fresh now).held)
    (hfresh : ∀ r, s.event? (.advance call fresh now) = some (.registered r) → r.id ∉ drawn) :
    ∀ x ∈ (s.advance call fresh now).phases, x.2.Justified (s.advance call fresh now).store
      generations (outcomesOf x.1.id deliveries) x.1 := by
  cases hc : s.submissions[call]? with
  | none =>
      simp only [Server.advance, hc]
      exact h.phases
  | some c =>
      obtain ⟨key, stage⟩ := c
      have hstore := store_advance hc fresh now
      refine h.justified_of_quiet ht ht' (shifts_advance hc fresh now)
        (fun key snapshot htagged => hstore ▸ htagged.write _) fun x hx => ?_
      rw [justified_of_not_running (isRunning_callPhase hx)]
      cases hphase : Submission.phase? ⟨key, stage⟩ with
      | some y =>
          have hmem := mem_phases_of_call hc hphase
          have hkey : y.1.key = key := Submission.key_of_phase hphase
          have hold := (justified_of_not_running (Submission.isRunning_of_phase hphase)).mp
            (h.phases y hmem)
          obtain ⟨next, hnext, -⟩ := exists_callPhase hphase hfits.named
            (hkey ▸ hfits.phases y hmem) fresh now
          rw [hnext] at hx
          obtain ⟨phase, -, rfl⟩ := Option.map_eq_some_iff.mp hx
          exact hold
      | none =>
          rcases s.callPhase_of_none hphase fresh now with hnone | ⟨hfree, hsome⟩
          · rw [hnone] at hx
            cases hx
          · obtain rfl := Option.some.inj (hsome.symm.trans hx)
            obtain ⟨rest, -, hafter⟩ := shifts_advance hc fresh now
            rw [hsome] at hafter
            have hheld : (⟨fresh, key⟩ : BuildRequest) ∈ (s.advance call fresh now).held :=
              mem_held_of_mem_phases (hafter.mem_iff.mpr List.mem_cons_self)
            rcases (s.handled_advance call fresh now).mem_or_registered hheld with hr | hevent
            · rw [(ht.inFlight key fresh).mpr hr] at hfree
              cases hfree
            · exact outcomesOf_eq_nil.mpr fun d hd hid =>
                hfresh _ hevent (hid ▸ h.within d hd)

/-- A worker that goes on with its job keeps builds justified, by what its move generates and
delivers. -/
theorem Settled.justified_busy (h : s.Settled generations deliveries drawn) (hfits : s.Fits)
    (ht : s.tracker.Tracks s.held) {compile : Compiler} {worker : Nat}
    {deployment : DeployOutcome} {now : Instant} {stage : JobStage}
    (hw : s.workers[worker]? = some (.busy ⟨r, stage⟩))
    (ht' : (s.work compile worker deployment now).tracker.Tracks
      (s.work compile worker deployment now).held) :
    ∀ x ∈ (s.work compile worker deployment now).phases,
      x.2.Justified (s.work compile worker deployment now).store
        (generations ++ (Job.generation? compile ⟨r, stage⟩).toList)
        (outcomesOf x.1.id (deliveries ++ (Job.delivery? deployment ⟨r, stage⟩).toList)) x.1 := by
  have hphase := mem_phases_of_worker hw
  have hexpected := hfits.phases _ hphase
  have htagged (key : TagKey) (snapshot : Snapshot) (h : s.store.Tagged key snapshot) :
      (s.work compile worker deployment now).store.Tagged key snapshot := by
    rw [store_work hw]
    exact h.write _
  refine (shifts_work hw compile deployment now).forall ht ht' h.phases (fun x hx => ?_)
    fun x _ _ hjustified hapart => ?_
  · obtain ⟨next, hnext, rfl⟩ := Option.map_eq_some_iff.mp hx
    have hproceeds := proceeds_workStage hexpected compile deployment now
    rw [hnext] at hproceeds
    obtain ⟨tag, htag⟩ := hexpected.exists_tag
    have hdelivered := outcomesOf_delivery deployment ⟨r, stage⟩
    have hjustified : (Phase.running next).Justified _ _ _ _ :=
      hproceeds.justified (h.phases _ hphase) (hfits.named _ _ htag).2 h.generated
    dsimp only at hdelivered hjustified ⊢
    rw [outcomesOf_append, hdelivered]
    exact hjustified.mono htagged (List.Subset.refl _)
  · -- Nothing was delivered for the others.
    have hothers : outcomesOf x.1.id (Job.delivery? deployment ⟨r, stage⟩).toList = [] := by
      refine outcomesOf_eq_nil.mpr fun d hd hid => ?_
      rw [Job.request_of_delivery (Option.mem_toList.mp hd)] at hid
      exact (hapart _ (.inl rfl)).1 hid.symm
    rw [outcomesOf_append, hothers, List.append_nil]
    exact hjustified.mono htagged (List.subset_append_left ..)

/-- A move of a worker keeps builds justified. -/
theorem Settled.justified_work (h : s.Settled generations deliveries drawn) (hfits : s.Fits)
    (ht : s.tracker.Tracks s.held) {compile : Compiler} {worker : Nat}
    {deployment : DeployOutcome} {now : Instant}
    (ht' : (s.work compile worker deployment now).tracker.Tracks
      (s.work compile worker deployment now).held) :
    ∀ x ∈ (s.work compile worker deployment now).phases,
      x.2.Justified (s.work compile worker deployment now).store
        (generations ++ ((s.job? worker).bind (Job.generation? compile)).toList)
        (outcomesOf x.1.id
          (deliveries ++ ((s.job? worker).bind (Job.delivery? deployment)).toList)) x.1 := by
  cases s.turn_work compile worker deployment now with
  | rests hjob _ hsame =>
      rw [hjob, hsame, Option.bind_none, Option.bind_none, Option.toList_none, Option.toList_none,
        List.append_nil, List.append_nil]
      exact h.phases
  | leaves hidle _ _ hleft =>
      simp only [job_of_idle hidle, hleft, Option.bind_none, Option.toList_none, List.append_nil]
      exact fun x hx => h.phases x ((shifts_stop hidle).perm.mem_iff.mp hx)
  | takes hidle htake htaken =>
      have hstore : (s.work compile worker deployment now).store = s.store := by
        rw [htaken]
        rfl
      simp only [job_of_idle hidle, Option.bind_none, Option.toList_none, List.append_nil]
      refine h.justified_of_quiet ht ht' (shifts_take hidle htake compile deployment now)
        (fun key snapshot htagged => hstore ▸ htagged) fun x hx => ?_
      rw [← Option.some.inj hx]
      exact h.phases _ (mem_phases_of_take htake)
  | works hw =>
      simp only [job_eq_some.mpr hw, Option.bind_some]
      exact h.justified_busy hfits ht hw ht'

/-- Every action keeps builds justified. -/
theorem Settled.justified_act (h : s.Settled generations deliveries drawn) (hfits : s.Fits)
    (ht : s.tracker.Tracks s.held) (ht' : (s.act action).tracker.Tracks (s.act action).held)
    (hauthored : action.IsAuthored)
    (hfresh : ∀ r, s.eventOf? action = some (.registered r) → r.id ∉ drawn) :
    ∀ x ∈ (s.act action).phases, x.2.Justified (s.act action).store
      (generations ++ (s.generation? action).toList)
      (outcomesOf x.1.id (deliveries ++ (s.delivery? action).toList)) x.1 := by
  cases action with
  | change f =>
      obtain ⟨edit, rfl⟩ := hauthored
      simp only [generation?, delivery?, Option.toList_none, List.append_nil]
      exact fun x hx => (h.phases x hx).mono
        (fun key snapshot htagged => htagged.grows (s.store.grows_apply edit)) (List.Subset.refl _)
  | move compile move =>
      cases move with
      | submit key =>
          simp only [generation?, delivery?, Option.toList_none, List.append_nil]
          intro x hx
          exact h.phases x (s.phases_submit compile key ▸ hx)
      | shutDown =>
          simp only [generation?, delivery?, Option.toList_none, List.append_nil]
          exact h.phases
      | advance call fresh now =>
          simp only [generation?, delivery?, Option.toList_none, List.append_nil]
          exact h.justified_advance hfits ht ht' hfresh
      | work worker deployment now => exact h.justified_work hfits ht ht'

/-! ## What is delivered, and what is recorded -/

/-- What is generated is what the move brings with it. -/
theorem of_generation {g : Generation} (hg : s.generation? action = some g)
    (hgenerates : action.Generates) :
    ∃ (generator : Generator) (directories : Directories),
      g.result = generator.generateSnapshot directories g.snapshot := by
  cases action with
  | change f => cases hg
  | move compile move =>
      cases move with
      | submit | advance | shutDown => cases hg
      | work worker deployment now =>
          obtain ⟨⟨r, stage⟩, -, hg⟩ := Option.bind_eq_some_iff.mp hg
          cases stage with
          | generate tag snapshot =>
              rw [← Option.some.inj hg]
              exact hgenerates snapshot
          | fetchTag | fetchSnapshot | mark | start | deploy | record | report => cases hg

/-- What is delivered was generated for a build that is held and was not delivered. -/
theorem Settled.of_delivery {d : Delivery} (h : s.Settled generations deliveries drawn)
    (hd : s.delivery? action = some d) :
    d.request ∈ s.held ∧ outcomesOf d.request.id deliveries = [] ∧
      ∃ g ∈ generations, g.request = d.request ∧ s.store.Tagged d.request.key g.snapshot ∧
        g.result = .ok d.policies := by
  cases action with
  | change f => cases hd
  | move compile move =>
      cases move with
      | submit | advance | shutDown => cases hd
      | work worker deployment now =>
          obtain ⟨⟨r, stage⟩, hjob, hd⟩ := Option.bind_eq_some_iff.mp hd
          cases stage with
          | deploy tag policies =>
              obtain rfl := Option.some.inj hd
              have hphase := mem_phases_of_worker (job_eq_some.mp hjob)
              exact ⟨mem_held_of_mem_phases hphase, h.phases _ hphase⟩
          | fetchTag | fetchSnapshot | mark | start | generate | record | report => cases hd

/-- A build ends when a worker reports it to the tracker, and nothing else happens then. -/
theorem exists_of_finished {id : BuildId} (ht : s.tracker.Tracks s.held)
    (hevent : s.eventOf? action = some (.finished id)) :
    ∃ (r : BuildRequest) (failure : Option String) (now : Instant),
      r.id = id ∧ (r, .running (.report failure)) ∈ s.phases ∧
        (s.act action).store = s.store ∧ s.delivery? action = none ∧
        s.tracker.finish id failure now = .ok (s.act action).tracker := by
  cases action with
  | change f => cases hevent
  | move compile move =>
      cases move with
      | submit | shutDown => cases hevent
      | advance call fresh now =>
          simp only [eventOf?, event?] at hevent
          split at hevent
          · split at hevent <;> cases hevent
          · cases hevent
          · cases hevent
      | work worker deployment now =>
          simp only [eventOf?, event?] at hevent
          split at hevent
          case h_2 => cases hevent
          next r failure hw =>
          obtain rfl := BuildEvent.finished.inj (Option.some.inj hevent)
          have hphase := mem_phases_of_worker hw
          obtain ⟨record, hrecord, -⟩ := ht.exists_record (mem_held_of_mem_phases hphase)
          refine ⟨r, failure, now, rfl, hphase, store_work hw compile deployment now, ?_, ?_⟩
          · simp only [delivery?, job_eq_some.mpr hw, Option.bind_some]
            rfl
          simp only [act, step]
          rw [work_of_busy hw]
          simp only [workStage, trackerAfter, Tracker.finish_eq hrecord]
          rfl

/-- Every action keeps the records of the tracker right. -/
theorem Settled.records_act (h : s.Settled generations deliveries drawn)
    (ht : s.tracker.Tracks s.held) :
    (s.act action).tracker.Every fun id record => record.isFinished →
      record.status = finalStatus (outcomesOf id (deliveries ++ (s.delivery? action).toList)) := by
  have hlater : s.tracker.Every fun id record => record.isFinished →
      record.status = finalStatus (outcomesOf id (deliveries ++ (s.delivery? action).toList)) := by
    intro id record hrecord hfinished
    have hothers : outcomesOf id (s.delivery? action).toList = [] := by
      refine outcomesOf_eq_nil.mpr fun d hd hid => ?_
      have hheld := (h.of_delivery (Option.mem_toList.mp hd)).1
      obtain ⟨record', hrecord', hunfinished, -⟩ := ht.exists_record hheld
      obtain rfl := Option.some.inj (hrecord.symm.trans (hid ▸ hrecord'))
      rw [hfinished] at hunfinished
      cases hunfinished
    rw [outcomesOf_append, hothers, List.append_nil]
    exact h.records id record hrecord hfinished
  cases hevent : s.eventOf? action with
  | none =>
      cases hevent ▸ s.handled_act action with
      | kept _ htracker => exact htracker ▸ hlater
      | @started r now hr _ htracker =>
          obtain ⟨t, hstart, -⟩ := ht.start hr now
          rw [htracker t hstart]
          exact hlater.start (fun record _ hfinished => by cases hfinished) hstart
  | some event =>
      cases event with
      | registered r =>
          cases hevent ▸ s.handled_act action with
          | registered _ _ htracker =>
              rw [htracker]
              exact hlater.register fun hfinished => by cases hfinished
      | discarded id =>
          cases hevent ▸ s.handled_act action with
          | discarded _ htracker =>
              rw [htracker]
              exact hlater.discard _
      | finished id =>
          obtain ⟨r, failure, now, rfl, hphase, -, hnone, hfinish⟩ := exists_of_finished ht hevent
          refine hlater.finish (fun record _ _ => ?_) hfinish
          rw [hnone, Option.toList_none, List.append_nil]
          exact finalStatus_eq (h.phases _ hphase)

/-- Every action leaves tags with the issues that their status asks for. -/
theorem Settled.remarks_act (h : s.Settled generations deliveries drawn) (hfits : s.Fits)
    (hauthored : action.IsAuthored) {key : TagKey} {tag : Tag}
    (htag : (s.act action).store.tag? key = some tag) : tag.IsRemarked := by
  rcases hfits.tag_act_cases hauthored key with
    hsame | ⟨-, t, hnew, ht⟩ | ⟨stored, tag', hstored, htag', hrewrites⟩
  · exact h.remarks key tag (hsame.symm.trans htag)
  · obtain rfl := Option.some.inj (hnew.symm.trans htag)
    rw [Tag.IsRemarked, ht.status_eq]
    exact ht.issues_eq
  · obtain rfl := Option.some.inj (htag'.symm.trans htag)
    cases hrewrites with
    | scheduled hrest => exact rfl
    | building hscheduled =>
        have hissues := h.remarks key stored hstored
        rw [Tag.IsRemarked, hscheduled] at hissues
        exact hissues
    | @finished r outcome now hphase _ =>
        obtain ⟨-, hadvice⟩ := h.phases _ hphase
        cases outcome with
        | ok issues => exact hadvice issues rfl
        | error e => exact ⟨e.toIssue, rfl, e.severity_toIssue⟩

/-- Every action keeps everything settled. -/
theorem Settled.act {events : List BuildEvent}
    (h : s.Settled generations deliveries (events.filterMap BuildEvent.drawn?)) (hfits : s.Fits)
    (hconsistent : s.Consistent events) (ht' : (s.act action).tracker.Tracks (s.act action).held)
    (hauthored : action.IsAuthored) (hgenerates : action.Generates)
    (hfresh : ((events ++ (s.eventOf? action).toList).filterMap BuildEvent.drawn?).Nodup) :
    (s.act action).Settled (generations ++ (s.generation? action).toList)
      (deliveries ++ (s.delivery? action).toList)
      ((events ++ (s.eventOf? action).toList).filterMap BuildEvent.drawn?) where
  phases := by
    refine h.justified_act hfits hconsistent.tracks ht' hauthored fun r hevent => ?_
    rw [hevent, List.filterMap_append] at hfresh
    intro hr
    exact (List.nodup_append.mp hfresh).2.2 _ hr _ (List.mem_singleton_self _) rfl
  generated := by
    intro g hg
    rcases List.mem_append.mp hg with hg | hg
    · exact h.generated g hg
    · intro policies hpolicies
      obtain ⟨generator, directories, hresult⟩ :=
        of_generation (Option.mem_toList.mp hg) hgenerates
      exact Generator.of_generateSnapshot (hresult.symm.trans hpolicies)
  once := by
    rw [List.map_append, List.nodup_append]
    refine ⟨h.once, ?_, fun id hid id' hid' heq => ?_⟩
    · cases s.delivery? action with
      | none => exact List.nodup_nil
      | some d => exact List.nodup_singleton _
    · obtain ⟨d', hd', rfl⟩ := List.mem_map.mp hid'
      obtain ⟨d, hd, rfl⟩ := List.mem_map.mp hid
      obtain ⟨-, hnone, -⟩ := h.of_delivery (Option.mem_toList.mp hd')
      exact outcomesOf_eq_nil.mp hnone d hd heq
  within := by
    intro d hd
    rw [List.filterMap_append, List.mem_append]
    rcases List.mem_append.mp hd with hd | hd
    · exact .inl (h.within d hd)
    · exact .inl (hconsistent.drawn_of_mem (h.of_delivery (Option.mem_toList.mp hd)).1)
  records := h.records_act hconsistent.tracks
  remarks := fun key tag => h.remarks_act hfits hauthored

/-- A server that has started is settled. -/
theorem settled_start {config : ServerConfig} {setup : List Edit}
    (h : Server.start config (.authored setup) = .ok s) : s.Settled [] [] [] where
  phases := by
    rw [phases_start h]
    exact fun x hx => by cases hx
  generated := fun g hg => by cases hg
  once := List.nodup_nil
  within := fun d hd => by cases hd
  records := by
    rw [eq_of_start h]
    exact fun id record hrecord => by cases hrecord
  remarks := by
    rw [eq_of_start h]
    intro key tag htag
    obtain ⟨t, ht, rfl⟩ := Option.map_eq_some_iff.mp htag
    have hnew := Repository.isNew_of_authored ht
    rw [Tag.IsRemarked, hnew.status_eq]
    exact hnew.issues_eq

section Interleavings

variable {config : ServerConfig} {setup : List Edit} {s₀ : Server Repository}
  {actions : List (Action Repository)}

/-- After every interleaving everything is settled. -/
theorem settled_play (hstart : Server.start config (.authored setup) = .ok s₀)
    (hfresh : s₀.DrawsOnce actions) (hauthored : ∀ a ∈ actions, a.IsAuthored)
    (hgenerates : ∀ a ∈ actions, a.Generates) :
    (s₀.play actions).Settled (s₀.log generation? actions) (s₀.log delivery? actions)
      (s₀.drawn actions) := by
  induction actions using List.reverseRecOn with
  | nil => exact settled_start hstart
  | append_singleton actions action ih =>
      rw [List.forall_mem_append, List.forall_mem_singleton] at hauthored hgenerates
      have hearlier := hfresh.of_append
      have hsettled := ih hearlier hauthored.1 hgenerates.1
      have htracks := (consistent_play hstart hfresh).tracks
      rw [DrawsOnce, drawn, events_concat] at hfresh
      rw [play_concat] at htracks ⊢
      rw [log_concat, log_concat, drawn, events_concat]
      exact hsettled.act (fits_play hstart hearlier hauthored.1) (consistent_play hstart hearlier)
        htracks hauthored.2 hgenerates.2 hfresh

/-- In every interleaving a build is delivered at most once, as it was generated for the
snapshot of its tag; it ends in the tracker and on its tag as the delivery did; tags have
the issues that their status asks for, and keep what their authors wrote. -/
theorem builds_settle {action : Action Repository}
    (hstart : Server.start config (.authored setup) = .ok s₀) (hfresh : s₀.DrawsOnce actions)
    (hauthored : ∀ a ∈ actions ++ [action], a.IsAuthored)
    (hgenerates : ∀ a ∈ actions, a.Generates) :
    let s := s₀.play actions
    let deliveries := s₀.log delivery? actions
    (deliveries.map fun d => d.request.id).Nodup ∧
    (∀ d, s.delivery? action = some d → ∃ g ∈ s₀.log generation? actions,
      g.request = d.request ∧ s.store.Tagged d.request.key g.snapshot ∧
        g.result = .ok d.policies ∧
        d.policies.map GeneratedPolicy.policy = g.snapshot.policies.map Policy.name) ∧
    (∀ id record, s.tracker.builds.find? id = some record → record.isFinished →
      record.status = finalStatus (outcomesOf id deliveries)) ∧
    (∀ id, s.eventOf? action = some (.finished id) → ∃ r failure now tag,
      r ∈ s.held ∧ r.id = id ∧ s.tracker.finish id failure now = .ok (s.act action).tracker ∧
        (failure = none ↔ .done ∈ outcomesOf id deliveries) ∧
        (s.act action).store.tag? r.key = some tag ∧
        tag.status = finalStatus (outcomesOf id deliveries)) ∧
    (∀ key tag, s.store.tag? key = some tag → tag.IsRemarked) ∧
    ∀ key tag, s.store.tag? key = some tag → ∃ tag', (s.act action).store.tag? key = some tag' ∧
      tag'.name = tag.name ∧ tag'.description = tag.description ∧
        tag'.createdBy = tag.createdBy ∧ tag'.createdAt = tag.createdAt := by
  rw [List.forall_mem_append, List.forall_mem_singleton] at hauthored
  intro s deliveries
  have hfits : s.Fits := fits_play hstart hfresh hauthored.1
  have htracks : s.tracker.Tracks s.held := (consistent_play hstart hfresh).tracks
  have h : s.Settled _ deliveries _ := settled_play hstart hfresh hauthored.1 hgenerates
  refine ⟨h.once, fun d hd => ?_, h.records, fun id hevent => ?_, h.remarks,
    fun key tag htag => ?_⟩
  · obtain ⟨-, -, g, hg, hrequest, htagged, hresult⟩ := h.of_delivery hd
    exact ⟨g, hg, hrequest, htagged, hresult, (h.generated g hg _ hresult).2⟩
  · obtain ⟨r, failure, now, rfl, hphase, hstore, -, hfinish⟩ := exists_of_finished htracks hevent
    obtain ⟨tag, htag, hstatus⟩ := hfits.phases _ hphase
    have hjustified : failure = none ↔ .done ∈ outcomesOf r.id deliveries := h.phases _ hphase
    exact ⟨r, failure, now, tag, mem_held_of_mem_phases hphase, rfl, hfinish, hjustified,
      hstore ▸ htag, hstatus.trans (finalStatus_eq hjustified)⟩
  · rcases hfits.tag_act_cases hauthored.2 key with
      hsame | ⟨hnone, -⟩ | ⟨stored, tag', hstored, htag', hrewrites⟩
    · exact ⟨tag, hsame.trans htag, rfl, rfl, rfl, rfl⟩
    · rw [hnone] at htag
      cases htag
    · obtain rfl := Option.some.inj (htag.symm.trans hstored)
      exact ⟨tag', htag', hrewrites.authored_eq⟩

end Interleavings

/-- A group with one policy is put into the store, and tagged twice. -/
def tagPolicyTwice : List Edit :=
  [.putGroup "o" { group := { name := "g" } },
    .putPolicy ⟨"o", "g", masterTag⟩ { name := "p" } "<a/>",
    .createTag ⟨"o", "g"⟩ { name := "v1", createdAt := .epoch },
    .createTag ⟨"o", "g"⟩ { name := "v2", createdAt := .epoch }]

/-- Both tags are built, as in `interleavedMoves`.  The first is delivered, the second is
not, and both workers write so on the tags. -/
def deliveringActions : List (Action Repository) :=
  let generator : Generator := ⟨.standard, .empty, .empty⟩
  let work (i : Nat) (outcome : DeployOutcome) : Move := .work i outcome .epoch
  let moves := interleavedMoves ++ [work 0 .done, work 1 (.failed (.repository "read-only")),
    work 0 .done, work 1 .done]
  moves.map (.move (generator.generateSnapshot fun _ => false))

/-- The build that was not delivered ends as failed, in the tracker and on its tag. -/
theorem builds_settle_delivered :
    ∃ s₀, Server.start twoWorkers (Repository.authored tagPolicyTwice) = .ok s₀ ∧
      (s₀.log delivery? deliveringActions).map (fun d => (d.request.id, d.outcome)) =
        [("a", .done), ("c", .failed (.repository "read-only"))] ∧
      let s := s₀.play deliveringActions
      let s' := s.act (.move noCompiler (.work 1 .done .epoch))
      (∃ (r : BuildRequest) (failure : Option String) (now : Instant) (tag : Tag), r.id = "c" ∧
        s.tracker.finish "c" failure now = .ok s'.tracker ∧ failure ≠ none ∧
        s'.store.tag? r.key = some tag ∧ tag.status = .failed) ∧
      ∀ key tag, s.store.tag? key = some tag → tag.IsRemarked := by
  have hstart : Server.start twoWorkers (Repository.authored tagPolicyTwice) = .ok _ := rfl
  have hauthored : ∀ a ∈ deliveringActions ++ [.move noCompiler (.work 1 .done .epoch)],
      a.IsAuthored := by
    refine List.forall_mem_append.mpr ⟨fun a ha => ?_, by simp [Action.IsAuthored]⟩
    obtain ⟨move, -, rfl⟩ := List.mem_map.mp ha
    trivial
  have hgenerates : ∀ a ∈ deliveringActions, a.Generates := by
    intro a ha
    obtain ⟨move, -, rfl⟩ := List.mem_map.mp ha
    exact fun snapshot => ⟨_, _, rfl⟩
  obtain ⟨-, -, -, hfinished, hremarks, -⟩ :=
    builds_settle hstart (by decide +kernel) hauthored hgenerates
  obtain ⟨r, failure, now, tag, -, hid, hfinish, hfailure, htag, hstatus⟩ :=
    hfinished "c" (by decide +kernel)
  refine ⟨_, hstart, by decide +kernel,
    ⟨r, failure, now, tag, hid, hfinish, ?_, htag, ?_⟩, hremarks⟩
  · exact hfailure.not.mpr (by decide +kernel)
  · exact hstatus.trans (by decide +kernel)

end Server

end RouteCompiler
