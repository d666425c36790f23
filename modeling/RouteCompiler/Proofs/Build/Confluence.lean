import RouteCompiler.Proofs.Build.Following
import RouteCompiler.Proofs.Build.Immutability
import RouteCompiler.Proofs.Generation.Remembering

/-!
# Confluence

A server may have many workers or one, and take builds in this order or that, while others
edit the groups.  Nothing of this is to be seen on the tags in the end.  What a build leaves
on its tag can be told beforehand from what was tagged, and as long as the build is in flight
the forecast stays the same, whatever happens to others.

Main definitions:

- `Toolchain`: a generator and a deployer that answer alike whenever they are asked alike.
- `Toolchain.verdict`: what comes of the build of a snapshot.
- `Toolchain.forecast`: what a tag shows when the build in flight has ended.
- `Toolchain.Foresees`: a server in which a tag will show what is expected.
- `Toolchain.Completes`: a run with a toolchain, after which no build is in flight.

Main results:

- Theorems `forecast_callPhase` and `forecast_workStage`: the steps of a build keep the
  forecast.
- Theorem `Foresees.act`: an action changes what is foreseen of a tag only if it queues a
  build of it.
- Theorem `shown_of_completes`: what tags show after a complete run.
- Theorem `shown_eq_of_completes`: complete runs that accept builds of the same tags end
  alike.
-/

namespace RouteCompiler

/-! ## What tags show -/

/-- What a tag shows of its build. -/
def Tag.shown (tag : Tag) : BuildStatus × List Issue :=
  (tag.status, tag.issues)

/-- What is shown of a build that has ended. -/
def Server.resultOf : BuildOutcome → BuildStatus × List Issue
  | .ok issues => (.successful, issues)
  | .error e => (.failed, [e.toIssue])

theorem Server.shown_finishedTag (tag : Tag) (outcome : BuildOutcome) (now : Instant) :
    (finishedTag tag outcome now).shown = resultOf outcome := by
  cases outcome <;> rfl

/-- A tagged snapshot with another record, if one is written. -/
def TaggedSnapshot.withRecord (t : TaggedSnapshot) : Option (TagKey × Tag) → TaggedSnapshot
  | some (key, tag) => { t with tag := { tag with name := key.tag } }
  | none => t

@[simp]
theorem TaggedSnapshot.snapshot_withRecord (t : TaggedSnapshot) (w : Option (TagKey × Tag)) :
    (t.withRecord w).snapshot = t.snapshot := by
  cases w <;> rfl

/-- Where a record is written for a tag, its snapshot has that record. -/
theorem Repository.tagged_write_of {r : Repository} {key : TagKey} {t : TaggedSnapshot}
    {w : Option (TagKey × Tag)} (h : r.tagged? key = some t) (hw : ∀ x, w = some x → x.1 = key) :
    (r.write w).tagged? key = some (t.withRecord w) := by
  cases w with
  | none => exact h
  | some w =>
      obtain ⟨written, tag⟩ := w
      obtain rfl : written = key := hw _ rfl
      rw [tagged_write, if_pos rfl, h]
      rfl

/-! ## Toolchains -/

/-- A generator with the directories that it looks at, and a deployer.  What becomes of a
deployment depends on the key of the tag and on the policies only. -/
structure Toolchain where
  generator : Generator
  directories : Directories
  deploy : TagKey → List GeneratedPolicy → DeployOutcome
  reached : generator.resolvers.Reached directories

namespace Toolchain

variable (c : Toolchain) {s s₀ : Server Repository} {key : TagKey} {t : TaggedSnapshot}
  {action : Action Repository} {actions : List (Action Repository)} {r : BuildRequest}

/-- Snapshots are generated by the generator, whose chain of resolvers may have been asked
for anything before; who changes the store edits working copies. -/
def Admits : Action Repository → Prop
  | .move compile _ => ∀ snapshot, ∃ chain : ResolverChain, chain.Reached c.directories ∧
      chain.resolvers = c.generator.resolvers.resolvers ∧
      compile snapshot = (c.generator.withChain chain).generateSnapshot c.directories snapshot
  | .change f => ∃ edit : Edit, edit.IsOfMaster ∧ f = edit.apply

/-- What comes of policies that are deployed. -/
def delivered (key : TagKey) (policies : List GeneratedPolicy) : BuildOutcome :=
  Server.outcomeOf policies (c.deploy key policies)

/-- What comes of a snapshot that is generated. -/
def built (key : TagKey) (snapshot : Snapshot) : BuildOutcome :=
  match c.generator.generateSnapshot c.directories snapshot with
  | .ok policies => c.delivered key policies
  | .error e => .error (.generation e)

/-- What comes of the build of a snapshot. -/
def verdict (key : TagKey) (snapshot : Snapshot) : BuildOutcome :=
  match snapshot.validateResources with
  | .ok _ => c.built key snapshot
  | .error e => .error (.model e)

/-- What a tag shows when the build in flight has ended.  A build that is not queued yet may
still be withdrawn, and does not count. -/
def forecast (key : TagKey) (t : TaggedSnapshot) : Option Phase → BuildStatus × List Issue
  | none | some (.submitted _) | some (.running (.report _)) => t.tag.shown
  | some .queued | some (.running .fetchTag) | some (.running (.fetchSnapshot _)) =>
      Server.resultOf (c.verdict key t.snapshot)
  | some (.running (.mark _ snapshot)) | some (.running (.start _ snapshot))
  | some (.running (.generate _ snapshot)) => Server.resultOf (c.built key snapshot)
  | some (.running (.deploy _ policies)) => Server.resultOf (c.delivered key policies)
  | some (.running (.record _ outcome)) => Server.resultOf outcome

variable {c}

/-- A snapshot is generated as if the chain of resolvers had not been asked before. -/
theorem Admits.compile_eq {compile : Compiler} {move : Move} (h : c.Admits (.move compile move))
    (snapshot : Snapshot) :
    compile snapshot = c.generator.generateSnapshot c.directories snapshot := by
  obtain ⟨chain, hreached, hsame, hcompile⟩ := h snapshot
  rw [hcompile, Generator.generateSnapshot_withChain c.reached.truthful ⟨hsame, hreached.truthful⟩]

/-! ## Steps of one build -/

/-- A call keeps the forecast, unless it queues its build or is about to do so. -/
theorem forecast_callPhase {stage : SubmissionStage}
    (hphase : Submission.phase? ⟨key, stage⟩ = some (r, .submitted stage))
    (hstage : ∀ id, stage ≠ .enqueue id) (ht : s.store.tagged? key = some t) (fresh : BuildId)
    (now : Instant)
    (hnext : ∀ id, (s.callPhase? key fresh now stage).map Prod.snd ≠
      some (.submitted (.enqueue id))) :
    c.forecast key (t.withRecord (Submission.write? ⟨key, stage⟩))
      ((s.callPhase? key fresh now stage).map Prod.snd) =
        c.forecast key t (some (.submitted stage)) := by
  cases stage with
  | lookUp | register | answered => cases hphase
  | enqueue id => exact absurd rfl (hstage id)
  | withdraw => rfl
  | reserve | refresh =>
      simp only [Server.callPhase?, Server.advanceStage]
      split <;> rfl
  | mark id tag =>
      -- The tag is there, so after it is marked its build is about to be queued.
      have htag := Repository.tag_of_tagged ht
      refine absurd ?_ (hnext id)
      simp only [Server.callPhase?, Server.advanceStage, Repository.store_updateTag htag]
      rfl

/-- A worker keeps the forecast of its build. -/
theorem forecast_workStage {compile : Compiler} {stage : JobStage} {deployment : DeployOutcome}
    (hcompile : ∀ snapshot, compile snapshot = c.generator.generateSnapshot c.directories snapshot)
    (hdeploy : ∀ d, Job.delivery? deployment ⟨r, stage⟩ = some d →
      d.outcome = c.deploy d.request.key d.policies)
    (ht : s.store.tagged? r.key = some t) (hmaster : r.key.tag ≠ masterTag) (now : Instant) :
    c.forecast r.key (t.withRecord (Job.write? now ⟨r, stage⟩))
      ((s.workStage compile r deployment now stage).1.map .running) =
        c.forecast r.key t (some (.running stage)) := by
  have htag := Repository.tag_of_tagged ht
  cases stage with
  | fetchTag =>
      simp only [Server.workStage, Store.getTag, htag, Server.requireTag]
      rfl
  | fetchSnapshot tag =>
      have htagged : s.store.Tagged r.key t.snapshot := by
        rw [Repository.Tagged, ht, Option.map_some]
      have hsnapshot := Repository.snapshot_of_stored (htagged.stored hmaster)
      simp only [Server.workStage, Store.getSnapshot, hsnapshot, forecast, verdict]
      cases t.snapshot.validateResources <;> rfl
  | mark tag snapshot =>
      simp only [Server.workStage, Repository.store_updateTag htag]
      rfl
  | start tag snapshot => rfl
  | generate tag snapshot =>
      simp only [Server.workStage, hcompile, forecast, built]
      cases c.generator.generateSnapshot c.directories snapshot <;> rfl
  | deploy tag policies =>
      have houtcome : deployment = c.deploy r.key policies := hdeploy _ rfl
      rw [houtcome]
      rfl
  | record tag outcome =>
      simp only [Server.workStage, Repository.store_updateTag htag]
      exact Server.shown_finishedTag tag outcome now
  | report failure => rfl

/-! ## Actions -/

/-- Tags change only by the record that an action writes. -/
theorem tagged_act (hadmits : c.Admits action) (key : TagKey) :
    (s.act action).store.tagged? key = (s.store.write (s.write? action)).tagged? key := by
  cases action with
  | change f =>
      obtain ⟨edit, hmaster, rfl⟩ := hadmits
      exact Repository.tagged_apply hmaster s.store key
  | move compile move =>
      have hstore : (s.act (.move compile move)).store = _ := s.store_step compile move
      rw [hstore]

/-- An action that spares a tag leaves it as it is. -/
theorem tagged_act_of_spares (hadmits : c.Admits action) (hspares : s.Spares action key) :
    (s.act action).store.tagged? key = s.store.tagged? key := by
  rw [tagged_act hadmits]
  cases hwrite : s.write? action with
  | none => rfl
  | some w => rw [Repository.tagged_write, if_neg (hspares.write w hwrite).symm]

/-- No action makes a tag. -/
theorem tagged_act_of_none (hadmits : c.Admits action) (h : s.store.tagged? key = none) :
    (s.act action).store.tagged? key = none := by
  rw [tagged_act hadmits]
  cases s.write? action with
  | none => exact h
  | some w =>
      rw [Repository.tagged_write]
      split
      · next heq => rw [← heq, h, Option.map_none]
      · exact h

/-- A tag will show what is expected when the build in flight has ended.  Nothing is said of it
while a call is about to queue its build. -/
def Foresees (c : Toolchain) (s : Server Repository) (key : TagKey) (snapshot : Snapshot)
    (expected : BuildStatus × List Issue) : Prop :=
  ∃ t, s.store.tagged? key = some t ∧ t.snapshot = snapshot ∧
    ((∀ id, s.phaseOf key ≠ some (.submitted (.enqueue id))) →
      c.forecast key t (s.phaseOf key) = expected)

/-- An action changes what is foreseen of a tag only if it queues a build of it. -/
theorem Foresees.act {snapshot : Snapshot} {expected : BuildStatus × List Issue}
    (h : c.Foresees s key snapshot expected) (ht : s.tracker.Tracks s.held)
    (ht' : (s.act action).tracker.Tracks (s.act action).held) (hmaster : key.tag ≠ masterTag)
    (hadmits : c.Admits action)
    (hdeploy : ∀ d, s.delivery? action = some d → d.outcome = c.deploy d.request.key d.policies) :
    c.Foresees (s.act action) key snapshot
      (if (s.queued? action).map BuildRequest.key = some key then
        Server.resultOf (c.verdict key snapshot)
      else expected) := by
  obtain ⟨t, htagged, rfl, hexpected⟩ := h
  have hkept (hspares : s.Spares action key) :
      (s.act action).store.tagged? key = some t ∧
        ¬(s.queued? action).map BuildRequest.key = some key := by
    refine ⟨(tagged_act_of_spares hadmits hspares).trans htagged, fun hqueued => ?_⟩
    obtain ⟨r, hr, hkey⟩ := Option.map_eq_some_iff.mp hqueued
    exact hspares.queued r hr hkey
  have hpasses := Server.passes_act ht ht' key
  -- Both phases are indices of `Passes`, and have to be variables for the cases.
  rw [Foresees]
  generalize s.phaseOf key = old at hpasses hexpected
  generalize (s.act action).phaseOf key = new at hpasses
  cases hpasses with
  | stays hspares =>
      obtain ⟨htagged', hqueued⟩ := hkept hspares
      rw [if_neg hqueued]
      exact ⟨t, htagged', rfl, hexpected⟩
  | comes hspares | takes hspares =>
      obtain ⟨htagged', hqueued⟩ := hkept hspares
      rw [if_neg hqueued]
      exact ⟨t, htagged', rfl, fun _ => hexpected fun id hid => by cases hid⟩
  | @calls compile call stage r fresh now hc hphase =>
      refine ⟨t.withRecord (Submission.write? ⟨key, stage⟩), ?_, t.snapshot_withRecord _,
        fun hnext => ?_⟩
      · exact Server.store_advance hc fresh now ▸
          Repository.tagged_write_of htagged fun x hx => Submission.key_of_write hx
      · by_cases hstage : ∃ id, stage = .enqueue id
        · obtain ⟨id, rfl⟩ := hstage
          rw [Server.queued_enqueue hc, Option.map_some, if_pos rfl]
          rfl
        · rw [not_exists] at hstage
          rw [Server.queued_eq_none hc hstage, Option.map_none, if_neg (by simp),
            forecast_callPhase hphase hstage htagged fresh now hnext]
          exact hexpected fun id hid => hstage id (Phase.submitted.inj (Option.some.inj hid))
  | @works compile i r stage deployment now hw hkey =>
      subst hkey
      refine ⟨t.withRecord (Job.write? now ⟨r, stage⟩), ?_, t.snapshot_withRecord _, fun _ => ?_⟩
      · exact Server.store_work hw compile deployment now ▸
          Repository.tagged_write_of htagged fun x hx => Job.key_of_write hx
      · rw [Server.queued?, Option.map_none, if_neg (by simp),
          forecast_workStage hadmits.compile_eq (fun d hd => hdeploy d ?_) htagged hmaster]
        · exact hexpected fun id hid => by cases hid
        · rw [Server.delivery?, Server.job_eq_some.mpr hw, Option.bind_some, hd]

/-! ## Complete runs -/

/-- No identifier is drawn twice, everything is done with a toolchain, and after the run no
build is in flight. -/
structure Completes (c : Toolchain) (s : Server Repository) (actions : List (Action Repository)) :
    Prop where
  fresh : s.DrawsOnce actions
  admits : ∀ action ∈ actions, c.Admits action
  deploys : ∀ d ∈ s.log Server.delivery? actions, d.outcome = c.deploy d.request.key d.policies
  ended : (s.play actions).held = []

variable {config : ServerConfig} {store : Repository}

/-- After every interleaving a tag will show what comes of its snapshot if a build of it was
accepted, and what it has shown before if none was. -/
theorem foresees_play (hstart : Server.start config store = .ok s₀)
    (hfresh : s₀.DrawsOnce actions) (hadmits : ∀ action ∈ actions, c.Admits action)
    (hdeploys : ∀ d ∈ s₀.log Server.delivery? actions,
      d.outcome = c.deploy d.request.key d.policies)
    (ht : store.tagged? key = some t) (hmaster : key.tag ≠ masterTag) :
    c.Foresees (s₀.play actions) key t.snapshot
      (if key ∈ s₀.accepted actions then Server.resultOf (c.verdict key t.snapshot)
      else t.tag.shown) := by
  induction actions using List.reverseRecOn with
  | nil =>
      have hphase : s₀.phaseOf key = none := by
        rw [Server.phaseOf, Server.phases_start hstart]
        rfl
      obtain rfl := Server.eq_of_start hstart
      refine ⟨t, ht, rfl, fun _ => ?_⟩
      rw [Server.play, List.foldl_nil, hphase]
      rfl
  | append_singleton actions action ih =>
      rw [List.forall_mem_append, List.forall_mem_singleton] at hadmits
      rw [Server.log_concat, List.forall_mem_append] at hdeploys
      have hearlier := hfresh.of_append
      have htracks := (Server.consistent_play hstart hfresh).tracks
      rw [Server.play_concat] at htracks ⊢
      have hnow := (ih hearlier hadmits.1 hdeploys.1).act
        (Server.consistent_play hstart hearlier).tracks htracks hmaster hadmits.2
        fun d hd => hdeploys.2 d (Option.mem_toList.mpr hd)
      have haccepted : key ∈ s₀.accepted (actions ++ [action]) ↔
          key ∈ s₀.accepted actions ∨
            ((s₀.play actions).queued? action).map BuildRequest.key = some key := by
        simp [Server.accepted, Server.log_concat]
      simp only [haccepted]
      by_cases hqueued : ((s₀.play actions).queued? action).map BuildRequest.key = some key
      · simpa only [hqueued, or_true, if_true] using hnow
      · simpa only [hqueued, or_false, if_false] using hnow

/-- What is not tagged at first is not tagged later. -/
theorem tagged_play_of_none (hstart : Server.start config store = .ok s₀)
    (hadmits : ∀ action ∈ actions, c.Admits action) (ht : store.tagged? key = none) :
    (s₀.play actions).store.tagged? key = none := by
  induction actions using List.reverseRecOn with
  | nil =>
      obtain rfl := Server.eq_of_start hstart
      exact ht
  | append_singleton actions action ih =>
      rw [List.forall_mem_append, List.forall_mem_singleton] at hadmits
      rw [Server.play_concat]
      exact tagged_act_of_none hadmits.2 (ih hadmits.1)

/-- After a complete run the tags whose builds were accepted show what comes of their
snapshots, and all others what they have shown before. -/
theorem shown_of_completes (hstart : Server.start config store = .ok s₀)
    (hnamed : store.IsNamed) (h : c.Completes s₀ actions) (key : TagKey) :
    ((s₀.play actions).store.tag? key).map Tag.shown =
      (store.tagged? key).map fun t =>
        if key ∈ s₀.accepted actions then Server.resultOf (c.verdict key t.snapshot)
        else t.tag.shown := by
  cases ht : store.tagged? key with
  | none =>
      rw [Repository.tag?, tagged_play_of_none hstart h.admits ht]
      rfl
  | some t =>
      have hmaster : key.tag ≠ masterTag := (hnamed key _ (Repository.tag_of_tagged ht)).2
      obtain ⟨t', ht', -, hshown⟩ :=
        foresees_play hstart h.fresh h.admits h.deploys ht hmaster
      have hphase : (s₀.play actions).phaseOf key = none := by
        rw [Server.phaseOf_eq_none, h.ended]
        exact fun r hr => by cases hr
      rw [hphase] at hshown
      rw [Repository.tag_of_tagged ht', Option.map_some, Option.map_some,
        ← hshown fun id hid => by cases hid]
      rfl

/-- Builds of different tags do not interfere.  Two complete runs with the same toolchain from
the same store, which accept builds of the same tags, leave every tag with the same status and
the same issues: however many workers there are, in whatever order builds are queued and calls
and workers move, and whatever is edited meanwhile. -/
theorem shown_eq_of_completes {history : List Repository.Operation} {config' : ServerConfig}
    {s₀' : Server Repository} {actions' : List (Action Repository)}
    (hstart : Server.start config (Repository.empty.performAll history) = .ok s₀)
    (hstart' : Server.start config' (Repository.empty.performAll history) = .ok s₀')
    (h : c.Completes s₀ actions) (h' : c.Completes s₀' actions')
    (haccepted : ∀ key, key ∈ s₀.accepted actions ↔ key ∈ s₀'.accepted actions') (key : TagKey) :
    ((s₀.play actions).store.tag? key).map Tag.shown =
      ((s₀'.play actions').store.tag? key).map Tag.shown := by
  have hnamed := Repository.isNamed_performAll history
  rw [shown_of_completes hstart hnamed h, shown_of_completes hstart' hnamed h']
  simp only [haccepted]

/-- Policies of one tag are deployed, all others are refused. -/
def deployingOne : Toolchain where
  generator := ⟨.standard, .empty, .empty⟩
  directories := fun _ => false
  deploy key _ := if key.tag = "v1" then .done else .failed (.repository "read-only")
  reached := .empty

/-- Two workers build both tags at a time, as in `interleavedMoves`, until they have ended. -/
def sideBySide : List (Action Repository) :=
  let work (worker : Nat) (outcome : DeployOutcome) : Move := .work worker outcome .epoch
  let refused : DeployOutcome := .failed (.repository "read-only")
  let moves := Server.interleavedMoves ++ [work 0 .done, work 1 refused, work 0 .done,
    work 1 .done, work 1 .done, work 0 .done]
  moves.map (.move
    ((deployingOne.generator.withChain .empty).generateSnapshot deployingOne.directories))

/-- One worker builds the second tag first.  Then the group is edited, and the first tag is
built by a generator that was asked for a component before. -/
def oneByOne : List (Action Repository) :=
  let chain := (ResolverChain.empty.packagesFor deployingOne.directories "jms").2
  let compile := (deployingOne.generator.withChain chain).generateSnapshot deployingOne.directories
  let build (call : Nat) (id : BuildId) (tag : String) (outcome : DeployOutcome) : List Move :=
    .submit ⟨"o", "g", tag⟩ :: List.replicate 6 (.advance call id .epoch) ++
      List.replicate 9 (.work 0 outcome .epoch)
  let edit : Edit := .putPolicy ⟨"o", "g", masterTag⟩ { name := "q" } "<b/>"
  (build 0 "x" "v2" (.failed (.repository "read-only"))).map (.move compile) ++
    .change edit.apply :: (build 1 "y" "v1" .done).map (.move compile)

/-- Whatever the chain of resolvers was asked for, the toolchain admits what is generated. -/
theorem admits_of_reached {chain : ResolverChain} (h : chain.Reached c.directories)
    (hsame : chain.resolvers = c.generator.resolvers.resolvers) (moves : List Move) :
    ∀ action ∈ moves.map
        (Action.move ((c.generator.withChain chain).generateSnapshot c.directories)),
      c.Admits action := by
  intro action haction
  obtain ⟨move, -, rfl⟩ := List.mem_map.mp haction
  exact fun snapshot => ⟨chain, h, hsame, rfl⟩

/-- Both tags end alike, whichever is built first: one as deployed, the other as refused. -/
theorem shown_eq_of_completes_reordered :
    ∃ s₀ s₀', Server.start Server.twoWorkers
        (Repository.empty.performAll (Server.tagPolicyTwice.map .author)) = .ok s₀ ∧
      Server.start { scheduler := { poolSize := 1 } }
        (Repository.empty.performAll (Server.tagPolicyTwice.map .author)) = .ok s₀' ∧
      s₀.accepted sideBySide = [⟨"o", "g", "v1"⟩, ⟨"o", "g", "v2"⟩] ∧
      s₀'.accepted oneByOne = [⟨"o", "g", "v2"⟩, ⟨"o", "g", "v1"⟩] ∧
      (∀ key, ((s₀.play sideBySide).store.tag? key).map Tag.shown =
        ((s₀'.play oneByOne).store.tag? key).map Tag.shown) ∧
      ((s₀'.play oneByOne).store.tag? ⟨"o", "g", "v1"⟩).map Tag.status = some .successful ∧
      ((s₀'.play oneByOne).store.tag? ⟨"o", "g", "v2"⟩).map Tag.status = some .failed := by
  have hstart : Server.start Server.twoWorkers
      (Repository.empty.performAll (Server.tagPolicyTwice.map .author)) = .ok _ := rfl
  have hstart' : Server.start { scheduler := { poolSize := 1 } }
      (Repository.empty.performAll (Server.tagPolicyTwice.map .author)) = .ok _ := rfl
  have hreached : (ResolverChain.empty.packagesFor deployingOne.directories "jms").2.Reached
      deployingOne.directories := .asked .empty _
  have hedit : Edit.IsOfMaster
      (.putPolicy ⟨"o", "g", masterTag⟩ { name := "q" } "<b/>") := trivial
  have hadmits : ∀ action ∈ oneByOne, deployingOne.Admits action :=
    List.forall_mem_append.mpr ⟨admits_of_reached hreached rfl _,
      List.forall_mem_cons.mpr ⟨⟨_, hedit, rfl⟩, admits_of_reached hreached rfl _⟩⟩
  refine ⟨_, _, hstart, hstart', by decide +kernel, by decide +kernel, ?_, by decide +kernel,
    by decide +kernel⟩
  refine shown_eq_of_completes hstart hstart' (c := deployingOne) ?_ ?_ fun key => ?_
  · exact ⟨by decide +kernel, admits_of_reached .empty rfl _, by decide +kernel,
      by decide +kernel⟩
  · exact ⟨by decide +kernel, hadmits, by decide +kernel, by decide +kernel⟩
  · exact List.Perm.mem_iff (by decide +kernel)

end Toolchain

end RouteCompiler
