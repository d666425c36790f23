import RouteCompiler.Proofs.Build.Replacement
import RouteCompiler.Proofs.Files.Recording

/-!
# Where deployments reach

The names of a deployment are checked one by one, and then joined, suffixed, cut and joined again to
paths.  This module follows them there: a deployment whose names fail the checks asks for nothing,
and every other asks only for operations inside of the directory of its group.

Main definitions:

- `HasSafeNames`: what the names of a deployment are checked for.
- `WithinGroup`: a path leads from the root to the group, and on by names.

Main results:

- Theorem `checkNames_eq_ok_iff`: the checks accept just these names.
- Theorem `isRelative_staging`: what is put behind a tag for its staging directory keeps it a path
  of names.
- Theorem `records_deploy`: what a deployment asks for.
- Theorem `requests_deploy_eq_nil_iff`: when it asks for nothing.
- Theorem `deployment_confined`: a deployment stays inside of the directory of its group.
-/

namespace RouteCompiler.Deployment

open RouteCompiler.Path FileSystem

variable {root base path text directory : String} {key : TagKey} {build : BuildId} {now : Instant}
  {policies : List GeneratedPolicy}

/-! ## Names -/

/-- The names of a deployment can be joined to paths. -/
structure HasSafeNames (key : TagKey) (policies : List GeneratedPolicy) : Prop where
  org : isSingleName key.org = true
  group : isSingleName key.group = true
  tag : isSingleName key.tag = true
  policy : ∀ g ∈ policies, isSingleName g.policy = true
  resource : ∀ g ∈ policies, ∀ name ∈ g.resources.keys, isRelative name = true

theorem checkPolicy_eq_ok {g : GeneratedPolicy} (hpolicy : isSingleName g.policy = true)
    (hresources : ∀ name ∈ g.resources.keys, isRelative name = true) :
    checkPolicy key g = .ok () := by
  have hnone : (g.resources.keys.find? fun name => !isRelative name) = none :=
    List.find?_eq_none.mpr fun name hname => by simp [hresources name hname]
  rw [checkPolicy, hpolicy, hnone]
  rfl

/-- The checks accept just such names. -/
theorem checkNames_eq_ok_iff : checkNames key policies = .ok () ↔ HasSafeNames key policies := by
  constructor
  · intro h
    obtain ⟨horg, hgroup, htag, hpolicies⟩ := of_checkNames h
    exact ⟨horg, hgroup, htag, fun g hg => (hpolicies g hg).1, fun g hg => (hpolicies g hg).2⟩
  · intro h
    rw [checkNames, checkDirectoryName, if_pos h.org, checkDirectoryName, if_pos h.group,
      checkDirectoryName, if_pos h.tag]
    exact Outcome.forM_eq_ok fun g hg => checkPolicy_eq_ok (h.policy g hg) (h.resource g hg)

theorem of_checkDirectoryName_eq_error {name : String} {e : BuildError}
    (h : checkDirectoryName key name = .error e) : ∃ reason, e = .deployment key reason := by
  rw [checkDirectoryName] at h
  split at h
  · cases h
  · exact ⟨_, (Except.error.inj h).symm⟩

theorem of_checkPolicy_eq_error {g : GeneratedPolicy} {e : BuildError}
    (h : checkPolicy key g = .error e) : ∃ reason, e = .deployment key reason := by
  rw [checkPolicy] at h
  split at h
  · exact ⟨_, (Except.error.inj h).symm⟩
  · split at h
    · exact ⟨_, (Except.error.inj h).symm⟩
    · cases h

/-- What the checks do not accept they refuse. -/
theorem exists_checkNames_eq_error (h : ¬ HasSafeNames key policies) :
    ∃ reason, checkNames key policies = .error (.deployment key reason) := by
  cases hchecked : checkNames key policies with
  | ok => exact absurd (checkNames_eq_ok_iff.mp hchecked) h
  | error e =>
      suffices hreason : ∃ reason, e = .deployment key reason by
        obtain ⟨reason, rfl⟩ := hreason
        exact ⟨reason, rfl⟩
      rw [checkNames] at hchecked
      rcases Outcome.of_bind_eq_error hchecked with horg | ⟨⟨⟩, -, hchecked⟩
      · exact of_checkDirectoryName_eq_error horg
      rcases Outcome.of_bind_eq_error hchecked with hgroup | ⟨⟨⟩, -, hchecked⟩
      · exact of_checkDirectoryName_eq_error hgroup
      rcases Outcome.of_bind_eq_error hchecked with htag | ⟨⟨⟩, -, hchecked⟩
      · exact of_checkDirectoryName_eq_error htag
      obtain ⟨g, -, hpolicy⟩ := Outcome.of_forM_eq_error hchecked
      exact of_checkPolicy_eq_error hpolicy

/-- The staging directory of a tag begins with the name of the tag. -/
theorem front_staging {tag : String} (htag : isSingleName tag = true) :
    front (tag ++ stagingSuffix) = [] := by
  rw [front, if_neg (by simp [(descends_staging htag).1]), if_neg]
  by_cases hslash : '/' ∈ tag.toList
  · obtain ⟨before, behind, hsplit⟩ := List.append_of_mem hslash
    have hhead : (pieces (tag ++ stagingSuffix)).head? = (pieces tag).head? := by
      rw [pieces, pieces, String.toList_append, hsplit, List.append_assoc, List.cons_append,
        head_splitOn_append_cons, head_splitOn_append_cons]
    have hfront := front_of_isRelative (isRelative_of_isSingleName htag)
    rw [front, if_neg (by simp [(descends_of_isSingleName htag).1])] at hfront
    rw [hhead]
    exact fun hdot => by simp [hdot] at hfront
  · have hname : '/' ∉ tag.toList ++ stagingSuffix.toList := by
      rw [List.mem_append, not_or]
      exact ⟨hslash, slash_not_mem_stagingSuffix⟩
    rw [pieces, String.toList_append, Text.splitOn_of_not_mem hname, List.head?_cons,
      Option.some_inj]
    intro hdot
    have htrivial := (isName_of_staging tag.toList).1
    rw [hdot] at htrivial
    cases htrivial

/-- What is put behind a tag for its staging directory keeps it a path of names. -/
theorem isRelative_staging {tag : String} (htag : isSingleName tag = true) :
    isRelative (tag ++ stagingSuffix) = true := by
  refine isRelative_of_descends (front_staging htag) ?_ (descends_staging htag).2
  by_cases hslash : '/' ∈ tag.toList
  · obtain ⟨name, last, -, hstaging⟩ := segments_of_slash htag hslash
    simp [hstaging]
  · simp [(segments_of_plain htag hslash).2]

/-! ## Paths -/

/-- A path leads from the root to the directory of a group, and on to something in it, by names
only. -/
def WithinGroup (root : String) (key : TagKey) (path : String) : Prop :=
  ∃ org group first rest, components key.org = [.name org] ∧ components key.group = [.name group] ∧
    components path = components root ++ (org :: group :: first :: rest).map Component.name

/-- The components of the directory of a group are those of the root, and the two names. -/
theorem components_groupDirectory (root : String) (horg : isSingleName key.org = true)
    (hgroup : isSingleName key.group = true) :
    components (groupDirectory root key.org key.group) =
      components root ++ components key.org ++ components key.group := by
  rw [groupDirectory, components_join _ (isRelative_of_isSingleName hgroup),
    components_join _ (isRelative_of_isSingleName horg)]

/-- What is inside of the directory of a group is so by names only. -/
theorem withinGroup_of_inside (horg : isSingleName key.org = true)
    (hgroup : isSingleName key.group = true)
    (h : Inside (groupDirectory root key.org key.group) path) : WithinGroup root key path := by
  obtain ⟨first, rest, hpath⟩ := h
  rw [components_groupDirectory root horg hgroup] at hpath
  obtain ⟨org, horg⟩ := isSingleName_iff.mp horg
  obtain ⟨group, hgroup⟩ := isSingleName_iff.mp hgroup
  refine ⟨org, group, first, rest, horg, hgroup, ?_⟩
  rw [hpath, horg, hgroup]
  simp

theorem WithinGroup.parent_not_mem (h : WithinGroup root key path) :
    Component.parent ∉ (components path).drop (components root).length := by
  obtain ⟨org, group, first, rest, -, -, hpath⟩ := h
  rw [hpath, List.drop_left]
  simp

/-- The staging directory is inside of the directory of the group, however the tag is written. -/
theorem inside_stagingDirectory (root : String) (htag : isSingleName key.tag = true) :
    Inside (groupDirectory root key.org key.group) (stagingDirectory root key) := by
  obtain ⟨name, hname⟩ := isSingleName_iff.mp htag
  have htarget : components (tagDirectory root key) =
      components (groupDirectory root key.org key.group) ++ [.name name] := by
    rw [tagDirectory, components_join _ (isRelative_of_isSingleName htag), hname]
  have hfileName : fileName? (tagDirectory root key) = some name := by
    rw [fileName?, htarget, List.getLast?_concat]
  obtain ⟨above, habove⟩ : ∃ above, parent? (tagDirectory root key) = some above := by
    obtain ⟨-, -, segment, hsegment, -⟩ := descends_of_isSingleName htag
    exact exists_parent (by simp [segments_tagDirectory htag, hsegment])
  obtain ⟨first, rest, hstaging⟩ := isRelative_iff.mp (isRelative_staging htag)
  refine ⟨first, rest, ?_⟩
  rw [stagingDirectory, withFileName, hfileName, habove]
  dsimp only [Option.getD_some]
  rw [components_join above (isRelative_staging htag), components_parent habove, htarget,
    List.dropLast_concat, hstaging]

/-! ## Records -/

section Records

variable {σ : Type} [Files (StateM σ)] {P : FileOperation → Prop}

theorem records_attempt {α : Type} {o : FileOperation} {action : StateM σ (Except FileFault α)}
    (ho : P o) (haction : ∀ s, (action.run s).2 = o.perform s) :
    Records P (attempt path (record o action)) (attempt path action) := by
  refine (Records.operation ho haction).bind fun r => ?_
  cases r with
  | ok a => exact .pure a
  | error fault => exact .mk (.error _)

theorem records_makeDirectory (h : Inside base path) :
    Records (σ := σ) (UsesInside base) (makeDirectory path) (makeDirectory path) :=
  records_attempt (o := .makeDirectories path) (List.forall_mem_singleton.mpr h) fun _ => rfl

theorem records_writeFile (h : Inside base path) :
    Records (σ := σ) (UsesInside base) (writeFile path text) (writeFile path text) :=
  records_attempt (o := .writeText path text) (List.forall_mem_singleton.mpr h) fun _ => rfl

theorem records_moveInto {newPath : String} (h : Inside base path) (h' : Inside base newPath) :
    Records (σ := σ) (UsesInside base) (moveInto path newPath) (moveInto path newPath) :=
  records_attempt (o := .rename path newPath)
    (List.forall_mem_cons.mpr ⟨h, List.forall_mem_singleton.mpr h'⟩) fun _ => rfl

theorem records_removeDirectory (h : Inside base path) :
    Records (σ := σ) (UsesInside base) (removeDirectory path) (removeDirectory path) := by
  refine (Records.operation (o := .removeTree path) (List.forall_mem_singleton.mpr h)
    fun _ => rfl).bind fun r => ?_
  split
  · exact .pure ()
  · exact .pure ()
  · exact .mk (.error _)

/-- The directory of a resource may be above what the resource is written to, but not above the
directory of resources. -/
theorem records_writeResource (h : Inside base directory) {entry : String × String}
    (hname : isRelative entry.1 = true) : Records (σ := σ) (UsesInside base)
      (writeResource directory entry) (writeResource directory entry) := by
  have hresources : Inside base (join directory resourcesDirectory) :=
    h.join (isRelative_of_isSingleName isSingleName_files.2.2.2)
  have hwrites : Records (σ := σ) (UsesInside base)
      (writeFile (join (join directory resourcesDirectory) entry.1) entry.2)
      (writeFile (join (join directory resourcesDirectory) entry.1) entry.2) :=
    records_writeFile (hresources.join hname)
  unfold writeResource
  dsimp only
  split
  · next above habove =>
    exact (records_makeDirectory (hresources.parent hname habove)).bind fun _ => hwrites
  · exact (Records.pure ()).bind fun _ => hwrites

theorem records_writePolicy (h : Inside base directory) {g : GeneratedPolicy}
    (hnames : ∀ name ∈ g.resources.keys, isRelative name = true) : Records (σ := σ)
      (UsesInside base) (writePolicy directory g) (writePolicy directory g) := by
  obtain ⟨-, hdefinition, hdependencies, -⟩ := isSingleName_files
  refine (records_makeDirectory h).bind fun _ => ?_
  refine (records_writeFile (h.join (isRelative_of_isSingleName hdefinition))).bind fun _ => ?_
  refine (records_writeFile (h.join (isRelative_of_isSingleName hdependencies))).bind fun _ => ?_
  exact Records.forM fun entry hentry =>
    records_writeResource h (hnames entry.1 (List.mem_map_of_mem hentry))

/-- A deployment whose names are safe removes the staging directory first. -/
theorem exists_deploy_eq_bind (root : String) (build : BuildId) (now : Instant)
    (h : HasSafeNames key policies) :
    ∃ (f : Unit → ExceptT BuildError (StateM (Recorded σ)) Manifest)
      (g : Unit → ExceptT BuildError (StateM σ) Manifest),
      deploy root key build now policies = removeDirectory (stagingDirectory root key) >>= f ∧
        deploy root key build now policies = removeDirectory (stagingDirectory root key) >>= g ∧
        ∀ a, Records (UsesInside (groupDirectory root key.org key.group)) (f a) (g a) := by
  have htarget : Inside (groupDirectory root key.org key.group) (tagDirectory root key) :=
    .of_isRelative _ (isRelative_of_isSingleName h.tag)
  have hstaging := inside_stagingDirectory root h.tag
  have hnames := checkNames_eq_ok_iff.mpr h
  refine ⟨_, _, by rw [deploy, hnames, mk_ok_bind], by rw [deploy, hnames, mk_ok_bind],
    fun _ => ?_⟩
  refine (records_makeDirectory hstaging).bind fun _ => ?_
  refine (Records.forM fun g hg => ?_).bind fun _ => ?_
  · exact records_writePolicy (hstaging.join (isRelative_of_isSingleName (h.policy g hg)))
      (h.resource g hg)
  refine (records_writeFile
    (hstaging.join (isRelative_of_isSingleName isSingleName_files.1))).bind fun _ => ?_
  refine (records_removeDirectory htarget).bind fun _ => ?_
  exact (records_moveInto hstaging htarget).bind fun _ => .pure _

theorem deploy_of_refused {e : BuildError} (h : checkNames key policies = .error e) :
    (deploy root key build now policies : ExceptT BuildError (StateM σ) Manifest) =
      ExceptT.mk (pure (.error e)) := by
  rw [deploy, h]
  rfl

/-- A deployment asks for operations only if its names are safe, and then inside of the directory
of its group. -/
theorem records_deploy (root : String) (key : TagKey) (build : BuildId) (now : Instant)
    (policies : List GeneratedPolicy) : Records (σ := σ)
      (fun o => HasSafeNames key policies ∧
        UsesInside (groupDirectory root key.org key.group) o)
      (deploy root key build now policies) (deploy root key build now policies) := by
  by_cases h : HasSafeNames key policies
  · obtain ⟨f, g, hf, hg, hrest⟩ := exists_deploy_eq_bind (σ := σ) root build now h
    rw [hf, hg]
    have hstaging := records_removeDirectory (σ := σ) (inside_stagingDirectory root h.tag)
    exact (hstaging.bind hrest).mono fun o ho => ⟨h, ho⟩
  · obtain ⟨reason, hreason⟩ := exists_checkNames_eq_error h
    rw [deploy_of_refused hreason, deploy_of_refused hreason]
    exact .mk _

theorem requests_removeDirectory (s : σ) :
    requests (removeDirectory path) s = [.removeTree path] := by
  have hrun : (Files.removeTree path : StateM (Recorded σ) _).run ⟨s, []⟩ =
      (((Files.removeTree path : StateM σ _).run s).1,
        ⟨((Files.removeTree path : StateM σ _).run s).2, [.removeTree path]⟩) := rfl
  rw [requests, removeDirectory, runIn_bind, runIn_lift, hrun]
  dsimp only
  split <;> rfl

/-- A deployment asks for nothing if and only if its names fail the checks. -/
theorem requests_deploy_eq_nil_iff (s : σ) :
    requests (deploy root key build now policies) s = [] ↔ ¬ HasSafeNames key policies := by
  constructor
  · intro hnone h
    obtain ⟨f, g, hf, -, hrest⟩ := exists_deploy_eq_bind (σ := σ) root build now h
    have hfirst := (records_removeDirectory (inside_stagingDirectory root h.tag)).requests_bind
      hrest s
    rw [← hf, hnone, requests_removeDirectory] at hfirst
    exact absurd (List.prefix_nil.mp hfirst) (List.cons_ne_nil _ _)
  · intro h
    obtain ⟨-, -, hsafe⟩ := (records_deploy root key build now policies).run_eq s
    exact List.eq_nil_iff_forall_not_mem.mpr fun o ho => h (hsafe o ho).1

end Records

/-! ## Confinement -/

/-- A deployment whose names fail the checks is refused and asks for nothing.  Whatever the files
answer, a deployment does what it asks for and nothing else, and all paths that it uses lead from
the root to the group and on by names.  So it has at no time changed anything in a file system that
is not inside of the directory of the group, but for that directory and those above it, which are
made where nothing was. -/
theorem deployment_confined (root : String) (key : TagKey) (build : BuildId) (now : Instant)
    (policies : List GeneratedPolicy) :
    (¬ HasSafeNames key policies → ∃ reason, ∀ (σ : Type) [Files (StateM σ)] (s : σ),
      runIn s (deploy root key build now policies) = (.error (.deployment key reason), s)) ∧
    (∀ (σ : Type) [Files (StateM σ)] (s : σ),
      requests (deploy root key build now policies) s = [] ↔ ¬ HasSafeNames key policies) ∧
    (∀ (σ : Type) [Files (StateM σ)] (s : σ),
      runIn (⟨s, []⟩ : Recorded σ) (deploy root key build now policies) =
          ((runIn s (deploy root key build now policies)).1,
            ⟨(runIn s (deploy root key build now policies)).2,
              requests (deploy root key build now policies) s⟩) ∧
        (runIn s (deploy root key build now policies)).2 =
          FileOperation.performAll s (requests (deploy root key build now policies) s) ∧
        ∀ o ∈ requests (deploy root key build now policies) s, ∀ path ∈ o.paths,
          WithinGroup root key path ∧
            Component.parent ∉ (components path).drop (components root).length) ∧
    ∀ (fs : FileSystem) (operations : List FileOperation),
      operations <+: requests (deploy root key build now policies) fs →
      Confined (fs.Below (groupDirectory root key.org key.group))
        (fs.OnWay (groupDirectory root key.org key.group)) fs
        (FileOperation.performAll fs operations) := by
  refine ⟨fun h => ?_, fun σ _ s => requests_deploy_eq_nil_iff s, fun σ _ s => ?_,
    fun fs operations hbefore => ?_⟩
  · obtain ⟨reason, hreason⟩ := exists_checkNames_eq_error h
    exact ⟨reason, fun σ _ s => by rw [deploy_of_refused hreason, runIn_mk]⟩
  · obtain ⟨hrun, hstate, hsafe⟩ := (records_deploy root key build now policies).run_eq s
    refine ⟨hrun, hstate, fun o ho path hpath => ?_⟩
    obtain ⟨hnames, hinside⟩ := hsafe o ho
    have hwithin := withinGroup_of_inside hnames.org hnames.group (hinside path hpath)
    exact ⟨hwithin, hwithin.parent_not_mem⟩
  · obtain ⟨-, -, hsafe⟩ := (records_deploy root key build now policies).run_eq fs
    exact confined_performAll fun o ho => (hsafe o (hbefore.subset ho)).2

theorem deployment_confined_escaping :
    (∃ reason, runIn deployedBefore
        (deploy "out" ⟨"acme", "g", "v1"⟩ "b1" .epoch (policyWith ["../../escape"])) =
      (.error (.deployment ⟨"acme", "g", "v1"⟩ reason), deployedBefore)) ∧
    requests (deploy "out" ⟨"acme", "g", "v1"⟩ "b1" .epoch (policyWith ["../../escape"]))
      deployedBefore = [] ∧
    FileOperation.rename "out/acme/g/v1.staging" "out/acme/g/v1" ∈
      requests (deploy "out" ⟨"acme", "g", "v1"⟩ "b1" .epoch (policyWith ["a/b"]))
        deployedBefore ∧
    WithinGroup "out" ⟨"acme", "g", "v1"⟩ "out/acme/g/v1.staging" ∧
    Confined (deployedBefore.Below (groupDirectory "out" "acme" "g"))
      (deployedBefore.OnWay (groupDirectory "out" "acme" "g")) deployedBefore
      (runIn deployedBefore
        (deploy "out" ⟨"acme", "g", "v1"⟩ "b1" .epoch (policyWith ["a/b"]))).2 := by
  have hunsafe : ¬ HasSafeNames ⟨"acme", "g", "v1"⟩ (policyWith ["../../escape"]) := by
    intro hsafe
    have hname := hsafe.resource _ List.mem_cons_self "../../escape" (by decide)
    exact absurd hname (by decide)
  have hmoved : FileOperation.rename "out/acme/g/v1.staging" "out/acme/g/v1" ∈
      requests (deploy "out" ⟨"acme", "g", "v1"⟩ "b1" .epoch (policyWith ["a/b"]))
        deployedBefore := by
    decide +kernel
  obtain ⟨hrefused, hnothing, -⟩ := deployment_confined "out" ⟨"acme", "g", "v1"⟩ "b1" .epoch
    (policyWith ["../../escape"])
  obtain ⟨-, -, hpaths, hchanges⟩ := deployment_confined "out" ⟨"acme", "g", "v1"⟩ "b1" .epoch
    (policyWith ["a/b"])
  obtain ⟨reason, hreason⟩ := hrefused hunsafe
  obtain ⟨-, hstate, hwithin⟩ := hpaths FileSystem deployedBefore
  refine ⟨⟨reason, hreason FileSystem deployedBefore⟩,
    (hnothing FileSystem deployedBefore).mpr hunsafe, hmoved, ?_, ?_⟩
  · exact (hwithin _ hmoved _ List.mem_cons_self).1
  · rw [hstate]
    exact hchanges deployedBefore _ List.prefix_rfl

end RouteCompiler.Deployment
