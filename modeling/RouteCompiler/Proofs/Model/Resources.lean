import RouteCompiler.Model.Snapshot
import RouteCompiler.Proofs.Outcome

/-!
# Resources that agree

Policies of one snapshot may reference resources of one name.  The check of a snapshot goes
through all references in order and compares the content of each with that of the first
reference of the same name.  Agreement carries over from there to any two references, so the
check decides whether all of them agree.

Main definitions:

- `Snapshot.ResourcesAgree`: every reference has content, and any two of one name have the same.
- `Snapshot.ResourceFault`: what an error of the check says about the snapshot.

Main results:

- Lemma `checkUses_eq_ok_iff`: which uses pass, behind some that agree.
- Lemma `checkUses_eq_error`: which use does not pass, and what is wrong with it.
- Theorem `resources_decided`: the check succeeds exactly if resources agree, and each of its
  errors names a fault.
-/

namespace RouteCompiler.Snapshot

variable {s : Snapshot} {earlier later : List ResourceUse} {use : ResourceUse}
  {uses : List (String × String)} {e : ModelError} {p : Policy} {resource : String}

/-! ## What the check decides -/

/-- A policy of a snapshot references a resource. -/
structure References (s : Snapshot) (p : Policy) (resource : String) : Prop where
  mem : p ∈ s.policies
  names : resource ∈ p.resources.map Resource.name

/-- Every reference to a resource has content, and any two references of one name, in whatever
policies, have the same content. -/
structure ResourcesAgree (s : Snapshot) : Prop where
  content : ∀ p resource, s.References p resource → (s.content? p.name resource).isSome
  agree : ∀ p q resource, s.References p resource → s.References q resource →
    s.content? p.name resource = s.content? q.name resource

/-- What is wrong with the resources of a snapshot. -/
inductive ResourceFault (s : Snapshot) : ModelError → Prop
  /-- A policy references a resource without content. -/
  | missing {p : Policy} {resource : String} (hreferences : s.References p resource)
      (hmissing : s.content? p.name resource = none) :
      ResourceFault s (.missingResource p.name resource)
  /-- Two policies reference a resource with different contents, and no policy before the
  first one references it. -/
  | conflict {before behind : List Policy} {first second : Policy} {resource a b : String}
      (hpolicies : s.policies = before ++ first :: behind)
      (hearliest : ∀ p ∈ before, ¬ s.References p resource)
      (hfirst : s.References first resource) (hsecond : s.References second resource)
      (ha : s.content? first.name resource = some a)
      (hb : s.content? second.name resource = some b) (hne : a ≠ b) :
      ResourceFault s (.resourceConflict resource first.name second.name)

/-! ## Uses that were recorded -/

/-- Where a use stands. -/
def ResourceUse.place (use : ResourceUse) : String × String :=
  (use.policy, use.resource)

/-- Uses are recorded with the content that the snapshot has for them. -/
def Recorded (s : Snapshot) (uses : List ResourceUse) : Prop :=
  ∀ use ∈ uses, s.content? use.policy use.resource = some use.content

/-- Any two uses of one resource have the same content. -/
def Agreeing (uses : List ResourceUse) : Prop :=
  ∀ u ∈ uses, ∀ v ∈ uses, u.resource = v.resource → u.content = v.content

theorem contentOf_eq_ok {policy content : String} :
    s.contentOf policy resource = .ok content ↔ s.content? policy resource = some content := by
  rw [contentOf]
  cases s.content? policy resource <;> simp

theorem contentOf_eq_error {policy : String} (h : s.contentOf policy resource = .error e) :
    s.content? policy resource = none ∧ e = .missingResource policy resource := by
  rw [contentOf] at h
  cases hcontent : s.content? policy resource with
  | some content => simp [hcontent] at h
  | none => simpa [hcontent, eq_comm] using h

/-- The references of a snapshot are its uses. -/
theorem mem_resourceUses {policy : String} :
    (policy, resource) ∈ s.resourceUses ↔ ∃ p, s.References p resource ∧ p.name = policy := by
  simp only [resourceUses, List.mem_flatMap, List.mem_map, Prod.mk.injEq]
  constructor
  · rintro ⟨p, hp, r, hr, hname, rfl⟩
    exact ⟨p, ⟨hp, List.mem_map_of_mem hr⟩, hname⟩
  · rintro ⟨p, ⟨hp, hresource⟩, hname⟩
    obtain ⟨r, hr, rfl⟩ := List.mem_map.mp hresource
    exact ⟨p, hp, r, hr, hname, rfl⟩

/-! ## The check -/

/-- A use that is compared with the first one of its resource is compared with all, as long as
those agree. -/
theorem checkUse_eq_ok_iff (h : Agreeing earlier) :
    checkUse earlier use = .ok () ↔ Agreeing (earlier ++ [use]) := by
  have hnew : Agreeing (earlier ++ [use]) ↔
      ∀ u ∈ earlier, u.resource = use.resource → u.content = use.content := by
    constructor
    · intro hall u hu
      exact hall u (by simp [hu]) use (by simp)
    · intro hall u hu v hv hresource
      rcases List.mem_append.mp hu with hu | hu <;> rcases List.mem_append.mp hv with hv | hv
      · exact h u hu v hv hresource
      · rw [List.mem_singleton.mp hv] at hresource ⊢
        exact hall u hu hresource
      · rw [List.mem_singleton.mp hu] at hresource ⊢
        exact (hall v hv hresource.symm).symm
      · rw [List.mem_singleton.mp hu, List.mem_singleton.mp hv]
  rw [hnew, checkUse]
  split
  · next first hfound =>
    have hmem : first ∈ earlier := List.mem_of_find?_eq_some hfound
    have hresource : first.resource = use.resource := by simpa using List.find?_some hfound
    split
    · next hcontent =>
      refine iff_of_true rfl fun u hu hu' => ?_
      rw [h u hu first hmem (hu'.trans hresource.symm), hcontent]
    · next hcontent =>
      exact iff_of_false nofun fun hall => hcontent (hall first hmem hresource)
  · next hnone =>
    refine iff_of_true rfl fun u hu hu' => ?_
    have hother := List.find?_eq_none.mp hnone u hu
    exact absurd (beq_iff_eq.mpr hu') hother

/-- Behind uses that agree, those pass that have content and agree with one another and with
the earlier ones. -/
theorem checkUses_eq_ok_iff (h : Agreeing earlier) :
    s.checkUses earlier uses = .ok () ↔
      ∃ later, later.map ResourceUse.place = uses ∧ s.Recorded later ∧
        Agreeing (earlier ++ later) := by
  induction uses generalizing earlier with
  | nil =>
      rw [checkUses]
      refine iff_of_true rfl ⟨[], rfl, by simp [Recorded], ?_⟩
      rwa [List.append_nil]
  | cons use uses ih =>
      obtain ⟨policy, resource⟩ := use
      constructor
      · intro hcheck
        obtain ⟨content, hcontent, hrest⟩ := Outcome.of_bind_eq_ok hcheck
        obtain ⟨⟨⟩, hfirst, hlast⟩ := Outcome.of_bind_eq_ok hrest
        obtain ⟨later, rfl, hrecorded, hagree⟩ := (ih ((checkUse_eq_ok_iff h).mp hfirst)).mp hlast
        refine ⟨⟨policy, resource, content⟩ :: later, rfl, ?_, by simpa using hagree⟩
        exact List.forall_mem_cons.mpr ⟨contentOf_eq_ok.mp hcontent, hrecorded⟩
      · rintro ⟨later, hplaces, hrecorded, hagree⟩
        obtain ⟨use, later, rfl, hplace, rfl⟩ := List.map_eq_cons_iff.mp hplaces
        obtain ⟨hcontent, hrecorded⟩ := List.forall_mem_cons.mp hrecorded
        obtain ⟨rfl, rfl⟩ := Prod.mk.inj hplace
        have hagree' : Agreeing ((earlier ++ [use]) ++ later) := by simpa using hagree
        have hfirst : Agreeing (earlier ++ [use]) := fun u hu v hv =>
          hagree' u (List.mem_append_left _ hu) v (List.mem_append_left _ hv)
        have hpass : checkUse earlier use = .ok () := (checkUse_eq_ok_iff h).mpr hfirst
        rw [checkUses, contentOf_eq_ok.mpr hcontent, Outcome.ok_bind]
        change (checkUse earlier use >>= fun _ => _) = _
        rw [hpass, Outcome.ok_bind]
        exact (ih hfirst).mpr ⟨later, rfl, hrecorded, hagree'⟩

/-- What is wrong with a use, given the uses before it. -/
inductive UseFault (s : Snapshot) (earlier : List ResourceUse) (policy resource : String) :
    ModelError → Prop
  | missing (hmissing : s.content? policy resource = none) :
      UseFault s earlier policy resource (.missingResource policy resource)
  | conflict {first : ResourceUse} {content : String}
      (hfirst : earlier.find? (fun u => u.resource == resource) = some first)
      (hcontent : s.content? policy resource = some content) (hne : first.content ≠ content) :
      UseFault s earlier policy resource (.resourceConflict resource first.policy policy)

theorem checkUse_eq_error (h : checkUse earlier use = .error e)
    (hcontent : s.content? use.policy use.resource = some use.content) :
    s.UseFault earlier use.policy use.resource e := by
  rw [checkUse] at h
  split at h
  · next first hfirst =>
    split at h
    · cases h
    · next hne =>
      rw [← Except.error.inj h]
      exact .conflict hfirst hcontent hne
  · cases h

/-- An error is due to one of the uses, and those before it were recorded. -/
theorem checkUses_eq_error (h : s.checkUses earlier uses = .error e) :
    ∃ passed policy resource behind,
      uses = passed.map ResourceUse.place ++ (policy, resource) :: behind ∧ s.Recorded passed ∧
        s.UseFault (earlier ++ passed) policy resource e := by
  induction uses generalizing earlier with
  | nil => cases h
  | cons use uses ih =>
      obtain ⟨policy, resource⟩ := use
      rcases Outcome.of_bind_eq_error h with hmissing | ⟨content, hcontent, hrest⟩
      · obtain ⟨hnone, rfl⟩ := contentOf_eq_error hmissing
        exact ⟨[], policy, resource, uses, rfl, by simp [Recorded], .missing hnone⟩
      · rw [contentOf_eq_ok] at hcontent
        rcases Outcome.of_bind_eq_error hrest with hconflict | ⟨-, -, hlast⟩
        · refine ⟨[], policy, resource, uses, rfl, by simp [Recorded], ?_⟩
          rw [List.append_nil]
          exact checkUse_eq_error hconflict hcontent
        · obtain ⟨passed, policy', resource', behind, rfl, hrecorded, hfault⟩ := ih hlast
          refine ⟨⟨policy, resource, content⟩ :: passed, policy', resource', behind, rfl, ?_, ?_⟩
          · exact List.forall_mem_cons.mpr ⟨hcontent, hrecorded⟩
          · simpa using hfault

/-! ## The verdict on a snapshot -/

/-- Uses of the snapshot that are recorded are those of its references. -/
theorem resourcesAgree_iff :
    s.ResourcesAgree ↔
      ∃ uses, uses.map ResourceUse.place = s.resourceUses ∧ s.Recorded uses ∧ Agreeing uses := by
  constructor
  · intro h
    refine ⟨s.resourceUses.map fun use => ⟨use.1, use.2, (s.content? use.1 use.2).getD ""⟩,
      by simp [Function.comp_def, ResourceUse.place], ?_, ?_⟩
    · intro use huse
      obtain ⟨⟨policy, resource⟩, hplace, rfl⟩ := List.mem_map.mp huse
      obtain ⟨p, hreferences, rfl⟩ := mem_resourceUses.mp hplace
      obtain ⟨content, hcontent⟩ := Option.isSome_iff_exists.mp (h.content p resource hreferences)
      simp [hcontent]
    · intro u hu v hv hresource
      obtain ⟨⟨policy, resource⟩, hplace, rfl⟩ := List.mem_map.mp hu
      obtain ⟨⟨policy', resource'⟩, hplace', rfl⟩ := List.mem_map.mp hv
      obtain ⟨p, hreferences, rfl⟩ := mem_resourceUses.mp hplace
      obtain ⟨q, hreferences', rfl⟩ := mem_resourceUses.mp hplace'
      obtain rfl : resource = resource' := hresource
      simp only [h.agree p q resource hreferences hreferences']
  · rintro ⟨uses, hplaces, hrecorded, hagree⟩
    have hrecord : ∀ p resource, s.References p resource →
        ∃ use ∈ uses, use.resource = resource ∧ s.content? p.name resource = some use.content := by
      intro p resource hreferences
      have hplace : (p.name, resource) ∈ uses.map ResourceUse.place := by
        rw [hplaces]
        exact mem_resourceUses.mpr ⟨p, hreferences, rfl⟩
      obtain ⟨use, huse, heq⟩ := List.mem_map.mp hplace
      obtain ⟨hpolicy, hresource⟩ := Prod.mk.inj heq
      refine ⟨use, huse, hresource, ?_⟩
      rw [← hpolicy, ← hresource]
      exact hrecorded use huse
    constructor
    · intro p resource hreferences
      obtain ⟨use, -, -, hcontent⟩ := hrecord p resource hreferences
      rw [hcontent]
      rfl
    · intro p q resource hreferences hreferences'
      obtain ⟨u, hu, hresource, hcontent⟩ := hrecord p resource hreferences
      obtain ⟨v, hv, hresource', hcontent'⟩ := hrecord q resource hreferences'
      rw [hcontent, hcontent', hagree u hu v hv (hresource.trans hresource'.symm)]

/-- The first use of a resource is that of the earliest policy that references it. -/
theorem exists_earliest {use : String × String}
    (h : s.resourceUses.find? (fun use => use.2 == resource) = some use) :
    ∃ before first behind, s.policies = before ++ first :: behind ∧ first.name = use.1 ∧
      s.References first resource ∧ ∀ p ∈ before, ¬ s.References p resource := by
  rw [resourceUses, List.find?_flatMap] at h
  obtain ⟨before, first, behind, hpolicies, hfirst, hbefore⟩ := List.findSome?_eq_some_iff.mp h
  refine ⟨before, first, behind, hpolicies, ?_, ⟨?_, ?_⟩, ?_⟩
  · obtain ⟨r, -, rfl⟩ := List.mem_map.mp (List.mem_of_find?_eq_some hfirst)
    rfl
  · rw [hpolicies]
    simp
  · obtain ⟨r, hr, rfl⟩ := List.mem_map.mp (List.mem_of_find?_eq_some hfirst)
    have hname : r.name = resource := by simpa using List.find?_some hfirst
    exact hname ▸ List.mem_map_of_mem hr
  · rintro p hp ⟨-, hnames⟩
    obtain ⟨r, hr, rfl⟩ := List.mem_map.mp hnames
    have hother := List.find?_eq_none.mp (hbefore p hp) _ (List.mem_map_of_mem hr)
    simp at hother

/-- An error of the check names what is wrong. -/
theorem resourceFault_of_error (h : s.validateResources = .error e) : s.ResourceFault e := by
  obtain ⟨passed, policy, resource, behind, huses, hrecorded, hfault⟩ := checkUses_eq_error h
  rw [List.nil_append] at hfault
  have hplace : (policy, resource) ∈ s.resourceUses := by simp [huses]
  obtain ⟨second, hsecond, rfl⟩ := mem_resourceUses.mp hplace
  cases hfault with
  | missing hmissing => exact .missing hsecond hmissing
  | @conflict firstUse content hfound hcontent hne =>
      have hresource : firstUse.resource = resource := by simpa using List.find?_some hfound
      have hearliest : s.resourceUses.find? (fun use => use.2 == resource) =
          some firstUse.place := by
        have hpassed : (passed.map ResourceUse.place).find? (fun use => use.2 == resource) =
            some firstUse.place := by
          rw [List.find?_map]
          exact congrArg (Option.map ResourceUse.place) hfound
        rw [huses, List.find?_append, hpassed, Option.some_or]
      obtain ⟨before, first, behind', hpolicies, hname, hfirst, hbefore⟩ :=
        exists_earliest hearliest
      have hfirstContent : s.content? first.name resource = some firstUse.content := by
        rw [hname, ← hresource]
        exact hrecorded firstUse (List.mem_of_find?_eq_some hfound)
      have hpolicy : firstUse.policy = first.name := hname.symm
      rw [hpolicy]
      exact .conflict hpolicies hbefore hfirst hsecond hfirstContent hcontent hne

/-- The check of a snapshot decides whether its resources agree, and an error names what is
wrong: a policy that references a resource without content, or two that reference one with
different contents, the first of them before all others that reference it. -/
theorem resources_decided (s : Snapshot) :
    (s.validateResources = .ok () ↔ s.ResourcesAgree) ∧
      ∀ e, s.validateResources = .error e → s.ResourceFault e := by
  refine ⟨?_, fun e h => resourceFault_of_error h⟩
  have hnone : Agreeing [] := fun u hu => nomatch hu
  rw [validateResources, checkUses_eq_ok_iff hnone, resourcesAgree_iff]
  rfl

/-- Three policies with one resource, the last of which has another content. -/
def disputedSnapshot : Snapshot where
  group := { name := "g" }
  policies := [{ name := "a" }, { name := "b", resources := [{ name := "r" }] },
    { name := "c", resources := [{ name := "r" }] },
    { name := "d", resources := [{ name := "q" }, { name := "r" }] }]
  resources := .ofList [("b", .ofList [("r", "1")]), ("c", .ofList [("r", "1")]),
    ("d", .ofList [("q", "1"), ("r", "2")])]

/-- The last policy is in conflict with the first that references the resource. -/
theorem resources_decided_disputed :
    disputedSnapshot.validateResources = .error (.resourceConflict "r" "b" "d") ∧
      disputedSnapshot.ResourceFault (.resourceConflict "r" "b" "d") := by
  have hconflict : disputedSnapshot.validateResources =
      .error (.resourceConflict "r" "b" "d") := by
    rfl
  exact ⟨hconflict, (resources_decided disputedSnapshot).2 _ hconflict⟩

end RouteCompiler.Snapshot
