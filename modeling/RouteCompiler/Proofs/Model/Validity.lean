import RouteCompiler.Model.Snapshot
import RouteCompiler.Proofs.Model.Names
import RouteCompiler.Proofs.Outcome

/-!
# Valid snapshots

Validation lists the failures of a snapshot, and a second check stops at the first
conflict of resources.  Generation checks the snapshot once more, in its own order,
and then looks up what it needs.  This module shows that a snapshot without failures
passes that check, and that every look-up in it succeeds.

Main definitions:

- `Snapshot.IsValid`: what generation relies on.
- `Snapshot.IsCoherent`: the part of it that the check of generation looks at, and that policy
  names are unique.

Main results:

- Theorem `isValid_of_validate`: a snapshot without failures is valid.
- Theorem `IsCoherent.checkConsistency_eq`: of a coherent snapshot the check of generation
  looks at the resources only.
- Theorem `exists_resourceContents`: every resource of its policies has content.
-/

namespace RouteCompiler

/-! ## Lists of failures -/

/-- Where a list has no failure, no item of it has one, seen with those before it. -/
theorem check_eq_nil_of_failuresOfItems {α : Type} {check : Nat → List α → α → List Failure}
    {earlier before behind : List α} {a : α}
    (h : failuresOfItems check earlier (before ++ a :: behind) = []) :
    check (earlier ++ before).length (earlier ++ before) a = [] := by
  induction before generalizing earlier with
  | nil =>
      simp only [List.nil_append, failuresOfItems, List.append_eq_nil_iff] at h
      simpa using h.1
  | cons b before ih =>
      simp only [List.cons_append, failuresOfItems, List.append_eq_nil_iff] at h
      simpa using ih h.2

/-- Where a list has no failure, and every item is compared with those before it, names
are unique. -/
theorem nodup_of_failuresOfItems {α : Type} {name : α → String}
    {check : Nat → List α → α → List Failure} {l : List α}
    (hcheck : ∀ i earlier a, check i earlier a = [] → name a ∉ earlier.map name)
    (h : failuresOfItems check [] l = []) : (l.map name).Nodup := by
  refine Names.nodup_of_split fun before a behind hl => ?_
  rw [hl] at h
  simpa using hcheck _ _ _ (check_eq_nil_of_failuresOfItems h)

/-- Where a list has no failure, what the check of an item ensures holds of all items. -/
theorem forall_of_failuresOfItems {α : Type} {P : α → Prop}
    {check : Nat → List α → α → List Failure} {l : List α}
    (hcheck : ∀ i earlier a, check i earlier a = [] → P a)
    (h : failuresOfItems check [] l = []) : ∀ a ∈ l, P a := by
  intro a ha
  obtain ⟨before, behind, rfl⟩ := List.append_of_mem ha
  exact hcheck _ _ _ (check_eq_nil_of_failuresOfItems h)

/-! ## Parts of a snapshot -/

/-- An endpoint without failures has a physical URI. -/
theorem Endpoint.isLogical_of_validate {e : Endpoint} (h : e.validate = []) :
    Uri.isLogical e.uri = false := by
  simp only [validate, List.append_eq_nil_iff] at h
  obtain ⟨⟨⟨-, huri⟩, -⟩, -⟩ := h
  split at huri
  · cases huri
  · split at huri
    · cases huri
    · next hphysical => simpa using hphysical

namespace Snapshot

variable {s : Snapshot}

/-- What generation relies on: unique names, physical endpoints, and a definition for
every policy. -/
structure IsValid (s : Snapshot) : Prop where
  endpointNames : (s.group.endpoints.map Endpoint.name).Nodup
  physical : ∀ e ∈ s.group.endpoints, Uri.isLogical e.uri = false
  policyNames : (s.policies.map Policy.name).Nodup
  definitions : ∀ p ∈ s.policies, (s.definition? p.name).isSome

/-- Names are unique, and every policy has a definition. -/
structure IsCoherent (s : Snapshot) : Prop where
  endpointNames : (s.group.endpoints.map Endpoint.name).Nodup
  policyNames : (s.policies.map Policy.name).Nodup
  definitions : ∀ p ∈ s.policies, (s.definition? p.name).isSome

theorem IsValid.isCoherent (h : s.IsValid) : s.IsCoherent :=
  ⟨h.endpointNames, h.policyNames, h.definitions⟩

/-- A snapshot without failures is valid. -/
theorem isValid_of_validate (h : s.validate = []) : s.IsValid := by
  simp only [validate, Group.validate, List.append_eq_nil_iff, List.map_eq_nil_iff] at h
  obtain ⟨⟨-, hendpoints⟩, hpolicies⟩ := h
  refine ⟨?_, ?_, ?_, ?_⟩
  · refine nodup_of_failuresOfItems (fun i earlier e hcheck => ?_) hendpoints
    simp only [Group.validateEndpoint, List.append_eq_nil_iff] at hcheck
    simpa using hcheck.2
  · refine forall_of_failuresOfItems (fun i earlier e hcheck => ?_) hendpoints
    simp only [Group.validateEndpoint, List.append_eq_nil_iff, List.map_eq_nil_iff] at hcheck
    exact Endpoint.isLogical_of_validate hcheck.1
  · refine nodup_of_failuresOfItems (fun i earlier p hcheck => ?_) hpolicies
    simp only [validatePolicy, List.append_eq_nil_iff] at hcheck
    simpa using hcheck.1.2
  · refine forall_of_failuresOfItems (fun i earlier p hcheck => ?_) hpolicies
    simp only [validatePolicy, List.append_eq_nil_iff] at hcheck
    cases hdefinition : s.definition? p.name with
    | none => simp [hdefinition] at hcheck
    | some definition => rfl

/-! ## The check of generation -/

/-- Where names are unique, no endpoint repeats a name. -/
theorem repeatedEndpoint_eq_none {earlier : List String} {es : List Endpoint}
    (h : (earlier ++ es.map Endpoint.name).Nodup) : repeatedEndpoint? earlier es = none := by
  induction es generalizing earlier with
  | nil => rfl
  | cons e es ih =>
      have hnew : e.name ∉ earlier := by
        intro he
        exact List.disjoint_of_nodup_append h he (by simp)
      rw [repeatedEndpoint?, if_neg (by simpa using hnew)]
      exact ih (by simpa using h)

/-- Of a coherent snapshot the check of generation looks at the resources only. -/
theorem IsCoherent.checkConsistency_eq (h : s.IsCoherent) :
    s.checkConsistency = s.validateResources := by
  have hdefinitions : s.policies.find? (fun p => (s.definition? p.name).isNone) = none := by
    refine List.find?_eq_none.mpr fun p hp => ?_
    simpa [Option.isSome_iff_ne_none] using h.definitions p hp
  rw [checkConsistency, repeatedEndpoint_eq_none (by simpa using h.endpointNames), hdefinitions]

/-- A valid snapshot with consistent resources passes the check of generation. -/
theorem IsValid.checkConsistency_eq_ok (h : s.IsValid) (hresources : s.validateResources = .ok ()) :
    s.checkConsistency = .ok () := by
  rw [h.isCoherent.checkConsistency_eq, hresources]

/-- A use that was checked has content. -/
theorem exists_content_of_checkUses {earlier : List ResourceUse} {uses : List (String × String)}
    (h : s.checkUses earlier uses = .ok ()) :
    ∀ use ∈ uses, ∃ content, s.contentOf use.1 use.2 = .ok content := by
  induction uses generalizing earlier with
  | nil => simp
  | cons use uses ih =>
      obtain ⟨policy, resource⟩ := use
      obtain ⟨content, hcontent, hrest⟩ := Outcome.of_bind_eq_ok h
      obtain ⟨-, -, hlast⟩ := Outcome.of_bind_eq_ok hrest
      intro other hother
      rcases List.mem_cons.mp hother with rfl | hother
      · exact ⟨content, hcontent⟩
      · exact ih hlast other hother

/-- Where resources are consistent, every resource of a policy has content. -/
theorem exists_resourceContents (h : s.validateResources = .ok ()) {p : Policy}
    (hp : p ∈ s.policies) : ∃ contents, s.resourceContents p = .ok contents := by
  have hcontents : ∀ r ∈ p.resources, ∃ entry,
      (do let content ← s.contentOf p.name r.name
          return (r.name, content) : Except ModelError (String × String)) = .ok entry := by
    intro r hr
    have huse : (p.name, r.name) ∈ s.resourceUses :=
      List.mem_flatMap.mpr ⟨p, hp, List.mem_map_of_mem hr⟩
    obtain ⟨content, hcontent⟩ := exists_content_of_checkUses h _ huse
    exact ⟨(r.name, content), by rw [hcontent]; rfl⟩
  obtain ⟨entries, hentries⟩ := Outcome.exists_mapM_eq_ok hcontents
  exact ⟨.ofList entries, by rw [resourceContents, hentries]; rfl⟩

/-- A policy of a valid snapshot is found under its name. -/
theorem IsValid.policy_eq_some (h : s.IsValid) {p : Policy} (hp : p ∈ s.policies) :
    s.policy? p.name = some p :=
  (Names.find_eq_some_iff h.policyNames).mpr ⟨hp, rfl⟩

end Snapshot

end RouteCompiler
