import RouteCompiler.Proofs.Generation.Resolving
import RouteCompiler.Proofs.Model.Query
import RouteCompiler.Proofs.Model.Resources

/-!
# What an error of generation names

A policy that cannot be generated ends in one error.  Either the policy is at fault: a resource
has no content, the definition is no document, a marker has no URI, or a reference leads
nowhere.  Or a reference leads to an endpoint that is at fault: its own URI is logical, or a
setting with which it asks for batching cannot be used.

The error of a policy names it, whether it was raised where the name is known or was given the
name later.  The error of an endpoint has no place for the name of a policy, so giving it one
changes nothing, and the issue made of it does not tell which policy could not be generated.

Main definitions:

- `GenerationError.LiesInPolicy`: the errors of a policy.
- `GenerationError.LiesInEndpoint`: the errors of the endpoints that its references lead to.

Main results:

- Lemma `exists_of_resolveElement_eq_error`: how resolving a logical reference fails.
- Lemma `exists_of_resolveKinds_eq_error`: where an error of the loops over the markers comes
  from.
- Theorem `policy_of_issue`: which errors name their policy.
-/

namespace RouteCompiler

open RouteCompiler.Route

/-! ## Errors and what they lie in -/

namespace GenerationError

/-- The errors that lie in a policy and its route definition. -/
inductive LiesInPolicy (s : Snapshot) (policy : Policy) : GenerationError → Prop
  /-- A resource of the policy has no content. -/
  | missingResource {r : Resource} (hr : r ∈ policy.resources)
      (h : s.content? policy.name r.name = none) :
      LiesInPolicy s policy (.model (.missingResource policy.name r.name))
  /-- The definition is no document. -/
  | malformed (message : String) : LiesInPolicy s policy (.malformed policy.name message)
  /-- A marker has no URI. -/
  | missingUri (m : Marker) : LiesInPolicy s policy (.missingUri policy.name m.tagName)
  /-- A reference leads nowhere. -/
  | unknownEndpoint {name : String} (h : s.endpoint? name = none) :
      LiesInPolicy s policy (.unknownEndpoint policy.name name)

/-- The errors that lie in a setting of the batching characteristic: its value, or the default,
is no positive number. -/
inductive LiesInSetting (e : Endpoint) (c : Characteristic) : GenerationError → Prop
  | unusable {property value : String}
      (hproperty : property ∈ BatchRetry.kind.properties.map PropertyDescriptor.name)
      (hvalue : (BatchRetry.kind.valueOf c property).getD "" = value)
      (h : CharacteristicKind.positive? value = none) :
      LiesInSetting e c (.invalidProperty e.name property value)

/-- The errors that lie in an endpoint of a snapshot. -/
inductive LiesInEndpoint (s : Snapshot) : GenerationError → Prop
  /-- The endpoint leads to another reference. -/
  | logical {e : Endpoint} (he : e ∈ s.group.endpoints) (h : Uri.isLogical e.uri = true) :
      LiesInEndpoint s (.model (.invalidInput
        s!"endpoint '{e.name}' resolves to another logical reference"))
  /-- A setting of the endpoint cannot be used. -/
  | setting {e : Endpoint} (he : e ∈ s.group.endpoints) {c : Characteristic}
      (hc : c ∈ e.batching) {fault : GenerationError} (h : fault.LiesInSetting e c) :
      LiesInEndpoint s fault

variable {s : Snapshot} {policy : Policy} {fault : GenerationError}

/-- The issue of an error that lies in a policy names it. -/
theorem LiesInPolicy.policy_toIssue (h : fault.LiesInPolicy s policy) :
    fault.toIssue.policy = some policy.name := by
  cases h with
  | missingResource hr h => rfl
  | malformed message => rfl
  | missingUri m => rfl
  | unknownEndpoint h => rfl

/-- The issue of an error that lies in an endpoint names no policy. -/
theorem LiesInEndpoint.policy_toIssue (h : fault.LiesInEndpoint s) :
    fault.toIssue.policy = none := by
  cases h with
  | logical he h => rfl
  | setting he hc h =>
      cases h with
      | unusable hproperty hvalue h => rfl

/-- There is no place for the name of a policy in an error that lies in an endpoint. -/
theorem LiesInEndpoint.inPolicy_eq (h : fault.LiesInEndpoint s) (name : String) :
    fault.inPolicy name = fault := by
  cases h with
  | logical he h => rfl
  | setting he hc h =>
      cases h with
      | unusable hproperty hvalue h => rfl

end GenerationError

/-! ## Batching -/

/-- A setting that cannot be used is reported with its endpoint and its value. -/
theorem positiveValue_eq_error {kind : CharacteristicKind} {e : Endpoint} {c : Characteristic}
    {property : String} {fault : GenerationError}
    (h : kind.positiveValue e c property = .error fault) :
    ∃ value, (kind.valueOf c property).getD "" = value ∧
      CharacteristicKind.positive? value = none ∧
        fault = .invalidProperty e.name property value := by
  rw [CharacteristicKind.positiveValue] at h
  split at h
  · cases h
  · next hnone => exact ⟨_, rfl, hnone, (Except.error.inj h).symm⟩

theorem liesInSetting_of_positiveValue {e : Endpoint} {c : Characteristic} {property : String}
    {fault : GenerationError}
    (hproperty : property ∈ BatchRetry.kind.properties.map PropertyDescriptor.name)
    (h : BatchRetry.kind.positiveValue e c property = .error fault) :
    fault.LiesInSetting e c := by
  obtain ⟨value, hvalue, hnone, rfl⟩ := positiveValue_eq_error h
  exact .unusable hproperty hvalue hnone

/-- Batching fails only for a setting that cannot be used. -/
theorem process_eq_error {r : Reference} {d : Document} {x : NodeId} {fault : GenerationError}
    (h : BatchRetry.process r d x = .error fault) :
    fault.LiesInSetting r.endpoint r.characteristic := by
  rw [BatchRetry.process] at h
  split at h
  · rcases Outcome.of_bind_eq_error h with hsize | ⟨size, -, hrest⟩
    · exact liesInSetting_of_positiveValue (by decide) hsize
    · rcases Outcome.of_bind_eq_error hrest with hinterval | ⟨interval, -, hlast⟩
      · exact liesInSetting_of_positiveValue (by decide) hinterval
      · cases hlast
  · rw [BatchRetry.processConsumer] at h
    split at h
    · cases h
    · rcases Outcome.of_bind_eq_error h with hlimit | ⟨maxRetry, -, hlast⟩
      · exact liesInSetting_of_positiveValue (by decide) hlimit
      · cases hlast
  · cases h

/-! ## Resources -/

/-- The contents of a policy's resources are missing only if that of one of them is. -/
theorem Snapshot.resourceContents_eq_error {s : Snapshot} {policy : Policy} {e : ModelError}
    (h : s.resourceContents policy = .error e) :
    ∃ r ∈ policy.resources, s.content? policy.name r.name = none ∧
      e = .missingResource policy.name r.name := by
  rcases Outcome.of_bind_eq_error h with hentries | ⟨entries, -, hlast⟩
  · obtain ⟨r, hr, hentry⟩ := Outcome.of_mapM_eq_error hentries
    rcases Outcome.of_bind_eq_error hentry with hcontent | ⟨content, -, hlast⟩
    · obtain ⟨hnone, rfl⟩ := contentOf_eq_error hcontent
      exact ⟨r, hr, hnone, rfl⟩
    · cases hlast
  · cases hlast

namespace Generator

variable {g : Generator} {directories : Directories} {s : Snapshot} {policy : String}
  {m : Marker} {x : NodeId} {uri : String} {p : Progress} {fault : GenerationError}

/-! ## One reference -/

/-- Applying characteristics fails only for a setting of batching that cannot be used. -/
theorem applyAll_eq_error {e : Endpoint} {cs : List Characteristic}
    (h : applyAll .standard s policy e x p cs = .error fault) :
    ∃ c ∈ cs, c.kind = BatchRetry.kindName ∧ fault.LiesInSetting e c := by
  induction cs generalizing p with
  | nil => cases h
  | cons c cs ih =>
      rcases Outcome.of_bind_eq_error h with hfirst | ⟨p₁, -, hrest⟩
      · rw [applyCharacteristic, Registry.find_standard] at hfirst
        by_cases hkind : c.kind = BatchRetry.kindName
        · rw [if_pos hkind] at hfirst
          rcases Outcome.of_bind_eq_error hfirst with hprocess | ⟨d, -, hlast⟩
          · exact ⟨c, List.mem_cons_self, hkind, process_eq_error hprocess⟩
          · cases hlast
        · rw [if_neg hkind] at hfirst
          cases hfirst
      · obtain ⟨c', hc', hkind, hfault⟩ := ih hrest
        exact ⟨c', List.mem_cons_of_mem c hc', hkind, hfault⟩

/-- Resolving a logical reference fails if it leads nowhere, or for an endpoint that is at
fault. -/
theorem exists_of_resolveElement_eq_error (hregistry : g.registry = .standard)
    (hlogical : Uri.isLogical uri = true)
    (h : g.resolveElement directories s policy m x uri p = .error fault) :
    (∃ name, s.endpoint? name = none ∧ fault = .unknownEndpoint "" name) ∨
      fault.LiesInEndpoint s := by
  obtain ⟨name, hname⟩ : ∃ name, Uri.endpointName? uri = some name := by
    obtain ⟨rest, hrest⟩ := Option.isSome_iff_exists.mp hlogical
    exact ⟨_, by rw [Uri.endpointName?, hrest, Option.map_some]⟩
  rw [resolveElement, Snapshot.resolveFor, hname] at h
  cases he : s.endpoint? name with
  | none =>
      simp only [he] at h
      exact .inl ⟨name, he, (Except.error.inj h).symm⟩
  | some e =>
      have hmem : e ∈ s.group.endpoints := List.mem_of_find?_eq_some he
      simp only [he, Outcome.ok_bind, Uri.isLogical_appendOptions] at h
      cases hphysical : Uri.isLogical e.uri with
      | true =>
          rw [hphysical, if_pos rfl] at h
          rw [← Except.error.inj h]
          exact .inr (.logical hmem hphysical)
      | false =>
          rw [hphysical, if_neg Bool.false_ne_true] at h
          rcases Outcome.of_bind_eq_error h with happly | ⟨p₁, -, hlast⟩
          · rw [hregistry] at happly
            obtain ⟨c, hc, hkind, hfault⟩ := applyAll_eq_error happly
            exact .inr (.setting hmem (List.mem_filter.mpr ⟨hc, beq_iff_eq.mpr hkind⟩) hfault)
          · cases hlast

/-! ## All references -/

/-- The search for the next reference fails only for a marker without a URI. -/
theorem nextAmong_eq_error {d : Document} {ns : List NodeId}
    (h : nextAmong d m ns = .error fault) : fault = .missingUri "" m.tagName := by
  induction ns with
  | nil => cases h
  | cons n ns ih =>
      rw [nextAmong] at h
      split at h
      · split at h
        · exact (Except.error.inj h).symm
        · split at h
          · cases h
          · exact ih h
      · exact ih h

/-- What the search finds is logical. -/
theorem isLogical_of_nextAmong {d : Document} {ns : List NodeId}
    (h : nextAmong d m ns = .ok (some (x, uri))) : Uri.isLogical uri = true := by
  induction ns with
  | nil => cases h
  | cons n ns ih =>
      rw [nextAmong] at h
      split at h
      · split at h
        · cases h
        · split at h
          · next hlogical =>
            obtain ⟨-, rfl⟩ : n = x ∧ _ = uri := by simpa using h
            exact hlogical
          · exact ih h
      · exact ih h

/-- An error of the loop over the markers of one kind is that of a search, or that of a
reference that was found. -/
theorem exists_of_resolveKind_eq_error {steps : Nat}
    (h : g.resolveKind directories s policy m steps p = .error fault) :
    fault = .missingUri "" m.tagName ∨ ∃ x uri p', Uri.isLogical uri = true ∧
      g.resolveElement directories s policy m x uri p' = .error fault := by
  induction steps generalizing p with
  | zero => cases h
  | succ steps ih =>
      rcases Outcome.of_bind_eq_error h with hnext | ⟨found, hnext, hrest⟩
      · exact .inl (nextAmong_eq_error hnext)
      · cases found with
        | none => cases hrest
        | some found =>
            rcases Outcome.of_bind_eq_error hrest with hresolve | ⟨p₁, -, hlast⟩
            · exact .inr ⟨_, _, p, isLogical_of_nextAmong hnext, hresolve⟩
            · exact ih hlast

/-- An error of the loops over the markers of all kinds is that of a search, or that of a
reference that was found. -/
theorem exists_of_resolveKinds_eq_error {steps : Nat} {ms : List Marker}
    (h : g.resolveKinds directories s policy steps ms p = .error fault) :
    ∃ m, fault = .missingUri "" (Marker.tagName m) ∨ ∃ x uri p', Uri.isLogical uri = true ∧
      g.resolveElement directories s policy m x uri p' = .error fault := by
  induction ms generalizing p with
  | nil => cases h
  | cons m ms ih =>
      rcases Outcome.of_bind_eq_error h with hkind | ⟨p₁, -, hrest⟩
      · exact ⟨m, exists_of_resolveKind_eq_error hkind⟩
      · exact ih hrest

/-! ## One policy -/

section Policy

variable {policy : Policy} {definition : String}

/-- The loops over the markers fail for the policy, once they are told its name, or for an
endpoint. -/
theorem liesIn_of_resolveKinds (hregistry : g.registry = .standard) {name : String} {steps : Nat}
    {ms : List Marker} (h : g.resolveKinds directories s name steps ms p = .error fault) :
    (fault.inPolicy policy.name).LiesInPolicy s policy ∨
      (fault.inPolicy policy.name).LiesInEndpoint s := by
  obtain ⟨m, rfl | ⟨x, uri, p', hlogical, hresolve⟩⟩ := exists_of_resolveKinds_eq_error h
  · exact .inl (.missingUri m)
  · rcases exists_of_resolveElement_eq_error hregistry hlogical hresolve with
      ⟨name, hnone, rfl⟩ | hendpoint
    · exact .inl (.unknownEndpoint hnone)
    · rw [hendpoint.inPolicy_eq]
      exact .inr hendpoint

/-- Generating a policy fails for a resource, for the definition, or in the loops, whose error is
told the name of the policy. -/
theorem exists_of_generateWith_eq_error {resolvers : ResolverChain}
    (h : g.generateWith directories resolvers s policy definition = .error fault) :
    (∃ e, s.resourceContents policy = .error e ∧ fault = .model e) ∨
      (∃ message, fault = .malformed policy.name message) ∨
      ∃ steps p e, g.resolveKinds directories s policy.name steps Marker.all p = .error e ∧
        fault = e.inPolicy policy.name := by
  rcases Outcome.of_bind_eq_error h with hresources | ⟨resources, -, hrest⟩
  · obtain ⟨e, herror, rfl⟩ := Outcome.of_mapError_eq_error hresources
    exact .inl ⟨e, herror, rfl⟩
  · rcases Outcome.of_bind_eq_error hrest with hparse | ⟨d, -, hrest⟩
    · obtain ⟨e, -, rfl⟩ := Outcome.of_mapError_eq_error hparse
      exact .inr (.inl ⟨_, rfl⟩)
    · rcases Outcome.of_bind_eq_error hrest with hloops | ⟨final, -, hlast⟩
      · obtain ⟨e, hkinds, rfl⟩ := Outcome.of_mapError_eq_error hloops
        exact .inr (.inr ⟨_, _, e, hkinds, rfl⟩)
      · cases hlast

/-- A policy that cannot be generated is at fault itself, or an endpoint is. -/
theorem liesIn_of_generateWith (hregistry : g.registry = .standard) {resolvers : ResolverChain}
    (h : g.generateWith directories resolvers s policy definition = .error fault) :
    fault.LiesInPolicy s policy ∨ fault.LiesInEndpoint s := by
  rcases exists_of_generateWith_eq_error h with
    ⟨e, hresources, rfl⟩ | ⟨message, rfl⟩ | ⟨steps, p, e, hkinds, rfl⟩
  · obtain ⟨r, hr, hnone, rfl⟩ := Snapshot.resourceContents_eq_error hresources
    exact .inl (.missingResource hr hnone)
  · exact .inl (.malformed message)
  · exact liesIn_of_resolveKinds hregistry hkinds

/-- A policy that cannot be generated is at fault itself, or an endpoint is; and the issue of
the error names the policy in the first case, and no policy in the second. -/
theorem policy_of_issue (hregistry : g.registry = .standard)
    (h : g.generate directories s policy definition = .error fault) :
    (fault.LiesInPolicy s policy ∨ fault.LiesInEndpoint s) ∧
      (fault.toIssue.policy = some policy.name ↔ fault.LiesInPolicy s policy) ∧
      (fault.toIssue.policy = none ↔ fault.LiesInEndpoint s) := by
  have hlies := liesIn_of_generateWith hregistry (Outcome.of_map_eq_error h)
  refine ⟨hlies, ?_, ?_⟩
  · refine ⟨fun hsome => hlies.resolve_right fun hendpoint => ?_, fun h => h.policy_toIssue⟩
    rw [hendpoint.policy_toIssue] at hsome
    cases hsome
  · refine ⟨fun hnone => hlies.resolve_left fun hpolicy => ?_, fun h => h.policy_toIssue⟩
    rw [hpolicy.policy_toIssue] at hnone
    cases hnone

end Policy

/-- An endpoint that asks for batches of no messages. -/
def idleSnapshot : Snapshot where
  group := {
    name := "g"
    endpoints := [{
      name := "q"
      uri := "direct:out"
      characteristics := [(Characteristic.ofKind BatchRetry.kindName).withProperty
        "batchSize" "0"] }] }

/-- A definition that sends to that endpoint. -/
def idleDefinition : String :=
  "<a><inOnly uri='logical:q'/></a>"

/-- The policy of that definition cannot be generated, and the issue names the endpoint only. -/
theorem policy_of_issue_idle :
    let fault : GenerationError := .invalidProperty "q" "batchSize" "0"
    generate ⟨.standard, .empty, .empty⟩ (fun _ => false) idleSnapshot { name := "p" }
        idleDefinition = .error fault ∧
      fault.LiesInEndpoint idleSnapshot ∧ fault.toIssue.policy = none ∧
      fault.toIssue.endpoint = some "q" := by
  intro fault
  have hfails : generate ⟨.standard, .empty, .empty⟩ (fun _ => false) idleSnapshot
      { name := "p" } idleDefinition = .error fault :=
    Outcome.of_error_eq_some (by decide +kernel)
  obtain ⟨-, -, hnone⟩ := policy_of_issue rfl hfails
  exact ⟨hfails, hnone.mp rfl, rfl, rfl⟩

end Generator

end RouteCompiler
