import RouteCompiler.Proofs.Generation.Exhaustion
import RouteCompiler.Proofs.Generation.Faults
import RouteCompiler.Proofs.Model.Validity

/-!
# Generating a valid snapshot

Validation cannot look into route definitions.  What can keep a valid snapshot from
being generated is therefore at fault there: a definition that is no document, a
marker without a URI, a reference to an endpoint that does not exist, or a setting of
a characteristic that cannot be used.  Every other error that generation could report
is ruled out.

Main definitions:

- `GenerationError.LiesInRoute`: the errors that validation leaves.

Main results:

- Theorem `resolveElement_eq_error`: how resolving a logical reference can fail.
- Theorem `validated_fails_only_in_routes`: a valid snapshot is generated, or a route
  is at fault.
-/

namespace RouteCompiler

open RouteCompiler.Route

/-- The errors that lie in a route definition, or in a setting that only a processor
reads. -/
inductive GenerationError.LiesInRoute : GenerationError → Prop
  | malformed (policy message : String) : LiesInRoute (.malformed policy message)
  | missingUri (policy element : String) : LiesInRoute (.missingUri policy element)
  | unknownEndpoint (policy endpoint : String) : LiesInRoute (.unknownEndpoint policy endpoint)
  | invalidProperty (endpoint property value : String) :
      LiesInRoute (.invalidProperty endpoint property value)

/-- Naming the policy does not change where an error lies. -/
theorem GenerationError.LiesInRoute.inPolicy {fault : GenerationError} (h : fault.LiesInRoute)
    (name : String) : (fault.inPolicy name).LiesInRoute := by
  cases h with
  | malformed policy message => exact .malformed _ _
  | missingUri policy element => exact .missingUri _ _
  | unknownEndpoint policy endpoint => exact .unknownEndpoint _ _
  | invalidProperty endpoint property value => exact .invalidProperty _ _ _

namespace Generator

variable {g : Generator} {directories : Directories} {s : Snapshot} {policy : String}
  {m : Marker} {x : NodeId} {uri : String} {p : Progress} {fault : GenerationError}

/-! ## References -/

/-- In a valid snapshot, resolving a logical reference fails only for an endpoint that
does not exist or a setting that cannot be used. -/
theorem resolveElement_eq_error (hregistry : g.registry = .standard) (hvalid : s.IsValid)
    (hlogical : Uri.isLogical uri = true)
    (h : g.resolveElement directories s policy m x uri p = .error fault) :
    fault.LiesInRoute := by
  rcases exists_of_resolveElement_eq_error hregistry hlogical h with ⟨name, -, rfl⟩ | hendpoint
  · exact .unknownEndpoint _ _
  · cases hendpoint with
    | logical he hlogical =>
        rw [hvalid.physical _ he] at hlogical
        cases hlogical
    | setting he hc hsetting =>
        cases hsetting with
        | unusable hproperty hvalue hnone => exact .invalidProperty _ _ _

/-- Resolving the references of all kinds fails only where a route is at fault. -/
theorem resolveKinds_eq_error (hregistry : g.registry = .standard) (hvalid : s.IsValid)
    {steps : Nat} {ms : List Marker}
    (h : g.resolveKinds directories s policy steps ms p = .error fault) :
    fault.LiesInRoute := by
  obtain ⟨m, rfl | ⟨x, uri, p', hlogical, hresolve⟩⟩ := exists_of_resolveKinds_eq_error h
  · exact .missingUri _ _
  · exact resolveElement_eq_error hregistry hvalid hlogical hresolve

/-! ## Policies -/

/-- A policy of a valid snapshot is generated, or a route is at fault. -/
theorem generateWith_eq_error (hregistry : g.registry = .standard) (hvalid : s.IsValid)
    {resolvers : ResolverChain} {policy : Policy} {definition : String} {contents : Settings}
    (hcontents : s.resourceContents policy = .ok contents)
    (h : g.generateWith directories resolvers s policy definition = .error fault) :
    fault.LiesInRoute := by
  rcases exists_of_generateWith_eq_error h with
    ⟨e, hresources, rfl⟩ | ⟨message, rfl⟩ | ⟨steps, p, e, hkinds, rfl⟩
  · rw [hcontents] at hresources
    cases hresources
  · exact .malformed _ _
  · exact (resolveKinds_eq_error hregistry hvalid hkinds).inPolicy _

/-- Policies of a valid snapshot are generated, or a route is at fault. -/
theorem generateAll_eq_error (hregistry : g.registry = .standard) (hvalid : s.IsValid)
    (hresources : s.validateResources = .ok ()) {resolvers : ResolverChain}
    {policies : List Policy} (hpolicies : ∀ p ∈ policies, p ∈ s.policies)
    (h : g.generateAll directories s resolvers policies = .error fault) :
    fault.LiesInRoute := by
  induction policies generalizing resolvers with
  | nil => cases h
  | cons policy policies ih =>
      have hpolicy := hpolicies policy (by simp)
      obtain ⟨definition, hdefinition⟩ :=
        Option.isSome_iff_exists.mp (hvalid.definitions policy hpolicy)
      obtain ⟨contents, hcontents⟩ := Snapshot.exists_resourceContents hresources hpolicy
      rw [generateAll, hdefinition] at h
      simp only [Outcome.ok_bind] at h
      rcases Outcome.of_bind_eq_error h with hfirst | ⟨⟨generated, resolvers'⟩, -, hrest⟩
      · exact generateWith_eq_error hregistry hvalid hcontents hfirst
      · rcases Outcome.of_bind_eq_error hrest with hothers | ⟨others, -, hlast⟩
        · exact ih (fun p hp => hpolicies p (by simp [hp])) hothers
        · cases hlast

/-- A valid snapshot with consistent resources is generated, or a route is at fault; and
no reference that a definition could hold is refused as being no marker, as not being
logical, or as leading to another logical URI. -/
theorem validated_fails_only_in_routes (hregistry : g.registry = .standard)
    (hvalid : s.validate = []) (hresources : s.validateResources = .ok ()) :
    ((∃ policies, g.generateSnapshot directories s = .ok policies) ∨
      ∃ fault, g.generateSnapshot directories s = .error fault ∧ fault.LiesInRoute) ∧
    ∀ (m : Marker) (uri : String), Uri.isLogical uri = true →
      s.resolve m.tagName uri = s.resolveFor m uri ∧
      ∀ (policy : String) (x : NodeId) (p : Progress) (fault : GenerationError),
        g.resolveElement directories s policy m x uri p = .error fault → fault.LiesInRoute := by
  have hs := Snapshot.isValid_of_validate hvalid
  constructor
  · rw [generateSnapshot, hs.checkConsistency_eq_ok hresources, Outcome.mapError_ok,
      Outcome.ok_bind]
    cases hall : g.generateAll directories s g.resolvers s.policies with
    | ok policies => exact .inl ⟨policies, rfl⟩
    | error fault =>
        exact .inr ⟨fault, rfl,
          generateAll_eq_error hregistry hs hresources (fun _ hp => hp) hall⟩
  · intro m uri hlogical
    constructor
    · rw [Snapshot.resolve, Marker.ofTagName_tagName]
    · intro policy x p fault h
      exact resolveElement_eq_error hregistry hs hlogical h

/-- A snapshot with one policy, whose references are nested, and with one resource. -/
def reviewedSnapshot : Snapshot :=
  { batchingSnapshot.withPolicy { name := "p", resources := [{ name := "r.txt" }] }
      nestedReferences with
    resources := .ofList [("p", .ofList [("r.txt", "text")])] }

/-- That snapshot is valid, and its resources are consistent. -/
theorem validated_fails_only_in_routes_nested :
    let g : Generator := ⟨.standard, .empty, .empty⟩
    reviewedSnapshot.validate = [] ∧ reviewedSnapshot.validateResources = .ok () ∧
      ((∃ policies, g.generateSnapshot (fun _ => false) reviewedSnapshot = .ok policies) ∨
        ∃ fault, g.generateSnapshot (fun _ => false) reviewedSnapshot = .error fault ∧
          fault.LiesInRoute) ∧
      reviewedSnapshot.resolve "inOnly" "logical:q" =
        reviewedSnapshot.resolveFor .oneWayProducer "logical:q" := by
  intro g
  have hvalid : reviewedSnapshot.validate = [] := by decide +kernel
  have hresources : reviewedSnapshot.validateResources = .ok () :=
    Outcome.of_toOption_eq_some (by decide +kernel)
  have hall : (_ ∨ ∃ fault, g.generateSnapshot (fun _ => false) reviewedSnapshot = .error fault ∧
      fault.LiesInRoute) ∧ _ := validated_fails_only_in_routes rfl hvalid hresources
  exact ⟨hvalid, hresources, hall.1, (hall.2 .oneWayProducer "logical:q" (by decide)).1⟩

end Generator

end RouteCompiler
