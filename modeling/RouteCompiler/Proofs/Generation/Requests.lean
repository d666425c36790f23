import RouteCompiler.Proofs.Generation.Resolving
import RouteCompiler.Proofs.Model.Query

/-!
# Which component is asked for

When a reference is resolved, the chain of resolvers is asked for the packages of one
component: that of the URI with the options of the role.  Options stand behind the URI, and a
component ends at the first colon, so they do not matter to a URI with a colon.  A URI without
one is its own component, and then the options become a part of it: what is asked for is no
component that anything knows, and the packages of the component are left out.

Main definitions:

- `Endpoint.requested`: the component that is asked for.

Main results:

- Lemma `requests_of_resolveElement`: a reference that is resolved asks for one component.
- Lemma `ask_eq_empty_of_question`: what nothing knows.
- Theorem `component_requested`: which component is asked for, and when it is that of the
  endpoint.
-/

namespace RouteCompiler

/-- The component that is asked for where a marker refers to an endpoint. -/
def Endpoint.requested (e : Endpoint) (m : Marker) : String :=
  Uri.component (Uri.appendOptions e.uri (e.options m.role))

/-! ## Finding the endpoint -/

/-- An endpoint that shares its name with no other is found under it. -/
theorem Snapshot.endpoint_eq_some {s : Snapshot} {e : Endpoint} (he : e ∈ s.group.endpoints)
    (hunique : ∀ other ∈ s.group.endpoints, other.name = e.name → other = e) :
    s.endpoint? e.name = some e := by
  rw [Snapshot.endpoint?, Group.endpoint?]
  cases hfind : s.group.endpoints.find? fun other => other.name == e.name with
  | none =>
      have hnone := List.find?_eq_none.mp hfind e he
      simp at hnone
  | some other =>
      have hname := List.find?_some hfind
      rw [hunique other (List.mem_of_find?_eq_some hfind) (by simpa using hname)]

/-! ## What resolvers do not know -/

/-- No component of the table that is always known holds a question mark. -/
theorem ComponentTable.packagesOf_builtIn {component : String} (h : '?' ∈ component.toList) :
    builtIn.packagesOf component = .empty := by
  have hkeys : ∀ entry ∈ builtIn.dependencies.entries, '?' ∉ entry.1.toList := by decide
  rw [packagesOf]
  cases hfind : builtIn.dependencies.find? component with
  | none => rfl
  | some packages => exact absurd h (hkeys _ (SortedMap.find_eq_some_iff.mp hfind))

/-- No package is looked for under a name with a question mark. -/
theorem ProbeConfig.isPlausible_eq_false {component : String} (h : '?' ∈ component.toList) :
    isPlausible component = false := by
  rw [isPlausible, Bool.and_eq_false_iff, List.all_eq_false]
  exact .inr ⟨'?', h, by decide⟩

theorem Resolver.supports_configured (table : ComponentTable) (directories : Directories)
    (component : String) :
    (configured table).supports directories component =
      !(table.packagesOf component).isEmpty := rfl

theorem Resolver.supports_probe (probe : ProbeConfig) (directories : Directories)
    (component : String) :
    (Resolver.probe probe).supports directories component =
      (ProbeConfig.isPlausible component && directories (probe.packageDirectory component)) := rfl

/-- What no resolver supports needs no packages. -/
theorem ResolverChain.ask_eq_empty {c : ResolverChain} {directories : Directories}
    {component : String} (h : ∀ r ∈ c.resolvers, r.supports directories component = false) :
    c.ask directories component = .empty := by
  have hnone : c.resolvers.find? (fun r => r.supports directories component) = none := by
    refine List.find?_eq_none.mpr fun r hr => ?_
    rw [h r hr]
    exact Bool.false_ne_true
  rw [ask, hnone]

namespace Generator

open RouteCompiler.Route

variable {g : Generator} {directories : Directories} {s : Snapshot} {policy uri : String}
  {m : Marker} {e : Endpoint} {x : NodeId} {p p' : Progress}

/-! ## The usual resolvers -/

/-- The resolvers of a configuration without a table of its own. -/
theorem resolvers_ofConfig {read : FileReader} {config : GeneratorConfig}
    (htable : config.componentDependencies = none) (h : ofConfig read config = .ok g) :
    ∀ r ∈ g.resolvers.resolvers, r = .configured .builtIn ∨ ∃ probe, r = .probe probe := by
  rw [ofConfig, htable] at h
  have hg := Except.ok.inj h
  subst hg
  intro r hr
  cases hprobe : config.probe with
  | none =>
      simp only [hprobe] at hr
      exact .inl (List.mem_singleton.mp hr)
  | some probe =>
      simp only [hprobe] at hr
      have hpair : r ∈ [Resolver.configured .builtIn, Resolver.probe probe] := hr
      rcases List.mem_pair.mp hpair with rfl | rfl
      · exact .inl rfl
      · exact .inr ⟨probe, rfl⟩

/-- The usual resolvers have no packages for a component with a question mark. -/
theorem ask_eq_empty_of_question {read : FileReader} {config : GeneratorConfig}
    (htable : config.componentDependencies = none) (h : ofConfig read config = .ok g)
    {component : String} (hquestion : '?' ∈ component.toList) :
    g.resolvers.ask directories component = .empty := by
  refine ResolverChain.ask_eq_empty fun r hr => ?_
  rcases resolvers_ofConfig htable h r hr with rfl | ⟨probe, rfl⟩
  · rw [Resolver.supports_configured, ComponentTable.packagesOf_builtIn hquestion]
    rfl
  · rw [Resolver.supports_probe, ProbeConfig.isPlausible_eq_false hquestion, Bool.false_and]

/-! ## Asking -/

/-- A reference that is resolved asks for one component, and its packages are collected. -/
theorem requests_of_resolveElement (hname : Uri.endpointName? uri = some e.name)
    (he : s.endpoint? e.name = some e)
    (h : g.resolveElement directories s policy m x uri p = .ok p') :
    p'.resolvers = (p.resolvers.packagesFor directories (e.requested m)).2 ∧
      ∀ package ∈ (p.resolvers.packagesFor directories (e.requested m)).1,
        package ∈ p'.packages := by
  obtain ⟨name, e', p₁, hname', he', -, happly, rfl⟩ := resolveElement_eq_ok h
  obtain rfl : e.name = name := Option.some.inj (hname.symm.trans hname')
  obtain rfl : e = e' := Option.some.inj (he.symm.trans he')
  have hresolvers := resolvers_applyAll happly
  constructor
  · rw [← hresolvers]
    rfl
  · intro package hpackage
    rw [← hresolvers] at hpackage
    exact SortedSet.mem_union.mpr (.inr hpackage)

/-- Where a marker refers to an endpoint, the component is asked for that serves the URI of the
endpoint with the options of the role.  It is the component of the endpoint's own URI if and
only if that URI has a colon or the role has no options; else it is nothing that the usual
resolvers have packages for. -/
theorem component_requested (he : e ∈ s.group.endpoints)
    (hunique : ∀ other ∈ s.group.endpoints, other.name = e.name → other = e)
    (huri : Uri.endpointName? uri = some e.name) (m : Marker) :
    s.resolve m.tagName uri =
      .ok (some ⟨e, Uri.appendOptions e.uri (e.options m.role)⟩) ∧
    (∀ (g : Generator) (directories : Directories) (policy : String) (x : NodeId)
        (p p' : Progress), g.resolveElement directories s policy m x uri p = .ok p' →
      p'.resolvers = (p.resolvers.packagesFor directories (e.requested m)).2 ∧
        ∀ package ∈ (p.resolvers.packagesFor directories (e.requested m)).1,
          package ∈ p'.packages) ∧
    (e.requested m = Uri.component e.uri ↔
      ':' ∈ e.uri.toList ∨ e.options m.role = .empty) ∧
    (e.requested m ≠ Uri.component e.uri → ∀ (read : FileReader) (config : GeneratorConfig)
        (g : Generator), config.componentDependencies = none → ofConfig read config = .ok g →
      ∀ directories : Directories,
        g.resolvers.ask directories (e.requested m) = .empty) := by
  have hfound := Snapshot.endpoint_eq_some he hunique
  refine ⟨?_, ?_, Uri.component_appendOptions_iff e.uri (e.options m.role), ?_⟩
  · rw [Snapshot.resolve, Marker.ofTagName_tagName]
    simp only [Snapshot.resolveFor, huri, hfound]
  · intro g directories policy x p p' h
    exact requests_of_resolveElement huri hfound h
  · intro hother read config g htable hg directories
    exact ask_eq_empty_of_question htable hg (Uri.question_mem_component hother)

/-- An endpoint whose URI has no colon, with an option for those who send to it. -/
def brokerEndpoint : Endpoint where
  name := "q"
  uri := "activemq"
  producerOptions := .ofList [("brokerURL", "tcp://h:61616")]

/-- The group of that endpoint. -/
def brokerSnapshot : Snapshot where
  group := { name := "g", endpoints := [brokerEndpoint] }

/-- Whoever takes from the endpoint gets the packages of its component, and whoever sends to it
gets none. -/
theorem component_requested_broker :
    brokerEndpoint.requested .consumer = "activemq" ∧
    ComponentTable.builtIn.packagesOf "activemq" ≠ .empty ∧
    brokerEndpoint.requested .producer = "activemq?brokerURL=tcp" ∧
    ∀ (read : FileReader) (config : GeneratorConfig) (g : Generator),
      config.componentDependencies = none → ofConfig read config = .ok g →
      ∀ directories : Directories,
        g.resolvers.ask directories "activemq?brokerURL=tcp" = .empty := by
  have hmem : brokerEndpoint ∈ brokerSnapshot.group.endpoints := List.mem_singleton_self _
  have hunique : ∀ other ∈ brokerSnapshot.group.endpoints,
      other.name = brokerEndpoint.name → other = brokerEndpoint :=
    fun other hother _ => List.mem_singleton.mp hother
  have hname : Uri.endpointName? "logical:q" = some brokerEndpoint.name := by decide
  obtain ⟨-, -, hconsumer, -⟩ := component_requested hmem hunique hname .consumer
  obtain ⟨-, -, -, hnothing⟩ := component_requested hmem hunique hname .producer
  have hrequested : brokerEndpoint.requested .producer = "activemq?brokerURL=tcp" := by
    decide +kernel
  refine ⟨hconsumer.mpr (.inr rfl), by decide +kernel, hrequested, ?_⟩
  rw [← hrequested]
  exact hnothing (by decide +kernel)

end Generator

end RouteCompiler
