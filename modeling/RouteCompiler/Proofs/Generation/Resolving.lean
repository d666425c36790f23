import RouteCompiler.Proofs.Generation.Scan

/-!
# Resolving one reference

Resolving a reference sets its URI and then changes the document once for each
characteristic that has a processor.  Advice and packages are collected on the
side and never change the document.

Main results:

- Theorem `applyCharacteristic_eq_ok`: what one characteristic did.
- Theorem `resolveElement_eq_ok`: what a successful resolution did to the
  document.
- Theorem `ShowsRoot.ensureBean`: a bean is declared at the end of the root, unless
  it was declared before.
-/

namespace RouteCompiler

open RouteCompiler.Route

/-! ## Characteristics with a processor -/

namespace Registry

theorem find_empty (kind : String) : Registry.empty.find? kind = none := rfl

theorem find_standard (kind : String) :
    Registry.standard.find? kind =
      if kind = BatchRetry.kindName then some BatchRetry.processor else none := by
  split
  · next h =>
    rw [h]
    exact SortedMap.find_insert_self ..
  · next h => exact SortedMap.find_insert_of_ne _ _ h

end Registry

namespace Endpoint

/-- The settings with which an endpoint asks for batching, in order. -/
def batching (e : Endpoint) : List Characteristic :=
  e.characteristics.filter fun c => c.kind == BatchRetry.kindName

end Endpoint

namespace Generator

variable {g : Generator} {directories : Directories} {s : Snapshot} {policy : String}
  {e : Endpoint} {x : NodeId} {p p' : Progress}

/-- Batch one element as often as it is asked for. -/
def batchAll (s : Snapshot) (policy : String) (e : Endpoint) (x : NodeId) (d : Document)
    (cs : List Characteristic) : Except GenerationError Document :=
  cs.foldlM (fun d c => BatchRetry.process ⟨policy, s, e, c⟩ d x) d

/-! ## Applying characteristics -/

section Applying

variable {registry : Registry} {c : Characteristic} {cs : List Characteristic}

/-- What one characteristic did: either nothing processes it, and it was remarked on, or its
processor changed the document, and the packages of the processor were added. -/
theorem applyCharacteristic_eq_ok (h : applyCharacteristic registry s policy e x p c = .ok p') :
    (registry.find? c.kind = none ∧
      p' = { p with issues := addIssue p.issues (unsupported policy e.name c.kind) }) ∨
    ∃ processor d, registry.find? c.kind = some processor ∧
      processor.process ⟨policy, s, e, c⟩ p.document x = .ok d ∧
      p' = { p with document := d, packages := p.packages.union processor.dependencies } := by
  rw [applyCharacteristic] at h
  split at h
  · next hnone => exact .inl ⟨hnone, (Except.ok.inj h).symm⟩
  · next processor hsome =>
    obtain ⟨d, hprocess, hlast⟩ := Outcome.of_bind_eq_ok h
    exact .inr ⟨processor, d, hsome, hprocess, (Except.ok.inj hlast).symm⟩

/-- The standard processors process the batching characteristic only. -/
theorem applyCharacteristic_standard
    (h : applyCharacteristic .standard s policy e x p c = .ok p') :
    (c.kind ≠ BatchRetry.kindName ∧
      p' = { p with issues := addIssue p.issues (unsupported policy e.name c.kind) }) ∨
    (c.kind = BatchRetry.kindName ∧
      ∃ d, BatchRetry.process ⟨policy, s, e, c⟩ p.document x = .ok d ∧
        p' = { p with
          document := d
          packages := p.packages.union BatchRetry.processor.dependencies }) := by
  rcases applyCharacteristic_eq_ok h with ⟨hnone, hp'⟩ | ⟨processor, d, hsome, hprocess, hp'⟩
  · refine .inl ⟨fun hkind => ?_, hp'⟩
    rw [Registry.find_standard, if_pos hkind] at hnone
    cases hnone
  · rw [Registry.find_standard] at hsome
    split at hsome
    · next hkind =>
      cases hsome
      exact .inr ⟨hkind, d, hprocess, hp'⟩
    · cases hsome

/-- What each characteristic keeps, all of them keep. -/
theorem of_applyAll {I : Progress → Prop}
    (hkeep : ∀ q q' c, I q → applyCharacteristic registry s policy e x q c = .ok q' → I q')
    (h : applyAll registry s policy e x p cs = .ok p') (hp : I p) : I p' := by
  induction cs generalizing p with
  | nil => exact Except.ok.inj h ▸ hp
  | cons c cs ih =>
      obtain ⟨p₁, hfirst, hrest⟩ := Outcome.of_bind_eq_ok h
      exact ih hrest (hkeep p p₁ c hp hfirst)

/-- Without processors the document stays as it is. -/
theorem applyAll_empty (h : applyAll .empty s policy e x p cs = .ok p') :
    p'.document = p.document := by
  refine of_applyAll (I := fun q => q.document = p.document) ?_ h rfl
  intro q q' c hq hcharacteristic
  rcases applyCharacteristic_eq_ok hcharacteristic with ⟨-, rfl⟩ | ⟨processor, d, hsome, -⟩
  · exact hq
  · rw [Registry.find_empty] at hsome
    cases hsome

/-- Characteristics ask for no component. -/
theorem resolvers_applyAll (h : applyAll registry s policy e x p cs = .ok p') :
    p'.resolvers = p.resolvers := by
  refine of_applyAll (I := fun q => q.resolvers = p.resolvers) ?_ h rfl
  intro q q' c hq hcharacteristic
  rcases applyCharacteristic_eq_ok hcharacteristic with ⟨-, rfl⟩ | ⟨processor, d, -, -, rfl⟩
  · exact hq
  · exact hq

/-- The standard processors batch an element once for each setting of the
batching characteristic. -/
theorem applyAll_standard (h : applyAll .standard s policy e x p cs = .ok p') :
    batchAll s policy e x p.document (cs.filter fun c => c.kind == BatchRetry.kindName) =
      .ok p'.document := by
  induction cs generalizing p with
  | nil =>
      rw [← Except.ok.inj h]
      rfl
  | cons c cs ih =>
      obtain ⟨p₁, hfirst, hrest⟩ := Outcome.of_bind_eq_ok h
      have hlater := ih hrest
      rcases applyCharacteristic_standard hfirst with ⟨hkind, rfl⟩ | ⟨hkind, d, hprocess, rfl⟩
      · rw [List.filter_cons_of_neg (by simpa using hkind)]
        exact hlater
      · rw [List.filter_cons_of_pos (by simpa using hkind), batchAll, List.foldlM_cons, hprocess]
        exact hlater

/-- The packages of the standard processors are added where they process something. -/
theorem packages_applyAll_standard (h : applyAll .standard s policy e x p cs = .ok p')
    (package : Coordinate) :
    package ∈ p'.packages ↔
      package ∈ p.packages ∨ (cs.any fun c => c.kind == BatchRetry.kindName) ∧
        package ∈ BatchRetry.processor.dependencies := by
  induction cs generalizing p with
  | nil =>
      rw [← Except.ok.inj h]
      simp
  | cons c cs ih =>
      obtain ⟨p₁, hfirst, hrest⟩ := Outcome.of_bind_eq_ok h
      rw [ih hrest, List.any_cons]
      rcases applyCharacteristic_standard hfirst with ⟨hkind, rfl⟩ | ⟨hkind, d, -, rfl⟩
      · rw [beq_eq_false_iff_ne.mpr hkind, Bool.false_or]
      · rw [SortedSet.mem_union, hkind]
        simp only [beq_self_eq_true, Bool.true_or, true_and]
        tauto

end Applying

/-! ## Resolving -/

/-- What a successful resolution did: it found an endpoint, gave the element the
physical URI of that endpoint, applied the characteristics, and collected packages. -/
theorem resolveElement_eq_ok {m : Marker} {uri : String}
    (h : g.resolveElement directories s policy m x uri p = .ok p') :
    ∃ name e p₁, Uri.endpointName? uri = some name ∧ s.endpoint? name = some e ∧
      Uri.isLogical (Uri.appendOptions e.uri (e.options m.role)) = false ∧
      applyAll g.registry s policy e x ⟨p.document.setAttribute x Uri.attributeKey
          (Uri.appendOptions e.uri (e.options m.role)), p.packages, p.issues, p.resolvers⟩
        e.characteristics = .ok p₁ ∧
      p' = ⟨p₁.document, (p₁.packages.union e.dependencies).union
          (p₁.resolvers.packagesForUri directories
            (Uri.appendOptions e.uri (e.options m.role))).1, p₁.issues,
        (p₁.resolvers.packagesForUri directories
          (Uri.appendOptions e.uri (e.options m.role))).2⟩ := by
  obtain ⟨resolution, hresolve, hrest⟩ := Outcome.of_bind_eq_ok h
  unfold Snapshot.resolveFor at hresolve
  split at hresolve
  · simp only [Except.ok.injEq] at hresolve
    subst hresolve
    simp at hrest
  · next name hname =>
    split at hresolve
    · simp at hresolve
    · next e he =>
      simp only [Except.ok.injEq] at hresolve
      subst hresolve
      dsimp only at hrest
      split at hrest
      · simp at hrest
      · next hphysical =>
        obtain ⟨p₁, happly, hp'⟩ := Outcome.of_bind_eq_ok hrest
        refine ⟨name, e, p₁, hname, he, by simpa using hphysical, happly, ?_⟩
        simp only [pure, Except.pure, Except.ok.injEq] at hp'
        exact hp'.symm

end Generator

namespace Route.Content

/-! ## What a reference refers to -/

/-- The marker that an element is, with the endpoint that it refers to by a logical
URI. -/
def target? (s : Snapshot) (c : Content) : Option (Marker × Endpoint) := do
  let m ← c.marker?
  let uri ← c.attribute? Uri.attributeKey
  let name ← Uri.endpointName? uri
  let e ← s.endpoint? name
  return (m, e)

/-- The settings with which a consumer is batched. -/
def expansions (s : Snapshot) (c : Content) : List Characteristic :=
  match c.target? s with
  | some (.consumer, e) => e.batching
  | _ => []

theorem target_eq_some {s : Snapshot} {c : Content} {m : Marker} {uri name : String} {e : Endpoint}
    (hname : c.name? = some m.tagName)
    (huri : c.attribute? Uri.attributeKey = some uri)
    (hendpoint : Uri.endpointName? uri = some name) (he : s.endpoint? name = some e) :
    c.target? s = some (m, e) := by
  simp [target?, marker_eq_some.mpr hname, huri, hendpoint, he]

/-- A consumer that is expanded refers to a batching endpoint. -/
theorem exists_of_expansions {s : Snapshot} {c : Content} (h : c.expansions s ≠ []) :
    c.name? = some Marker.consumer.tagName ∧ ∃ uri name e,
      c.attribute? Uri.attributeKey = some uri ∧ Uri.endpointName? uri = some name ∧
        s.endpoint? name = some e ∧ e.hasCharacteristic BatchRetry.kindName = true := by
  rw [expansions] at h
  split at h
  · next e htarget =>
    simp only [target?, bind, pure, Option.bind_eq_some_iff, Option.some.injEq, Prod.mk.injEq]
      at htarget
    obtain ⟨m, hmarker, uri, huri, name, hname, e', he, rfl, rfl⟩ := htarget
    refine ⟨marker_eq_some.mp hmarker, uri, name, e', huri, hname, he, ?_⟩
    obtain ⟨entry, hentry⟩ := List.exists_mem_of_ne_nil _ h
    exact List.any_eq_true.mpr ⟨entry, List.mem_filter.mp hentry⟩
  · exact absurd rfl h

/-- A consumer without a logical URI is not expanded. -/
theorem expansions_eq_nil {s : Snapshot} {c : Content}
    (h : c.name? = some Marker.consumer.tagName → c.IsPhysical) : c.expansions s = [] := by
  by_contra hne
  obtain ⟨hname, uri, name, e, huri, hendpoint, -⟩ := exists_of_expansions hne
  obtain ⟨uri', huri', hphysical⟩ := h hname
  rw [huri, Option.some.injEq] at huri'
  have hnone : Uri.afterScheme? uri = none := by
    simpa [Uri.isLogical, huri'] using hphysical
  simp [Uri.endpointName?, hnone] at hendpoint

end Route.Content

/-! ## Support beans -/

namespace Route

/-- What the element that declares a bean holds. -/
def beanContent (id className : String) : Content :=
  .element beanElement [⟨"id", id⟩, ⟨"class", className⟩]

/-- Whether an element declares the bean of an identifier. -/
def Content.declares (id : String) (c : Content) : Bool :=
  c.name? == some beanElement && c.attribute? "id" == some id

namespace Placed

/-- Whether a bean is declared below the top. -/
def declares (id : String) (t : Placed) : Bool :=
  t.elementsBelow.any fun e => e.2.declares id

/-- A tree with one more tree at the end of its top. -/
def append (t u : Placed) : Placed :=
  .node t.id t.content (t.children ++ [u])

/-- A tree in which a bean is declared: where it is not, the declaration stands at
the end of the top, under the given address. -/
def withBean (n : NodeId) (id className : String) (t : Placed) : Placed :=
  if t.declares id then t else t.append (.node n (beanContent id className) [])

/-- The bean that collects messages is declared. -/
def withAggregator (n : NodeId) (t : Placed) : Placed :=
  t.withBean n "aggregatorStrategy" "io.hodos.runtime.ListAggregator"

/-- The bean that keeps track of attempts is declared. -/
def withRetrySupport (n : NodeId) (t : Placed) : Placed :=
  t.withBean n "retrySupport" "io.hodos.runtime.RetrySupport"

end Placed

namespace Document.ShowsRoot

variable {d : Document} {t : Placed}

theorem declaresBean_eq (h : d.ShowsRoot t) (id : String) :
    declaresBean d id = t.declares id := by
  rw [Bool.eq_iff_iff, RouteCompiler.declaresBean, h.descendants, Placed.declares,
    List.any_map, List.any_eq_true, List.any_eq_true]
  refine exists_congr fun e => and_congr_right fun he => ?_
  have hcontent := h.content_of_mem he
  simp [Content.declares, isNamed_of_content hcontent, attribute_of_content hcontent]

/-- A new bean stands at the end of the root. -/
theorem appendBean (h : d.ShowsRoot t) (id className : String) :
    ((((d.push (.element beanElement [])).1.setAttribute d.size "id" id).setAttribute d.size
      "class" className).appendChild d.root d.size).ShowsRoot
        (t.append (.node d.size (beanContent id className) [])) := by
  obtain ⟨hroot, detached, hshows⟩ := h
  have hpush : (d.push (.element beanElement [])).1.Shows
      (plug [] (.node d.size (.element beanElement []) []) :: t :: detached) := hshows.push _
  have hset := (hpush.modifyContent (Content.setAttribute "id" id)).modifyContent
    (Content.setAttribute "class" className)
  obtain ⟨i, c, cs⟩ := t
  have hready : ((((d.push (.element beanElement [])).1.setAttribute d.size "id" id).setAttribute
      d.size "class" className)).Shows (plug [] (.node i c cs) ::
        .node d.size (beanContent id className) [] :: detached) :=
    hset.perm (List.Perm.swap _ _ _)
  have happend := hready.appendChild
  rw [Placed.id_node] at hroot
  refine ⟨?_, detached, ?_⟩
  · rw [root_appendChild]
    exact hroot
  · rw [hroot]
    exact happend

/-- A bean is declared at the end of the root, unless it was declared before. -/
theorem ensureBean (h : d.ShowsRoot t) (id className : String) :
    (ensureBean d id className).1.ShowsRoot (t.withBean d.size id className) := by
  rw [RouteCompiler.ensureBean, h.declaresBean_eq, Placed.withBean]
  cases t.declares id with
  | true => exact h
  | false => exact h.appendBean id className

end Document.ShowsRoot

theorem Document.le_size_ensureBean (d : Document) (id className : String) :
    d.size ≤ (RouteCompiler.ensureBean d id className).1.size := by
  rw [RouteCompiler.ensureBean]
  split
  · exact Nat.le_refl d.size
  · simp [createElement, setAttribute]

/-! ## What generation adds -/

/-- What is neither a marker nor the declaration of a bean, nor frames a route. -/
structure Content.IsPlain (c : Content) : Prop where
  marker : c.marker? = none
  id : c.attribute? "id" = none
  route : c.name? ≠ some "route"
  context : c.name? ≠ some "camelContext"

theorem Content.isPlain_iff {c : Content} :
    c.IsPlain ↔ c.marker? = none ∧ c.attribute? "id" = none ∧ c.name? ≠ some "route" ∧
      c.name? ≠ some "camelContext" :=
  ⟨fun h => ⟨h.marker, h.id, h.route, h.context⟩, fun h => ⟨h.1, h.2.1, h.2.2.1, h.2.2.2⟩⟩

instance (c : Content) : Decidable c.IsPlain :=
  decidable_of_iff _ Content.isPlain_iff.symm

theorem Content.IsPlain.declares {c : Content} (h : c.IsPlain) (id : String) :
    c.declares id = false := by
  simp [Content.declares, h.id]

/-- A marker declares no bean. -/
theorem Content.declares_of_marker {c : Content} {m : Marker} (hname : c.name? = some m.tagName)
    (id : String) : c.declares id = false := by
  cases m <;> simp [declares, hname, Marker.tagName, beanElement]

end Route

end RouteCompiler
