import RouteCompiler.Proofs.Document.Building
import RouteCompiler.Proofs.Generation.Spreading

/-!
# One step of generation

A step resolves the first reference of its kind in document order.  It sets the
URI of the reference and batches the element: a producer stays as it is, a
consumer that leads a route is expanded, a one-way producer is put inside
aggregations.

Main definitions:

- `Batched`: what batching an element makes of the tree around it.
- `Resolves`: what a step makes of the tree of the root.

Main results:

- Theorem `exists_resolves`: every successful step is one.
-/

namespace RouteCompiler

open RouteCompiler.Route

namespace Route

/-- What batching an element with some settings makes of the tree around it; new nodes
have addresses from the given one on. -/
inductive Batched (s : Snapshot) (low : Nat) (e : Endpoint) (entries : List Characteristic)
    (fs : List Frame) (u : Placed) : Marker → Placed → Prop
  | producer : Batched s low e entries fs u .producer (plug fs u)
  | aside (hleads : leads fs = false) : Batched s low e entries fs u .consumer (plug fs u)
  | expanded {fs' : List Frame} (hleads : leads fs = true)
      (hexpands : Expands s ((u.content.attribute? Uri.attributeKey).getD "") low entries.length
        fs fs') :
      Batched s low e entries fs u .consumer (plug fs' u)
  | enclosed {as : List (NodeId × Nat × Nat)} {n : NodeId}
      (hsettings : List.Forall₂ (Batches e) entries as) (has : ∀ a ∈ as, low ≤ a.1)
      (hn : low ≤ n) :
      Batched s low e entries fs u .oneWayProducer (u.batchedAt fs n as)

/-- What a step for one kind of marker makes of a tree: it resolves the first reference
of that kind below the top. -/
inductive Resolves (s : Snapshot) (entries : Endpoint → List Characteristic) (low : Nat)
    (m : Marker) : Placed → Placed → Prop
  | step {f : Frame} {fs : List Frame} {x : NodeId} {c : Content} {cs : List Placed}
      {uri name : String} {e : Endpoint} {t' : Placed} (hopen : Open (f :: fs))
      (hname : c.name? = some m.tagName) (huri : c.attribute? Uri.attributeKey = some uri)
      (hlogical : Uri.isLogical uri = true)
      (hfirst : ∀ b ∈ (elementsBefore (f :: fs)).tail, b.2.name? = some m.tagName →
        b.2.IsPhysical)
      (hendpoint : Uri.endpointName? uri = some name) (he : s.endpoint? name = some e)
      (hphysical : Uri.isLogical (Uri.appendOptions e.uri (e.options m.role)) = false)
      (hbatched : Batched s low e (entries e) (f :: fs) (.node x (c.setAttribute Uri.attributeKey
        (Uri.appendOptions e.uri (e.options m.role))) cs) m t') :
      Resolves s entries low m (plug (f :: fs) (.node x c cs)) t'

/-! ## The top of the tree -/

theorem content_withBean (t : Placed) (n : NodeId) (id className : String) :
    (t.withBean n id className).content = t.content := by
  rw [Placed.withBean]
  split <;> rfl

theorem content_foldl_append (bs : List Placed) (t : Placed) :
    (bs.foldl Placed.append t).content = t.content := by
  induction bs generalizing t with
  | nil => rfl
  | cons b bs ih => exact ih (t.append b)

/-- What no tree at the end of the top changes, several do not change. -/
theorem foldl_append_eq {α : Type} {f : Placed → α} {bs : List Placed}
    (hf : ∀ b ∈ bs, ∀ t : Placed, t.content.isElement → f (t.append b) = f t) {t : Placed}
    (ht : t.content.isElement) : f (bs.foldl Placed.append t) = f t := by
  induction bs generalizing t with
  | nil => rfl
  | cons b bs ih =>
      have hstep : (t.append b).content.isElement := ht
      rw [List.foldl_cons, ih (fun b' hb' => hf b' (by simp [hb'])) hstep]
      exact hf b (by simp) t ht

theorem Expands.content_plug {s : Snapshot} {uri : String} {low k : Nat} {fs fs' : List Frame}
    (h : Expands s uri low k fs fs') (t : Placed) :
    (plug fs' t).content = (plug fs t).content := by
  induction h with
  | done fs => rfl
  | @round k maxRetry y f fs fs' bs hleads hdistinct hfits hbeans hrest ih =>
      cases fs with
      | nil => simp [leads] at hleads
      | cons g fs =>
          rw [ih, ← addAtEnd_cons_cons, plug_addAtEnd, content_foldl_append]
          exact content_plug_congr (by rfl) (g :: fs)

theorem Batched.content {s : Snapshot} {low : Nat} {e : Endpoint} {entries : List Characteristic}
    {fs : List Frame} {u t' : Placed} {m : Marker} (h : Batched s low e entries fs u m t')
    (hne : fs ≠ []) : t'.content = (plug fs u).content := by
  cases h with
  | producer => rfl
  | aside hleads => rfl
  | expanded hleads hexpands => exact hexpands.content_plug u
  | @enclosed as n hsettings has hn =>
      cases as with
      | nil => rfl
      | cons a as =>
          obtain ⟨f, fs, rfl⟩ := List.exists_cons_of_ne_nil hne
          rw [Placed.batchedAt, Placed.withAggregator, content_withBean]
          exact content_plug_congr (by rfl) fs

/-- A step keeps what the top holds. -/
theorem Resolves.content {s : Snapshot} {entries : Endpoint → List Characteristic} {low : Nat}
    {m : Marker} {t t' : Placed} (h : Resolves s entries low m t t') :
    t'.content = t.content := by
  cases h with
  | @step f fs =>
      rename_i hbatched
      rw [hbatched.content (List.cons_ne_nil f fs)]
      exact content_plug_congr (by rfl) fs

end Route

namespace Generator

variable {g : Generator} {directories : Directories} {s : Snapshot} {policy : String}
  {m : Marker} {x : NodeId} {uri : String} {p p' : Progress}

/-- The settings with which the processors of a registry batch. -/
def entries (r : Registry) (e : Endpoint) : List Characteristic :=
  e.characteristics.filter fun c => (r.find? c.kind).isSome

theorem entries_empty (e : Endpoint) : entries .empty e = [] := by
  simp [entries, Registry.find_empty]

theorem entries_standard (e : Endpoint) : entries .standard e = e.batching := by
  refine List.filter_congr fun c _ => ?_
  rw [Registry.find_standard, beq_eq_decide]
  split
  · next h => simp [h]
  · next h => simp [h]

/-- A producer that waits for an answer is not batched. -/
theorem batchAll_producer {d d' : Document} {e : Endpoint} {cs : List Characteristic}
    (hmarker : (d.name? x).bind Marker.ofTagName? = some .producer)
    (hall : batchAll s policy e x d cs = .ok d') : d' = d := by
  induction cs with
  | nil =>
      simp only [batchAll, List.foldlM_nil, pure, Except.pure, Except.ok.injEq] at hall
      exact hall.symm
  | cons c cs ih =>
      obtain ⟨d₁, hprocess, hrest⟩ := Outcome.of_bind_eq_ok hall
      simp only [BatchRetry.process, hmarker, Except.ok.injEq] at hprocess
      exact ih (hprocess ▸ hrest)

/-- Batching what stands at a place. -/
theorem exists_batched {d d' : Document} {f : Frame} {fs : List Frame} {u : Placed}
    {e : Endpoint} {cs : List Characteristic} (h : d.ShowsRoot (plug (f :: fs) u))
    (hopen : Open (f :: fs)) (hname : u.content.name? = some m.tagName)
    (hall : batchAll s policy e u.id d cs = .ok d') :
    ∃ t', Batched s d.size e cs (f :: fs) u m t' ∧ d.size ≤ d'.size ∧ d'.ShowsRoot t' := by
  cases m with
  | producer =>
      have hmarker : (d.name? u.id).bind Marker.ofTagName? = some .producer := by
        rw [Document.name_of_content h.content_plug, hname]
        exact Marker.ofTagName_tagName _
      have hkept : d' = d := batchAll_producer hmarker hall
      subst hkept
      exact ⟨_, .producer, Nat.le_refl _, h⟩
  | oneWayProducer =>
      obtain ⟨as, n, hsettings, has, hn, hsize, hshows⟩ := h.batchProducer hopen hname hall
      exact ⟨_, .enclosed hsettings has hn, hsize, hshows⟩
  | consumer =>
      obtain ⟨x, c, cs'⟩ := u
      rcases h.batchConsumer hname (Nat.le_refl _) hall with
        ⟨hleads, rfl⟩ | ⟨hleads, hsize, fs', hexpands, hshows⟩
      · exact ⟨_, .aside hleads, Nat.le_refl _, h⟩
      · exact ⟨_, .expanded hleads hexpands, hsize, hshows⟩

/-- What a successful resolution makes of the document: the element gets the physical URI
of its endpoint and is batched. -/
theorem exists_batchAll (hregistry : g.registry = .standard ∨ g.registry = .empty)
    (h : g.resolveElement directories s policy m x uri p = .ok p') :
    ∃ name e, Uri.endpointName? uri = some name ∧ s.endpoint? name = some e ∧
      Uri.isLogical (Uri.appendOptions e.uri (e.options m.role)) = false ∧
      batchAll s policy e x (p.document.setAttribute x Uri.attributeKey
        (Uri.appendOptions e.uri (e.options m.role))) (entries g.registry e) =
          .ok p'.document := by
  obtain ⟨name, e, p₁, hendpoint, he, hphysical, happly, rfl⟩ := resolveElement_eq_ok h
  refine ⟨name, e, hendpoint, he, hphysical, ?_⟩
  rcases hregistry with hstandard | hempty
  · rw [hstandard] at happly ⊢
    rw [entries_standard]
    exact applyAll_standard happly
  · rw [hempty] at happly ⊢
    rw [entries_empty, applyAll_empty happly]
    rfl

/-- Every successful step resolves the first reference of its kind. -/
theorem exists_resolves (hregistry : g.registry = .standard ∨ g.registry = .empty)
    {t : Placed} (ht : p.document.ShowsRoot t) (htop : t.content.isElement)
    (hnext : nextReference p.document m = .ok (some (x, uri)))
    (h : g.resolveElement directories s policy m x uri p = .ok p') :
    ∃ t', Resolves s (entries g.registry) p.document.size m t t' ∧
      p.document.size ≤ p'.document.size ∧ p'.document.ShowsRoot t' := by
  obtain ⟨c, before, behind, helements, hname, huri, hlogical, hfirst⟩ :=
    nextReference_eq_some ht hnext
  obtain ⟨f, fs, cs, rfl, hopen, hbefore⟩ := exists_plug_of_elementsBelow_eq htop helements
  obtain ⟨name, e, hendpoint, he, hphysical, hall⟩ := exists_batchAll hregistry h
  have hset := ht.modifyContent (Content.setAttribute Uri.attributeKey
    (Uri.appendOptions e.uri (e.options m.role)))
  have hfirst' : ∀ b ∈ (elementsBefore (f :: fs)).tail, b.2.name? = some m.tagName →
      b.2.IsPhysical := by
    rw [hbefore]
    exact hfirst
  obtain ⟨t', hbatched, hsize, hshows⟩ := exists_batched hset hopen (by simpa using hname) hall
  rw [Document.size_modifyContent] at hbatched hsize
  exact ⟨t', .step hopen hname huri hlogical hfirst' hendpoint he hphysical hbatched, hsize,
    hshows⟩

/-! ## Runs -/

/-- Resolving the next reference of a kind. -/
def Step (g : Generator) (directories : Directories) (s : Snapshot) (policy : String)
    (m : Marker) (p p' : Progress) : Prop :=
  ∃ x uri, nextReference p.document m = .ok (some (x, uri)) ∧
    g.resolveElement directories s policy m x uri p = .ok p'

theorem Step.exists_resolves (h : Step g directories s policy m p p')
    (hregistry : g.registry = .standard ∨ g.registry = .empty) {t : Placed}
    (ht : p.document.ShowsRoot t) (htop : t.content.isElement) :
    ∃ t', Resolves s (entries g.registry) p.document.size m t t' ∧
      p.document.size ≤ p'.document.size ∧ p'.document.ShowsRoot t' := by
  obtain ⟨x, uri, hnext, hresolve⟩ := h
  exact Generator.exists_resolves hregistry ht htop hnext hresolve

/-- What every step for a kind keeps, the loop over that kind keeps. -/
theorem of_resolveKind {I : Progress → Prop}
    (hstep : ∀ p p', I p → Step g directories s policy m p p' → I p') {steps : Nat}
    (h : g.resolveKind directories s policy m steps p = .ok p') (hp : I p) : I p' := by
  induction steps generalizing p with
  | zero =>
      simp only [resolveKind, Except.ok.injEq] at h
      exact h ▸ hp
  | succ steps ih =>
      obtain ⟨found, hnext, hrest⟩ := Outcome.of_bind_eq_ok h
      cases found with
      | none =>
          simp only [pure, Except.pure, Except.ok.injEq] at hrest
          exact hrest ▸ hp
      | some found =>
          obtain ⟨x, uri⟩ := found
          obtain ⟨p₁, hresolve, hlast⟩ := Outcome.of_bind_eq_ok hrest
          exact ih hlast (hstep p p₁ hp ⟨x, uri, hnext, hresolve⟩)

/-- What every step keeps, the loops over all kinds keep. -/
theorem of_resolveKinds {I : Progress → Prop} {ms : List Marker}
    (hstep : ∀ m ∈ ms, ∀ p p', I p → Step g directories s policy m p p' → I p') {steps : Nat}
    (h : g.resolveKinds directories s policy steps ms p = .ok p') (hp : I p) : I p' := by
  induction ms generalizing p with
  | nil =>
      simp only [resolveKinds, Except.ok.injEq] at h
      exact h ▸ hp
  | cons m ms ih =>
      obtain ⟨p₁, hkind, hrest⟩ := Outcome.of_bind_eq_ok h
      have hp₁ := of_resolveKind (hstep m (by simp)) hkind hp
      exact ih (fun k hk => hstep k (by simp [hk])) hrest hp₁

/-- The root is an element, with its tree below it. -/
def Sound (p : Progress) : Prop :=
  ∃ t : Placed, p.document.ShowsRoot t ∧ t.content.isElement

/-- What generation starts from. -/
def start (d : Document) (resolvers : ResolverChain) : Progress :=
  ⟨d, .empty, [], resolvers⟩

theorem sound_start {definition : String} {d : Document} {resolvers : ResolverChain}
    (h : Document.parse definition = .ok d) : Sound (start d resolvers) := by
  obtain ⟨t, hshows, hroot, htop⟩ := Document.exists_shows_of_parse h
  exact ⟨t, ⟨hroot, [], hshows⟩, htop⟩

/-- What a policy that was generated is made of. -/
theorem exists_of_generateWith {resolvers resolvers' : ResolverChain} {policy : Policy}
    {definition : String} {generated : GeneratedPolicy}
    (h : g.generateWith directories resolvers s policy definition = .ok (generated, resolvers')) :
    ∃ resources d final, s.resourceContents policy = .ok resources ∧
      Document.parse definition = .ok d ∧
      g.resolveKinds directories s policy.name (d.size + addedReferenceLimit) Marker.all
        (start d resolvers) = .ok final ∧
      generated = ⟨policy.name, final.document.serialize,
        (g.ownPackages policy).foldl SortedSet.union final.packages, resources, final.issues⟩ ∧
      resolvers' = final.resolvers := by
  obtain ⟨resources, hresources, hrest⟩ := Outcome.of_bind_eq_ok h
  obtain ⟨d, hparse, hrest⟩ := Outcome.of_bind_eq_ok hrest
  obtain ⟨final, hfinal, hlast⟩ := Outcome.of_bind_eq_ok hrest
  simp only [pure, Except.pure, Except.ok.injEq, Prod.mk.injEq] at hlast
  exact ⟨resources, d, final, Outcome.of_mapError_eq_ok hresources,
    Outcome.of_mapError_eq_ok hparse, Outcome.of_mapError_eq_ok hfinal, hlast.1.symm,
    hlast.2.symm⟩

/-- A policy that was generated is the written form of the document with which the
loops ended. -/
theorem generateWith_eq_ok {resolvers resolvers' : ResolverChain} {policy : Policy}
    {definition : String} {generated : GeneratedPolicy}
    (h : g.generateWith directories resolvers s policy definition = .ok (generated, resolvers')) :
    ∃ d final, Document.parse definition = .ok d ∧
      g.resolveKinds directories s policy.name (d.size + addedReferenceLimit) Marker.all
        (start d resolvers) = .ok final ∧ generated.definition = final.document.serialize := by
  obtain ⟨resources, d, final, -, hparse, hfinal, rfl, -⟩ := exists_of_generateWith h
  exact ⟨d, final, hparse, hfinal, rfl⟩

end Generator

end RouteCompiler
