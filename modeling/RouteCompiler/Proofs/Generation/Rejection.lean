import RouteCompiler.Proofs.Generation.Quiet

/-!
# Faulty markers

A marker without a URI, or with the name of an endpoint that the snapshot does not
define, cannot be resolved.  The loops over the markers meet every element below the
root, so they end in an error as long as such a marker is there.

Two markers escape them: the root, where no search looks, and one inside an action that
is displaced before the search comes to it.

Main definitions:

- `Content.isFaulty`: whether a marker cannot be resolved.

Main results:

- Theorem `Resolves.mem_or_resolved`: what a step makes of the nodes of a tree.
- Theorem `faulty_rejected`: which faulty markers are rejected.
-/

namespace RouteCompiler

open RouteCompiler.Route

namespace Route

/-! ## Markers that cannot be resolved -/

namespace Content

variable {s : Snapshot} {c : Content} {m : Marker} {e : Endpoint}

/-- Whether this is a marker without a URI, or one with a logical URI that names no
endpoint of the snapshot. -/
def isFaulty (s : Snapshot) (c : Content) : Bool :=
  c.marker?.isSome &&
    match c.attribute? Uri.attributeKey with
    | none => true
    | some uri => (Uri.endpointName? uri).any fun name => (s.endpoint? name).isNone

/-- What is settled is not faulty. -/
theorem IsSettled.isFaulty (h : c.IsSettled) : c.isFaulty s = false := by
  cases hmarker : c.marker? with
  | none => simp [Content.isFaulty, hmarker]
  | some m =>
      obtain ⟨uri, huri, hphysical⟩ := h m (marker_eq_some.mp hmarker)
      have hnone : Uri.afterScheme? uri = none := by
        simpa [Uri.isLogical] using hphysical
      simp [Content.isFaulty, huri, Uri.endpointName?, hnone]

/-- What refers to an endpoint is not faulty. -/
theorem isFaulty_of_target (h : c.target? s = some (m, e)) : c.isFaulty s = false := by
  simp only [target?, bind, pure, Option.bind_eq_some_iff, Option.some.injEq, Prod.mk.injEq] at h
  obtain ⟨m', hmarker, uri, huri, name, hname, e', he, -⟩ := h
  simp [isFaulty, huri, hname, he]

end Content

section Step

variable {s : Snapshot} {low : Nat} {m : Marker} {t t' : Placed}
  {entries : Endpoint → List Characteristic}

/-- After a step a node is new, or it was there before; it holds the same unless it is the
reference that was resolved. -/
theorem Resolves.mem_or_resolved (h : Resolves s entries low m t t') {x : NodeId × Content}
    (hx : x ∈ t'.nodes) :
    x ∈ t.nodes ∨ low ≤ x.1 ∨ ∃ c e, (x.1, c) ∈ t.nodes ∧ c.target? s = some (m, e) := by
  cases h with
  | @step f fs y c cs uri name e t' hopen hname huri hlogical hfirst hendpoint he hphysical
      hbatched =>
      rcases hbatched.mem_or_le hx with hx | hle
      · rw [nodes_plug, Placed.nodes_node] at hx ⊢
        simp only [List.mem_append, List.mem_cons] at hx ⊢
        rcases hx with (hx | hx | hx) | hx
        · exact .inl (.inl (.inl hx))
        · refine .inr (.inr ⟨c, e, ?_, Content.target_eq_some hname huri hendpoint he⟩)
          rw [hx]
          exact .inl (.inr (.inl rfl))
        · exact .inl (.inl (.inr (.inr hx)))
        · exact .inl (.inr hx)
      · exact .inr (.inl hle)

/-- Whatever a faulty marker holds after a step, it held before. -/
theorem Resolves.eq_of_isFaulty (h : Resolves s entries low m t t') {x : NodeId} {c : Content}
    (hx : x < low) (hfaulty : c.isFaulty s) (hheld : ∀ c', (x, c') ∈ t.nodes → c' = c) :
    ∀ c', (x, c') ∈ t'.nodes → c' = c := by
  intro c' hc'
  rcases h.mem_or_resolved hc' with hmem | hle | ⟨c₀, e, hmem, htarget⟩
  · exact hheld c' hmem
  · exact absurd hle (Nat.not_le_of_lt hx)
  · rw [hheld c₀ hmem] at htarget
    rw [Content.isFaulty_of_target htarget] at hfaulty
    cases hfaulty

end Step

end Route

namespace Generator

open RouteCompiler.Route

variable {g : Generator} {directories : Directories} {s : Snapshot} {policy : String}
  {m : Marker} {p p' : Progress} {t₀ : Placed}

/-! ## Faulty markers in a run -/

/-- While nothing is displaced, the number of faulty markers stays the same. -/
theorem tallyBelow_isFaulty (hregistry : g.registry = .standard) {steps : Nat}
    (ht : p.document.ShowsRoot t₀) (htop : t₀.content.isElement)
    (hquiet : t₀.displaces s = false)
    (h : g.resolveKinds directories s policy steps Marker.all p = .ok p') :
    ∃ t, p'.document.ShowsRoot t ∧ t.content.isElement ∧
      t.tallyBelow (Content.isFaulty s) = t₀.tallyBelow (Content.isFaulty s) := by
  refine of_resolveKinds_quiet hregistry (I := fun t _ =>
    t.tallyBelow (Content.isFaulty s) = t₀.tallyBelow (Content.isFaulty s)) ?_ ht htop hquiet rfl h
  intro m t t' p p' hI ht htop hresolves hquiet hstep
  obtain ⟨x, c, e, -, htarget, hcount⟩ :=
    hresolves.tallyBelow_eq htop hquiet (P := Content.isFaulty s) fun c hc => hc.isFaulty
  rw [Content.isFaulty_of_target htarget] at hcount
  simp only [Bool.false_eq_true, if_false] at hcount
  omega

/-- What a run leaves of a faulty marker holds what it held before. -/
theorem content_of_isFaulty (hregistry : g.registry = .standard) {steps : Nat}
    (ht : p.document.ShowsRoot t₀) (htop : t₀.content.isElement)
    {e : NodeId × Content} (he : e ∈ t₀.nodes) (hfaulty : e.2.isFaulty s)
    (h : g.resolveKinds directories s policy steps Marker.all p = .ok p') :
    ∃ t, p'.document.ShowsRoot t ∧ t.content.isElement ∧
      ∀ c, (e.1, c) ∈ t.nodes → c = e.2 := by
  have hlow : e.1 < p.document.size := ht.lt_size (List.mem_map_of_mem he)
  have hheld : ∀ c, (e.1, c) ∈ t₀.nodes → c = e.2 := by
    intro c hc
    have hsame := (ht.content hc).symm.trans (ht.content he)
    exact Option.some.inj hsame
  have hlast := of_resolveKinds (I := fun p => ∃ t, p.document.ShowsRoot t ∧
    t.content.isElement ∧ e.1 < p.document.size ∧ ∀ c, (e.1, c) ∈ t.nodes → c = e.2) ?_ h
      ⟨t₀, ht, htop, hlow, hheld⟩
  · obtain ⟨t, ht, htop, -, hheld⟩ := hlast
    exact ⟨t, ht, htop, hheld⟩
  · rintro m - p p' ⟨t, ht, htop, hlow, hheld⟩ hstep
    obtain ⟨t', hresolves, hsize, ht'⟩ := hstep.exists_resolves (.inl hregistry) ht htop
    exact ⟨t', ht', hresolves.content ▸ htop, Nat.lt_of_lt_of_le hlow hsize,
      hresolves.eq_of_isFaulty hlow hfaulty hheld⟩

/-! ## Generating a policy -/

section Generating

variable {definition : String} {d : Document} {t : Placed} {e : NodeId × Content}
  {resolvers resolvers' : ResolverChain} {policy : Policy} {generated : GeneratedPolicy}

/-- While nothing is displaced, a faulty marker is met. -/
theorem exists_error_of_isFaulty (hregistry : g.registry = .standard)
    (hparse : Document.parse definition = .ok d) (ht : d.ShowsRoot t)
    (htop : t.content.isElement) (he : e ∈ t.elementsBelow) (hfaulty : e.2.isFaulty s)
    (hquiet : t.displaces s = false) (resolvers : ResolverChain) (policy : Policy) :
    ∃ fault, g.generateWith directories resolvers s policy definition = .error fault := by
  cases hgenerate : g.generateWith directories resolvers s policy definition with
  | error fault => exact ⟨fault, rfl⟩
  | ok made =>
      obtain ⟨generated, resolvers'⟩ := made
      obtain ⟨d', final, hparse', hfinal, -⟩ := generateWith_eq_ok hgenerate
      rw [hparse, Except.ok.injEq] at hparse'
      subst hparse'
      obtain ⟨t', ht', -, hcount⟩ := tallyBelow_isFaulty hregistry ht htop hquiet hfinal
      have hsettled := isSettled_of_resolveKinds (.inl hregistry) (sound_start hparse)
        (references_lt_steps hparse) hfinal ht'
      have hnone : t'.tallyBelow (Content.isFaulty s) = 0 := by
        refine List.countP_eq_zero.mpr fun e he => ?_
        rw [(hsettled e he).isFaulty]
        exact Bool.false_ne_true
      have hsome : 0 < t.tallyBelow (Content.isFaulty s) :=
        List.countP_pos_iff.mpr ⟨e, he, hfaulty⟩
      omega

/-- A policy that is generated has lost every faulty marker below the root. -/
theorem exists_final_of_isFaulty (hregistry : g.registry = .standard)
    (hparse : Document.parse definition = .ok d) (ht : d.ShowsRoot t)
    (htop : t.content.isElement) (he : e ∈ t.elementsBelow) (hfaulty : e.2.isFaulty s)
    (hgenerate : g.generateWith directories resolvers s policy definition =
      .ok (generated, resolvers')) :
    ∃ final, g.resolveKinds directories s policy.name (d.size + addedReferenceLimit)
        Marker.all (start d resolvers) = .ok final ∧
      generated.definition = final.document.serialize ∧
      e.1 ∉ final.document.descendants final.document.root := by
  obtain ⟨d', final, hparse', hfinal, hdefinition⟩ := generateWith_eq_ok hgenerate
  rw [hparse, Except.ok.injEq] at hparse'
  subst hparse'
  have hmem := Document.ShowsRoot.mem_nodes_of_mem_elementsBelow he
  obtain ⟨t', ht', -, hheld⟩ := content_of_isFaulty hregistry ht htop hmem hfaulty hfinal
  refine ⟨final, hfinal, hdefinition, fun hmet => ?_⟩
  rw [ht'.descendants] at hmet
  obtain ⟨e', he', heq⟩ := List.mem_map.mp hmet
  have hmem' := Document.ShowsRoot.mem_nodes_of_mem_elementsBelow he'
  have hcontent : e'.2 = e.2 := by
    apply hheld
    rw [← heq]
    exact hmem'
  have hsettled := isSettled_of_resolveKinds (.inl hregistry) (sound_start hparse)
    (references_lt_steps hparse) hfinal ht' e' he'
  rw [← hcontent, hsettled.isFaulty] at hfaulty
  cases hfaulty

end Generating

/-- A definition with a faulty marker below the root is rejected if none of its actions is
displaced, and a policy that is generated all the same has lost the marker.  The root is
not checked: where no marker is below it, nothing is rejected. -/
theorem faulty_rejected (hregistry : g.registry = .standard) {definition : String}
    {d : Document} (hparse : Document.parse definition = .ok d) (resolvers : ResolverChain)
    (policy : Policy) :
    ∃ t : Placed, d.Shows [t] ∧ d.root = t.id ∧
      (∀ e ∈ t.elementsBelow, e.2.isFaulty s → t.displaces s = false →
        ∃ fault, g.generateWith directories resolvers s policy definition = .error fault) ∧
      (∀ e ∈ t.elementsBelow, e.2.isFaulty s → ∀ generated resolvers',
        g.generateWith directories resolvers s policy definition = .ok (generated, resolvers') →
          ∃ final, g.resolveKinds directories s policy.name (d.size + addedReferenceLimit)
              Marker.all (start d resolvers) = .ok final ∧
            generated.definition = final.document.serialize ∧
            e.1 ∉ final.document.descendants final.document.root) ∧
      ((∀ e ∈ t.elementsBelow, e.2.marker? = none) → ∀ resources,
        s.resourceContents policy = .ok resources →
          ∃ generated, g.generateWith directories resolvers s policy definition =
            .ok (generated, resolvers)) := by
  obtain ⟨t, hshows, hroot, htop⟩ := Document.exists_shows_of_parse hparse
  have ht : d.ShowsRoot t := ⟨hroot, [], hshows⟩
  refine ⟨t, hshows, hroot, ?_, ?_, ?_⟩
  · intro e he hfaulty hquiet
    exact exists_error_of_isFaulty hregistry hparse ht htop he hfaulty hquiet resolvers policy
  · intro e he hfaulty generated resolvers' hgenerate
    exact exists_final_of_isFaulty hregistry hparse ht htop he hfaulty hgenerate
  · intro hnone resources hresources
    have hsettled : ∀ e ∈ t.elementsBelow, e.2.IsSettled := by
      intro e he m hname
      have hmarker := hnone e he
      rw [Content.marker_eq_some.mpr hname] at hmarker
      cases hmarker
    exact ⟨_, generateWith_of_isSettled resolvers hresources hparse ht hsettled⟩

/-- A definition with a marker that has no URI. -/
def missingUri : String :=
  "<a><to/></a>"

/-- The tree of that definition. -/
def missingUriTree : Placed :=
  .node 0 (.element "a" []) [.node 1 (.element "to" []) []]

/-- The document of that definition. -/
def missingUriDocument : Document :=
  ⟨#[⟨.element "a" [], none, [1]⟩, ⟨.element "to" [], some 0, []⟩], 0⟩

/-- The marker is rejected. -/
theorem faulty_rejected_missing :
    ∃ fault, generateWith ⟨.standard, .empty, .empty⟩ (fun _ => false) .empty batchingSnapshot
      { name := "p" } missingUri = .error fault := by
  have hparse : Document.parse missingUri = .ok missingUriDocument :=
    Outcome.of_toOption_eq_some (by decide +kernel)
  have hstored : missingUriDocument.ShowsRoot missingUriTree := by
    refine ⟨rfl, [], ⟨?_, ?_⟩⟩
    · intro t ht
      rw [List.mem_singleton.mp ht]
      unfold Document.Stores
      decide
    · decide
  obtain ⟨t, hshows, hroot, hrejected, -⟩ :=
    @faulty_rejected ⟨.standard, .empty, .empty⟩ (fun _ => false) batchingSnapshot rfl _ _ hparse
      .empty { name := "p" }
  have htree : t = missingUriTree := Document.ShowsRoot.unique ⟨hroot, [], hshows⟩ hstored
  subst htree
  apply hrejected (1, .element "to" [])
  · simp [missingUriTree, Placed.elementsBelow]
  · decide
  · decide

end Generator

end RouteCompiler
