import RouteCompiler.Proofs.Generation.Preservation

/-!
# Steps that displace nothing

A step never adds an element that is not settled.  Where it displaces no action it loses
none either: of the elements below the root that still have to be resolved, only the
reference of the step is gone.

Main definitions:

- `Placed.firstBelow`: the marker that a step resolves.

Main results:

- Theorem `Expands.tally_eq`: rounds of an expansion that displaces nothing lose nothing.
- Theorem `Resolves.tallyBelow_eq`: how a step that displaces nothing changes the number of
  elements that are not settled.
- Theorem `Resolves.displaces_eq_false`: what displaced nothing before a step displaces
  nothing after it.
- Theorem `of_resolveKinds_quiet`: what steps that displace nothing keep, the loops keep.
-/

namespace RouteCompiler

open RouteCompiler.Route

namespace Route

section Quiet

variable {P : Content → Bool} {s : Snapshot} {low k : Nat} {f : Frame} {fs fs' : List Frame}

/-- An expansion that displaces nothing keeps all elements behind the consumer. -/
theorem tally_result_eq (hP : Foreign P) {y : Expansion}
    {behind : List Placed} (hy : y.Fits low (!(Placed.comesNext s behind).isEmpty))
    (hquiet : Placed.hasLateSlot (Placed.contained s behind) = false) (maxRetry : Nat)
    {uri : String}
    (hsender : P (.element Marker.oneWayProducer.tagName [⟨Uri.attributeKey, uri⟩]) = false) :
    Placed.tally P (y.result s maxRetry uri behind) = Placed.tally P behind :=
  Expansion.tally_result_of_quiet hP.eq_false_of_isInert hsender hy hquiet maxRetry

/-- Rounds of an expansion that displaces nothing keep all elements. -/
theorem Expands.tally_eq (hP : ∀ c, c.IsSettled → P c = false) {uri : String}
    (huri : Uri.isLogical uri = false) (h : Expands s uri low k fs fs') (hopen : Open fs)
    (hquiet : Placed.displacedBy s k (following fs) = false) (t : Placed) :
    Placed.tally P [plug fs' t] = Placed.tally P [plug fs t] := by
  induction h with
  | done fs => rfl
  | @round k maxRetry y f fs fs' bs hleads hdistinct hfits hbeans hrest ih =>
      have hcontained : Placed.hasLateSlot (Placed.contained s f.right) = false :=
        Placed.hasLateSlot_contained hquiet
      have hlater : Placed.displacedBy s k (y.result s maxRetry uri f.right) = false := by
        rw [Placed.displacedBy_result hfits hcontained]
        exact hquiet
      have hround := tally_round hP hbeans hleads hopen (y.result s maxRetry uri f.right) t
      have hforeign : Foreign P := .of_isSettled hP
      have hresult := tally_result_eq hforeign hfits hcontained maxRetry
        (hforeign.sender uri huri)
      have hlast := ih hround.1 hlater
      omega

/-- Batching that displaces nothing keeps all elements. -/
theorem Batched.tally_eq (hP : ∀ c, c.IsSettled → P c = false) {e : Endpoint}
    {entries : List Characteristic} {u t' : Placed} {m : Marker}
    (h : Batched s low e entries (f :: fs) u m t') (hopen : Open (f :: fs))
    (hu : u.content.IsPhysical)
    (hquiet : m = .consumer → leads (f :: fs) = true →
      Placed.displacedBy s entries.length f.right = false) :
    Placed.tally P [t'] = Placed.tally P [plug (f :: fs) u] := by
  cases h with
  | producer => rfl
  | aside hleads => rfl
  | expanded hleads hexpands =>
      obtain ⟨uri, huri, hphysical⟩ := hu
      rw [huri] at hexpands
      exact hexpands.tally_eq hP hphysical hopen (hquiet rfl hleads) u
  | enclosed hsettings has hn => exact tally_batchedAt hP hopen u _ _

/-- A consumer that is resolved in a tree where nothing is displaced displaces nothing. -/
theorem displacedBy_eq_false {x : NodeId} {c : Content} {cs : List Placed} {e : Endpoint}
    (hready : Ready s (f :: fs)) (hc : c.isElement)
    (htarget : c.target? s = some (.consumer, e)) (hleads : leads (f :: fs) = true)
    (hquiet : (plug (f :: fs) (.node x c cs)).displaces s = false) :
    Placed.displacedBy s e.batching.length f.right = false := by
  by_contra hdisplaced
  rw [Bool.not_eq_false] at hdisplaced
  have hexpansions : c.expansions s = e.batching := by
    rw [Content.expansions, htarget]
  rw [← hexpansions] at hdisplaced
  have htrue := hready.displaces_of_leads (u := .node x c cs) hc hleads hdisplaced
  rw [hquiet] at htrue
  cases htrue

variable {m : Marker} {t t' : Placed}

/-- The first marker of a kind below the top that still has to be resolved. -/
def Placed.firstBelow (m : Marker) (t : Placed) : Option (NodeId × Content) :=
  t.elementsBelow.find? fun e => e.2.isUnresolved m

theorem Placed.firstBelow_eq {before behind : List (NodeId × Content)} {x : NodeId} {c : Content}
    {uri : String} (h : t.elementsBelow = before ++ (x, c) :: behind)
    (hname : c.name? = some m.tagName) (huri : c.attribute? Uri.attributeKey = some uri)
    (hlogical : Uri.isLogical uri = true)
    (hbefore : ∀ e ∈ before, e.2.name? = some m.tagName → e.2.IsPhysical) :
    t.firstBelow m = some (x, c) := by
  refine List.find?_eq_some_iff_append.mpr ⟨?_, before, behind, h, fun e he => ?_⟩
  · simp [Content.isUnresolved, hname, huri, hlogical]
  · simpa using Content.isUnresolved_eq_false.mpr (hbefore e he)

/-- A step that displaces nothing keeps all elements that are not settled, apart from the
reference that it resolves. -/
theorem Resolves.tallyBelow_eq (h : Resolves s Endpoint.batching low m t t')
    (htop : t.content.isElement) (hquiet : m = .consumer → t.displaces s = false)
    (hP : ∀ c, c.IsSettled → P c = false) :
    ∃ x c e, t.firstBelow m = some (x, c) ∧ c.target? s = some (m, e) ∧
      t'.tallyBelow P + (if P c then 1 else 0) = t.tallyBelow P := by
  have hcontent := h.content
  cases h with
  | @step f fs x c cs uri name e t' hopen hname huri hlogical hfirst hendpoint he hphysical
      hbatched =>
      have htarget := Content.target_eq_some hname huri hendpoint he
      have hc : c.isElement := Content.isElement_of_name hname
      have hset := isPhysical_setAttribute hc hphysical
      have hc' : (c.setAttribute Uri.attributeKey
          (Uri.appendOptions e.uri (e.options m.role))).isElement := by
        simpa [Content.isElement] using hc
      have hkept := hbatched.tally_eq hP hopen hset fun hm hleads => by
        subst hm
        exact displacedBy_eq_false (ready_of_first hopen hfirst) hc htarget hleads (hquiet rfl)
      have hsettle := tally_settle hopen hc hc' (hP _ hset.isSettled) x cs
      rw [Placed.tally_eq_tallyBelow htop] at hsettle
      rw [Placed.tally_eq_tallyBelow (hcontent ▸ htop), hcontent] at hkept
      have helements : (plug (f :: fs) (.node x c cs)).elementsBelow =
          (elementsBefore (f :: fs)).tail ++
            (x, c) :: (cs.flatMap Placed.elements ++ elementsBehind (f :: fs)) := by
        rw [elementsBelow_plug hopen, Placed.elements_of_isElement hc, List.append_assoc]
        rfl
      exact ⟨x, c, e, Placed.firstBelow_eq helements hname huri hlogical hfirst, htarget, by omega⟩

/-- Where a step that displaces nothing collects what its reference brings, what is
collected and what the references bring that are left stay the same together. -/
theorem Resolves.collects (h : Resolves s Endpoint.batching low m t t')
    (htop : t.content.isElement) (hquiet : m = .consumer → t.displaces s = false)
    (hP : ∀ c, c.IsSettled → P c = false) {collected collected' : Prop}
    (hcollected : ∀ x c, t.firstBelow m = some (x, c) → (collected' ↔ collected ∨ P c = true)) :
    collected' ∨ 0 < t'.tallyBelow P ↔ collected ∨ 0 < t.tallyBelow P := by
  obtain ⟨x, c, e, hfirst, -, hcount⟩ := h.tallyBelow_eq htop hquiet hP
  rw [hcollected x c hfirst, ← hcount]
  by_cases hc : P c = true
  · simp [hc]
  · simp [hc]

theorem Placed.tallyBelow_pos : 0 < t.tallyBelow P ↔ ∃ e ∈ t.elementsBelow, P e.2 = true := by
  rw [Placed.tallyBelow, List.countP_pos_iff]

/-- Where nothing is displaced, resolving consumers keeps it so. -/
theorem Resolves.displaces_eq_false (h : Resolves s Endpoint.batching low .consumer t t')
    (hnodup : t.ids.Nodup) (hlow : ∀ x ∈ t.ids, x < low) (hquiet : t.displaces s = false) :
    t'.displaces s = false := by
  rcases h.preserves_or_loses hnodup hlow with hpreserves | ⟨hdisplaces, -⟩
  · rw [hpreserves.verdict]
    exact hquiet
  · rw [hquiet] at hdisplaces
    cases hdisplaces

end Quiet

end Route

namespace Generator

open RouteCompiler.Route

variable {g : Generator} {directories : Directories} {s : Snapshot} {policy : String}
  {m : Marker} {p p' : Progress} {t₀ : Placed}

/-- A step resolves the first reference of its kind, and applies the characteristics of the
endpoint that it names. -/
theorem Step.exists_first {t : Placed} (ht : p.document.ShowsRoot t)
    (h : Step g directories s policy m p p') :
    ∃ x c e p₁, t.firstBelow m = some (x, c) ∧ c.target? s = some (m, e) ∧
      applyAll g.registry s policy e x ⟨p.document.setAttribute x Uri.attributeKey
          (Uri.appendOptions e.uri (e.options m.role)), p.packages, p.issues, p.resolvers⟩
        e.characteristics = .ok p₁ ∧
      p' = ⟨p₁.document, (p₁.packages.union e.dependencies).union
          (p₁.resolvers.packagesForUri directories
            (Uri.appendOptions e.uri (e.options m.role))).1, p₁.issues,
        (p₁.resolvers.packagesForUri directories
          (Uri.appendOptions e.uri (e.options m.role))).2⟩ := by
  obtain ⟨x, uri, hnext, hresolve⟩ := h
  obtain ⟨c, before, behind, helements, hname, huri, hlogical, hfirst⟩ :=
    nextReference_eq_some ht hnext
  obtain ⟨name, e, p₁, hendpoint, he, -, happly, hp'⟩ := resolveElement_eq_ok hresolve
  exact ⟨x, c, e, p₁, Placed.firstBelow_eq helements hname huri hlogical hfirst,
    Content.target_eq_some hname huri hendpoint he, happly, hp'⟩

/-! ## Runs that displace nothing -/

/-- What every step keeps that displaces nothing, the loops keep on a tree where nothing is
displaced. -/
theorem of_resolveKinds_quiet (hregistry : g.registry = .standard) {I : Placed → Progress → Prop}
    (hstep : ∀ m t t' p p', I t p → p.document.ShowsRoot t →
      t.content.isElement → Resolves s Endpoint.batching p.document.size m t t' →
      (m = .consumer → t.displaces s = false) → Step g directories s policy m p p' → I t' p')
    {steps : Nat} (ht : p.document.ShowsRoot t₀) (htop : t₀.content.isElement)
    (hquiet : t₀.displaces s = false) (hI : I t₀ p)
    (h : g.resolveKinds directories s policy steps Marker.all p = .ok p') :
    ∃ t, p'.document.ShowsRoot t ∧ t.content.isElement ∧ I t p' := by
  have hall : Marker.all = .consumer :: [.producer, .oneWayProducer] := rfl
  rw [hall] at h
  obtain ⟨p₁, hkind, hrest⟩ := Outcome.of_bind_eq_ok h
  -- Consumers may be expanded, so that nothing is displaced is kept along with the rest.
  have hconsumers : ∃ t, p₁.document.ShowsRoot t ∧ t.content.isElement ∧
      t.displaces s = false ∧ I t p₁ := by
    refine of_resolveKind (I := fun p => ∃ t, p.document.ShowsRoot t ∧ t.content.isElement ∧
      t.displaces s = false ∧ I t p) ?_ hkind ⟨t₀, ht, htop, hquiet, hI⟩
    rintro p p' ⟨t, ht, htop, hquiet, hI⟩ h
    obtain ⟨t', hresolves, -, ht'⟩ := h.exists_resolves (.inl hregistry) ht htop
    rw [hregistry, funext entries_standard] at hresolves
    have hquiet' := hresolves.displaces_eq_false ht.nodup (fun x hx => ht.lt_size hx) hquiet
    exact ⟨t', ht', hresolves.content ▸ htop, hquiet',
      hstep _ t t' p p' hI ht htop hresolves (fun _ => hquiet) h⟩
  obtain ⟨t, ht, htop, -, hI⟩ := hconsumers
  refine of_resolveKinds (I := fun p => ∃ t, p.document.ShowsRoot t ∧ t.content.isElement ∧
    I t p) ?_ hrest ⟨t, ht, htop, hI⟩
  rintro m hm p p' ⟨t, ht, htop, hI⟩ h
  obtain ⟨t', hresolves, -, ht'⟩ := h.exists_resolves (.inl hregistry) ht htop
  rw [hregistry, funext entries_standard] at hresolves
  refine ⟨t', ht', hresolves.content ▸ htop, hstep _ t t' p p' hI ht htop hresolves ?_ h⟩
  rintro rfl
  simp at hm

end Generator

end RouteCompiler
