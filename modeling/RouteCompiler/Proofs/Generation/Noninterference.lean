import RouteCompiler.Proofs.Generation.Exhaustion
import RouteCompiler.Proofs.Generation.Remembering
import RouteCompiler.Proofs.Model.Names

/-!
# What a policy depends on

Generation consults the snapshot for the endpoint of each reference, and once more
when it parts what follows a consumer.  Every marker that it meets there was in the
definition, or was added with a URI that is not logical.  So the names that it ever
looks up are those to which the definition refers, and two snapshots that agree on
them cannot be told apart.

Main definitions:

- `Content.tellsApart`: the markers by which two snapshots could be told apart.
- `Snapshot.AgreesFor`: two snapshots agree in what concerns one policy.

Main results:

- Theorem `resolveKinds_congr`: the loops over the markers run alike on two
  snapshots that no reference tells apart.
- Theorem `unrelated_data_ignored`: a policy, or the error, is the same for all
  snapshots that agree in what concerns it.
-/

namespace RouteCompiler

open RouteCompiler.Route

namespace Route

/-! ## Telling snapshots apart -/

namespace Content

variable {s s' : Snapshot} {c : Content}

/-- The name of the endpoint to which the URI of an element refers. -/
def endpointName? (c : Content) : Option String :=
  (c.attribute? Uri.attributeKey).bind Uri.endpointName?

/-- Whether this is a marker that refers to an endpoint in which two snapshots
differ. -/
def tellsApart (s s' : Snapshot) (c : Content) : Bool :=
  c.marker?.isSome && c.endpointName?.any fun name => s.endpoint? name != s'.endpoint? name

/-- What is settled refers to nothing, so it tells no snapshots apart. -/
theorem IsSettled.tellsApart (h : c.IsSettled) (s s' : Snapshot) :
    c.tellsApart s s' = false := by
  cases hmarker : c.marker? with
  | none => simp [Content.tellsApart, hmarker]
  | some m =>
      obtain ⟨uri, huri, hphysical⟩ := h m (marker_eq_some.mp hmarker)
      have hnone : Uri.afterScheme? uri = none := by
        simpa [Uri.isLogical] using hphysical
      simp [Content.tellsApart, Content.endpointName?, huri, Uri.endpointName?, hnone]

/-- The endpoint of a marker that tells no snapshots apart. -/
theorem endpoint_congr {m : Marker} {name : String} (h : c.tellsApart s s' = false)
    (hmarker : c.name? = some m.tagName) (hname : c.endpointName? = some name) :
    s.endpoint? name = s'.endpoint? name := by
  simpa [tellsApart, marker_eq_some.mpr hmarker, hname] using h

/-- A marker that tells no snapshots apart is looked up alike in both. -/
theorem resolveFor_congr {m : Marker} {uri : String} (h : c.tellsApart s s' = false)
    (hmarker : c.name? = some m.tagName) (huri : c.attribute? Uri.attributeKey = some uri) :
    s.resolveFor m uri = s'.resolveFor m uri := by
  rw [Snapshot.resolveFor, Snapshot.resolveFor]
  cases hendpoint : Uri.endpointName? uri with
  | none => rfl
  | some name =>
      have hname : c.endpointName? = some name := by
        rw [endpointName?, huri]
        exact hendpoint
      dsimp only
      rw [endpoint_congr h hmarker hname]

/-- Both snapshots agree on whether this sends to a batching endpoint. -/
theorem sendsToBatch_congr (h : c.tellsApart s s' = false) :
    c.sendsToBatch s = c.sendsToBatch s' := by
  by_cases hmarker : c.name? = some Marker.oneWayProducer.tagName
  · cases hname : c.endpointName? with
    | none =>
        rw [endpointName?] at hname
        simp [sendsToBatch, hname]
    | some name =>
        have hendpoint := endpoint_congr h hmarker hname
        rw [endpointName?] at hname
        simp [sendsToBatch, hname, hendpoint]
  · have hother : (c.name? == some Marker.oneWayProducer.tagName) = false := by
      simpa using hmarker
    rw [sendsToBatch, sendsToBatch, hother, Bool.false_and, Bool.false_and]

end Content

namespace Placed

/-- No marker below the top tells two snapshots apart. -/
def Agrees (s s' : Snapshot) (t : Placed) : Prop :=
  ∀ e ∈ t.elementsBelow, e.2.tellsApart s s' = false

variable {s s' : Snapshot} {f : Frame} {fs : List Frame} {t u : Placed}

/-- An element may be settled where it stands. -/
theorem Agrees.settle {x : NodeId} {c c' : Content} {cs : List Placed} (hopen : Open (f :: fs))
    (hc : c.isElement) (hc' : c'.isElement) (hsettled : c'.IsSettled)
    (h : (plug (f :: fs) (.node x c cs)).Agrees s s') :
    (plug (f :: fs) (.node x c' cs)).Agrees s s' := by
  intro b hb
  rw [elementsBelow_plug hopen, elements_of_isElement hc'] at hb
  rw [Agrees, elementsBelow_plug hopen, elements_of_isElement hc] at h
  simp only [List.mem_append, List.mem_cons] at hb h
  rcases hb with (hb | rfl | hb) | hb
  · exact h b (.inl (.inl hb))
  · exact hsettled.tellsApart s s'
  · exact h b (.inl (.inr (.inr hb)))
  · exact h b (.inr hb)

theorem agrees_iff : t.Agrees s s' ↔ t.tallyBelow (Content.tellsApart s s') = 0 := by
  rw [Agrees, tallyBelow, List.countP_eq_zero]
  exact forall₂_congr fun e he => by rw [Bool.not_eq_true]

/-- Nothing right behind a place tells the snapshots apart. -/
theorem Agrees.right (h : (plug (f :: fs) u).Agrees s s') (hopen : Open (f :: fs)) :
    ∀ v ∈ f.right, v.content.tellsApart s s' = false := by
  intro v hv
  obtain ⟨x, c, cs⟩ := v
  cases c with
  | text value => simp [Content.tellsApart, Content.marker?, Content.name?]
  | element name attributes =>
      refine h (x, .element name attributes) ?_
      rw [elementsBelow_plug hopen, elementsBehind]
      refine List.mem_append_right _ (List.mem_append_left _ ?_)
      exact List.mem_flatMap.mpr ⟨_, hv, by simp⟩

/-- Both snapshots part what follows a place in the same way. -/
theorem parts_congr {ts : List Placed}
    (h : ∀ v ∈ ts, v.content.sendsToBatch s = v.content.sendsToBatch s') :
    contained s ts = contained s' ts ∧ comesNext s ts = comesNext s' ts := by
  have hsends : ∀ v ∈ ts.reverse, v.content.sendsToBatch s = v.content.sendsToBatch s' :=
    fun v hv => h v (List.mem_reverse.mp hv)
  have hdrop := dropWhile_map_congr (f := fun v : Placed => v)
    (p := fun v => v.content.sendsToBatch s) hsends
  have htake := takeWhile_map_congr (f := fun v : Placed => v)
    (p := fun v => v.content.sendsToBatch s) hsends
  rw [List.map_id', List.map_id'] at hdrop htake
  rw [contained, contained, comesNext, comesNext, hdrop, htake]
  exact ⟨rfl, rfl⟩

end Placed

/-! ## Batching -/

section Batching

variable {s s' : Snapshot} {policy : String} {e : Endpoint} {f : Frame} {fs : List Frame}
  {d : Document} {u : Placed}

/-- Batching a place does the same for both snapshots. -/
theorem process_congr (h : d.ShowsRoot (plug (f :: fs) u)) (hopen : Open (f :: fs))
    (hu : u.content.isElement) (hagrees : (plug (f :: fs) u).Agrees s s')
    (entry : Characteristic) :
    BatchRetry.process ⟨policy, s, e, entry⟩ d u.id =
      BatchRetry.process ⟨policy, s', e, entry⟩ d u.id := by
  have hroute := h.among.leadingRoute hu
  have hplace : d.ShowsRoot (plug fs (.node f.id f.content (f.left ++ u :: f.right))) := by
    simpa [plug, Frame.fill] using h
  have hparts : BatchRetry.partitionActions s d f.id u.id =
      BatchRetry.partitionActions s' d f.id u.id := by
    obtain ⟨hcontained, hnext⟩ := Placed.parts_congr fun v hv =>
      Content.sendsToBatch_congr (hagrees.right hopen v hv)
    rw [hplace.among.partitionActions s, hplace.among.partitionActions s', hcontained, hnext]
  have hspread (maxRetry : Nat) : BatchRetry.spread s d f.id u.id maxRetry =
      BatchRetry.spread s' d f.id u.id maxRetry := by
    rw [BatchRetry.spread, BatchRetry.spread, hparts]
  rw [BatchRetry.process, BatchRetry.process]
  cases (d.name? u.id).bind Marker.ofTagName? with
  | none => rfl
  | some m =>
      cases m with
      | producer => rfl
      | oneWayProducer => rfl
      | consumer =>
          simp only [BatchRetry.processConsumer, hroute]
          split
          · rfl
          · next route hleads =>
            split at hleads
            · obtain rfl : f.id = route := by simpa using hleads
              simp only [hspread]
            · cases hleads

/-- An element inside aggregations stands at the end of the innermost one. -/
theorem exists_plug_enclosedIn (as : List (NodeId × Nat × Nat)) (u : Placed) :
    ∃ gs, Open gs ∧ ∀ fs, plug fs (u.enclosedIn as) = plug (gs ++ fs) u := by
  induction as with
  | nil => exact ⟨[], by simp [Open], fun fs => rfl⟩
  | cons a as ih =>
      obtain ⟨gs, hopen, hplug⟩ := ih
      refine ⟨gs ++ [Placed.aggregate a.1 a.2.1 a.2.2], ?_, fun fs => ?_⟩
      · intro g hg
        rcases List.mem_append.mp hg with hg | hg
        · exact hopen g hg
        · rw [List.mem_singleton.mp hg]
          rfl
      · have hstep : u.enclosedIn (a :: as) = (u.enclosedIn as).enclosed a.1 a.2.1 a.2.2 := rfl
        rw [hstep, ← Placed.fill_aggregate, List.append_assoc, List.singleton_append, ← hplug]
        rfl

/-- An element that was expanded stands at a place below the top again. -/
theorem Expands.exists_cons {uri : String} {low k : Nat} {fs' : List Frame}
    (h : Expands s uri low k fs fs') (hopen : Open fs) (hne : fs ≠ []) :
    ∃ g gs, fs' = g :: gs ∧ Open (g :: gs) := by
  induction h with
  | done fs =>
      obtain ⟨g, gs, rfl⟩ := List.exists_cons_of_ne_nil hne
      exact ⟨g, gs, rfl, hopen⟩
  | @round k maxRetry y f fs fs' bs hleads hdistinct hfits hbeans hrest ih =>
      have hround := tally_round (P := fun _ => false) (fun _ _ => rfl) hbeans hleads hopen
        (y.result s maxRetry uri f.right) (.node 0 (.text "") [])
      exact ih hround.1 (List.cons_ne_nil _ _)

/-- An element that was batched stands at a place below the top again. -/
theorem Batched.exists_plug {low : Nat} {entries : List Characteristic} {m : Marker}
    {t' : Placed} (h : Batched s low e entries (f :: fs) u m t') (hopen : Open (f :: fs)) :
    ∃ g gs, Open (g :: gs) ∧ t' = plug (g :: gs) u := by
  cases h with
  | producer => exact ⟨f, fs, hopen, rfl⟩
  | aside hleads => exact ⟨f, fs, hopen, rfl⟩
  | expanded hleads hexpands =>
      obtain ⟨g, gs, rfl, hopen'⟩ := hexpands.exists_cons hopen (List.cons_ne_nil _ _)
      exact ⟨g, gs, hopen', rfl⟩
  | @enclosed as n hsettings has hn =>
      cases as with
      | nil => exact ⟨f, fs, hopen, rfl⟩
      | cons a as =>
          obtain ⟨f', fs', hopen', hbean⟩ :=
            Document.ShowsRoot.exists_plug_withAggregator hopen n (u.enclosedIn (a :: as))
          obtain ⟨gs, hinner, hplug⟩ := exists_plug_enclosedIn (a :: as) u
          have hplace : u.batchedAt (f :: fs) n (a :: as) = plug (gs ++ f' :: fs') u := by
            rw [Placed.batchedAt, (hbean _ rfl).1, hplug]
          have hall : Open (gs ++ f' :: fs') := by
            intro g hg
            rcases List.mem_append.mp hg with hg | hg
            · exact hinner g hg
            · exact hopen' g hg
          obtain ⟨g, ks, hcons⟩ := List.exists_cons_of_ne_nil
            (List.append_ne_nil_of_right_ne_nil gs (List.cons_ne_nil f' fs'))
          rw [hcons] at hplace hall
          exact ⟨g, ks, hall, hplace⟩

/-- Batching brings nothing that tells the snapshots apart. -/
theorem Batched.agrees {low : Nat} {entries : List Characteristic} {m : Marker} {t' : Placed}
    {s₀ : Snapshot} (h : Batched s₀ low e entries (f :: fs) u m t') (hopen : Open (f :: fs))
    (hu : u.content.IsPhysical) (hagrees : (plug (f :: fs) u).Agrees s s') :
    t'.Agrees s s' := by
  have htop : (plug (f :: fs) u).content.isElement :=
    content_plug_isElement (fun g hg => hopen g (by simp [hg])) (t := f.fill [u])
      (hopen f (by simp))
  have hcontent := h.content (List.cons_ne_nil f fs)
  have hle := h.tally_le (P := Content.tellsApart s s')
    (fun c hc => hc.tellsApart s s') hopen hu
  rw [Placed.tally_eq_tallyBelow htop, Placed.tally_eq_tallyBelow (hcontent ▸ htop),
    hcontent] at hle
  rw [Placed.agrees_iff] at hagrees ⊢
  omega

end Batching

end Route

namespace Generator

variable {g : Generator} {directories : Directories} {s s' : Snapshot} {policy : String}
  {e : Endpoint} {m : Marker} {p p' : Progress} {f : Frame} {fs : List Frame} {u : Placed}

/-! ## One reference -/

/-- Applying characteristics does the same for both snapshots. -/
theorem applyAll_congr (ht : p.document.ShowsRoot (plug (f :: fs) u)) (hopen : Open (f :: fs))
    (hname : u.content.name? = some m.tagName) (hphysical : u.content.IsPhysical)
    (hagrees : (plug (f :: fs) u).Agrees s s') (cs : List Characteristic) :
    applyAll .standard s policy e u.id p cs = applyAll .standard s' policy e u.id p cs := by
  induction cs generalizing p f fs with
  | nil => rfl
  | cons c cs ih =>
      rw [applyAll, applyAll, applyCharacteristic, applyCharacteristic, Registry.find_standard]
      by_cases hkind : c.kind = BatchRetry.kindName
      · have hprocess : BatchRetry.processor.process ⟨policy, s, e, c⟩ p.document u.id =
            BatchRetry.processor.process ⟨policy, s', e, c⟩ p.document u.id :=
          process_congr ht hopen (Content.isElement_of_name hname) hagrees c
        rw [if_pos hkind]
        dsimp only
        rw [hprocess]
        refine Outcome.bind_congr fun p₁ hfirst => ?_
        obtain ⟨d, hd, hp₁⟩ := Outcome.of_bind_eq_ok hfirst
        have hall : batchAll s' policy e u.id p.document [c] = .ok d := by
          have honce : BatchRetry.process ⟨policy, s', e, c⟩ p.document u.id = .ok d := hd
          simp [batchAll, honce]
        obtain ⟨t', hbatched, -, hshows⟩ := exists_batched ht hopen hname hall
        obtain ⟨g, gs, hopen', rfl⟩ := hbatched.exists_plug hopen
        simp only [pure, Except.pure, Except.ok.injEq] at hp₁
        subst hp₁
        exact ih hshows hopen' (hbatched.agrees hopen hphysical hagrees)
      · rw [if_neg hkind]
        exact ih ht hopen hagrees

/-- The root is an element with a tree below it in which nothing tells two snapshots
apart. -/
def Agreed (s s' : Snapshot) (p : Progress) : Prop :=
  ∃ t : Placed, p.document.ShowsRoot t ∧ t.content.isElement ∧ t.Agrees s s'

/-- Resolving a reference brings nothing that tells the snapshots apart. -/
theorem Agreed.step (hregistry : g.registry = .standard) {s₀ : Snapshot}
    (hp : Agreed s s' p) (h : Step g directories s₀ policy m p p') : Agreed s s' p' := by
  obtain ⟨t, ht, htop, hagrees⟩ := hp
  obtain ⟨t', hresolves, -, ht'⟩ := h.exists_resolves (.inl hregistry) ht htop
  have hle := (hresolves.tallyBelow_le htop).1 (Content.tellsApart s s')
    fun c hc => hc.tellsApart s s'
  refine ⟨t', ht', hresolves.content ▸ htop, ?_⟩
  rw [Placed.agrees_iff] at hagrees ⊢
  omega

/-- A reference that is met is resolved alike for both snapshots. -/
theorem resolveElement_congr (hregistry : g.registry = .standard) (hp : Agreed s s' p)
    {x : NodeId} {uri : String} (hnext : nextReference p.document m = .ok (some (x, uri))) :
    g.resolveElement directories s policy m x uri p =
      g.resolveElement directories s' policy m x uri p := by
  obtain ⟨t, ht, htop, hagrees⟩ := hp
  obtain ⟨c, before, behind, helements, hname, huri, -, -⟩ := nextReference_eq_some ht hnext
  obtain ⟨f, fs, cs, rfl, hopen, -⟩ := exists_plug_of_elementsBelow_eq htop helements
  have hquiet : c.tellsApart s s' = false := hagrees (x, c) (by simp [helements])
  rw [resolveElement, resolveElement, Content.resolveFor_congr hquiet hname huri]
  cases s'.resolveFor m uri with
  | error fault => rfl
  | ok found =>
      cases found with
      | none => rfl
      | some resolution =>
          simp only [Outcome.ok_bind]
          split
          · rfl
          · next hphysical =>
            have hc := Content.isElement_of_name hname
            have hc' : (c.setAttribute Uri.attributeKey resolution.uri).isElement := by
              simpa [Content.isElement] using hc
            have hset := ht.modifyContent (Content.setAttribute Uri.attributeKey resolution.uri)
            have hsettled := isPhysical_setAttribute hc (by simpa using hphysical)
            have hagrees' := hagrees.settle hopen hc hc' hsettled.isSettled
            let p' : Progress :=
              { p with document := p.document.setAttribute x Uri.attributeKey resolution.uri }
            have happly (cs : List Characteristic) :
                applyAll .standard s policy resolution.endpoint x p' cs =
                  applyAll .standard s' policy resolution.endpoint x p' cs :=
              applyAll_congr (p := p') (m := m) hset hopen (by simpa using hname) hsettled hagrees'
                cs
            rw [hregistry, happly]

/-! ## All references -/

/-- The references of one kind are resolved alike for both snapshots. -/
theorem resolveKind_congr (hregistry : g.registry = .standard) (hp : Agreed s s' p)
    (m : Marker) (steps : Nat) :
    g.resolveKind directories s policy m steps p =
      g.resolveKind directories s' policy m steps p := by
  induction steps generalizing p with
  | zero => rfl
  | succ steps ih =>
      rw [resolveKind, resolveKind]
      refine Outcome.bind_congr fun found hnext => ?_
      cases found with
      | none => rfl
      | some found =>
          obtain ⟨x, uri⟩ := found
          dsimp only
          rw [resolveElement_congr hregistry hp hnext]
          refine Outcome.bind_congr fun p₁ hresolve => ?_
          exact ih (hp.step hregistry ⟨x, uri, hnext, hresolve⟩)

/-- The loops over the markers run alike for both snapshots. -/
theorem resolveKinds_congr (hregistry : g.registry = .standard) (hp : Agreed s s' p)
    (steps : Nat) (ms : List Marker) :
    g.resolveKinds directories s policy steps ms p =
      g.resolveKinds directories s' policy steps ms p := by
  induction ms generalizing p with
  | nil => rfl
  | cons m ms ih =>
      rw [resolveKinds, resolveKinds, resolveKind_congr hregistry hp]
      refine Outcome.bind_congr fun p₁ hkind => ?_
      refine ih (of_resolveKind (I := Agreed s s') (fun p p' hp hstep => ?_) hkind hp)
      exact hp.step hregistry hstep

end Generator

/-! ## What concerns a policy -/

/-- The names of the endpoints to which the references of a document refer. -/
def Route.Document.endpointNames (d : Document) : List String :=
  d.references.filterMap fun x => (d.attribute? x Uri.attributeKey).bind Uri.endpointName?

/-- The names of the endpoints to which a definition refers. -/
def endpointNames (definition : String) : List String :=
  match Document.parse definition with
  | .ok d => d.endpointNames
  | .error _ => []

namespace Snapshot

/-- Two snapshots agree in what concerns a policy and its definition: the contents of
the resources of the policy, and the endpoints to which the definition refers. -/
structure AgreesFor (s s' : Snapshot) (policy definition : String) : Prop where
  contents : ∀ resource, s.content? policy resource = s'.content? policy resource
  endpoints : ∀ name ∈ endpointNames definition, s.endpoint? name = s'.endpoint? name

/-- A snapshot with other endpoints. -/
def withEndpoints (s : Snapshot) (endpoints : List Endpoint) : Snapshot :=
  { s with group := { s.group with endpoints } }

variable {s s' : Snapshot} {policy definition : String}

/-- The resources of a policy have the same contents. -/
theorem AgreesFor.resourceContents {policy : Policy} (h : s.AgreesFor s' policy.name definition) :
    s.resourceContents policy = s'.resourceContents policy := by
  simp only [Snapshot.resourceContents, Snapshot.contentOf, h.contents]

/-- No marker of the definition tells the snapshots apart. -/
theorem AgreesFor.agrees {d : Document} {t : Placed} (h : s.AgreesFor s' policy definition)
    (hparse : Document.parse definition = .ok d) (ht : d.ShowsRoot t) : t.Agrees s s' := by
  intro e he
  by_contra hapart
  have hcontent := ht.content_of_mem he
  simp only [Content.tellsApart, Bool.not_eq_false, Bool.and_eq_true, Option.any_eq_true,
    bne_iff_ne] at hapart
  obtain ⟨hmarker, name, hname, hdiffer⟩ := hapart
  obtain ⟨uri, huri, hendpoint⟩ := Option.bind_eq_some_iff.mp hname
  have hlogical : Uri.isLogical uri = true := by
    obtain ⟨rest, hrest, -⟩ := Option.map_eq_some_iff.mp hendpoint
    rw [Uri.isLogical, hrest]
    rfl
  have hreference : e.2.isReference = true := by
    simp [Content.isReference, hmarker, huri, hlogical]
  have hlisted : e.1 ∈ d.references := by
    rw [ht.references]
    exact List.mem_map_of_mem (List.mem_filter.mpr ⟨he, hreference⟩)
  refine hdiffer (h.endpoints name ?_)
  rw [endpointNames, hparse]
  refine List.mem_filterMap.mpr ⟨e.1, hlisted, ?_⟩
  rw [Document.attribute_of_content hcontent, huri]
  exact hendpoint

/-- Endpoints of unique names may be listed in any order. -/
theorem agreesFor_of_perm {endpoints : List Endpoint} (h : (endpoints.map Endpoint.name).Nodup)
    (hperm : endpoints.Perm s.group.endpoints) :
    (s.withEndpoints endpoints).AgreesFor s policy definition :=
  ⟨fun _ => rfl, fun name _ => Names.find_perm h hperm name⟩

/-- Endpoints to which a definition does not refer may be added and left out
anywhere. -/
theorem agreesFor_of_filter {endpoints : List Endpoint}
    (h : (endpoints.filter fun e => (endpointNames definition).contains e.name) =
      s.group.endpoints.filter fun e => (endpointNames definition).contains e.name) :
    (s.withEndpoints endpoints).AgreesFor s policy definition := by
  refine ⟨fun _ => rfl, fun name hname => ?_⟩
  have hlisted : ∀ e : Endpoint, e.name = name →
      (endpointNames definition).contains e.name = true := by
    rintro e rfl
    exact List.contains_iff_mem.mpr hname
  have hfind (l : List Endpoint) :
      (l.filter fun e => (endpointNames definition).contains e.name).find?
        (fun e => e.name == name) = l.find? fun e => e.name == name :=
    Names.find_filter hlisted
  calc (s.withEndpoints endpoints).endpoint? name
      = (endpoints.filter _).find? fun e => e.name == name := (hfind endpoints).symm
    _ = (s.group.endpoints.filter _).find? fun e => e.name == name := by rw [h]
    _ = s.endpoint? name := hfind s.group.endpoints

/-- Policies, definitions and the resources of other policies may be any. -/
theorem agreesFor_of_resources (hendpoints : s.group.endpoints = s'.group.endpoints)
    (hresources : s.resources.find? policy = s'.resources.find? policy) :
    s.AgreesFor s' policy definition := by
  refine ⟨fun resource => ?_, fun name _ => ?_⟩
  · rw [content?, content?, hresources]
  · rw [endpoint?, endpoint?, Group.endpoint?, Group.endpoint?, hendpoints]

end Snapshot

namespace Generator

variable {g : Generator} {directories : Directories} {s s' : Snapshot} {policy : Policy}
  {definition : String}

/-- Snapshots that agree in what concerns a policy cannot be told apart. -/
theorem generateWith_congr (hregistry : g.registry = .standard) (c : ResolverChain)
    (h : s.AgreesFor s' policy.name definition) :
    g.generateWith directories c s policy definition =
      g.generateWith directories c s' policy definition := by
  rw [generateWith, generateWith, h.resourceContents]
  refine Outcome.bind_congr fun resources _ => Outcome.bind_congr fun d hd => ?_
  have hparse := Outcome.of_mapError_eq_ok hd
  obtain ⟨t, hshows, hroot, htop⟩ := Document.exists_shows_of_parse hparse
  have ht : d.ShowsRoot t := ⟨hroot, [], hshows⟩
  have hagreed : Agreed s s' ⟨d, .empty, [], c⟩ := ⟨t, ht, htop, h.agrees hparse ht⟩
  simp only [resolveKinds_congr hregistry hagreed]

/-- A policy, or the error that keeps it from being generated, is the same for all
snapshots that agree in what concerns it, whatever the chain of resolvers remembers.  So
the order of uniquely named endpoints, endpoints to which the definition does not refer,
and other policies with what belongs to them do not matter. -/
theorem unrelated_data_ignored (hregistry : g.registry = .standard) {c c' : ResolverChain}
    (hc : c.Reached directories) (hc' : c'.Reached directories)
    (hresolvers : c.resolvers = c'.resolvers) (policy : Policy) (definition : String) :
    (∀ s s' : Snapshot, s.AgreesFor s' policy.name definition →
      g.answer directories c s policy definition =
        g.answer directories c' s' policy definition) ∧
    (∀ (s : Snapshot) (endpoints : List Endpoint), (endpoints.map Endpoint.name).Nodup →
      endpoints.Perm s.group.endpoints →
        g.answer directories c (s.withEndpoints endpoints) policy definition =
          g.answer directories c' s policy definition) ∧
    (∀ (s : Snapshot) (endpoints : List Endpoint),
      (endpoints.filter fun e => (endpointNames definition).contains e.name) =
        s.group.endpoints.filter (fun e => (endpointNames definition).contains e.name) →
          g.answer directories c (s.withEndpoints endpoints) policy definition =
            g.answer directories c' s policy definition) ∧
    ∀ s s' : Snapshot, s.group.endpoints = s'.group.endpoints →
      s.resources.find? policy.name = s'.resources.find? policy.name →
        g.answer directories c s policy definition =
          g.answer directories c' s' policy definition := by
  have hchain : c.AnswersFor directories c'.resolvers := ⟨hresolvers, hc.truthful⟩
  have hchain' : c'.AnswersFor directories c'.resolvers := ⟨rfl, hc'.truthful⟩
  have hall (s s' : Snapshot) (h : s.AgreesFor s' policy.name definition) :
      g.answer directories c s policy definition =
        g.answer directories c' s' policy definition := by
    rw [answer_congr hchain hchain' s policy definition, answer, answer,
      generateWith_congr hregistry c' h]
  refine ⟨hall, fun s endpoints hnodup hperm => ?_, fun s endpoints hfilter => ?_,
    fun s s' hendpoints hresources => ?_⟩
  · exact hall _ s (Snapshot.agreesFor_of_perm hnodup hperm)
  · exact hall _ s (Snapshot.agreesFor_of_filter hfilter)
  · exact hall s s' (Snapshot.agreesFor_of_resources hendpoints hresources)

/-- An endpoint to which no definition refers here. -/
def idleEndpoint : Endpoint where
  name := "r"
  uri := "file:r"

/-- Another endpoint in front, and another policy: the policy with the nested references
is generated alike, also by a chain that was asked before. -/
theorem unrelated_data_ignored_nested :
    let chain := ResolverChain.empty.push (.configured .builtIn)
    let asked := (chain.packagesFor (fun _ => false) "jms").2
    let crowded := batchingSnapshot.withEndpoints (idleEndpoint :: batchingSnapshot.group.endpoints)
    let answer (c : ResolverChain) (s : Snapshot) :=
      answer ⟨.standard, chain, .empty⟩ (fun _ => false) c s { name := "p" } nestedReferences
    crowded.AgreesFor batchingSnapshot "p" nestedReferences ∧
      answer chain crowded = answer asked batchingSnapshot ∧
      answer chain (crowded.withEndpoints (batchingSnapshot.group.endpoints ++ [idleEndpoint])) =
        answer asked crowded ∧
      answer chain (batchingSnapshot.withPolicy { name := "q" } "<a/>") =
        answer asked batchingSnapshot := by
  intro chain asked crowded answer
  have hparse : Document.parse nestedReferences = .ok nestedDocument :=
    Outcome.of_toOption_eq_some (by decide +kernel)
  have hnames : endpointNames nestedReferences = ["q", "q"] := by
    rw [endpointNames, hparse]
    decide
  have hfilter : ((idleEndpoint :: batchingSnapshot.group.endpoints).filter fun e =>
      (endpointNames nestedReferences).contains e.name) =
        batchingSnapshot.group.endpoints.filter fun e =>
          (endpointNames nestedReferences).contains e.name := by
    rw [hnames]
    decide
  have hchain : chain.Reached fun _ => false := .push .empty _
  have hall := unrelated_data_ignored (g := ⟨.standard, chain, .empty⟩) rfl hchain
    (hchain.asked "jms") (ResolverChain.resolvers_packagesFor ..).symm { name := "p" }
    nestedReferences
  have hagrees : crowded.AgreesFor batchingSnapshot "p" nestedReferences :=
    Snapshot.agreesFor_of_filter hfilter
  refine ⟨hagrees, hall.1 _ _ hagrees, hall.2.1 crowded _ (by decide) ?_,
    hall.2.2.2 _ _ rfl rfl⟩
  exact List.perm_append_comm

end Generator

end RouteCompiler
