import RouteCompiler.Build.Server
import RouteCompiler.Proofs.Generation.Packages

/-!
# Advice on what is generated

A characteristic without a processor is left out, with a remark that says so.  The remarks
of a policy are those on its references: where no action is displaced, every reference is
resolved once, and each of them adds its remarks unless they are listed.  A build lists the
remarks of all policies, each once.

Main definitions:

- `Endpoint.unserved`: the kinds of an endpoint that no processor serves.
- `Document.RefersTo`: a reference to an endpoint below the root.
- `Generator.Overlooks`: what there is a remark on.

Main results:

- Lemma `issues_applyAll`: the remarks of one reference.
- Theorem `mem_issues_of_generateWith`: the remarks of a policy.
- Theorem `issues_of_build`: the remarks of a build.
-/

namespace RouteCompiler

open RouteCompiler.Route

/-- The kinds of characteristics of an endpoint that no processor serves. -/
def Endpoint.unserved (registry : Registry) (e : Endpoint) : List String :=
  (e.characteristics.map Characteristic.kind).filter fun kind => (registry.find? kind).isNone

theorem Endpoint.mem_unserved {registry : Registry} {e : Endpoint} {kind : String} :
    kind ∈ e.unserved registry ↔
      (∃ c ∈ e.characteristics, c.kind = kind) ∧ registry.find? kind = none := by
  simp [unserved]

theorem Snapshot.name_of_endpoint {s : Snapshot} {name : String} {e : Endpoint}
    (h : s.endpoint? name = some e) : e.name = name := by
  simpa using List.find?_some h

/-! ## References to an endpoint -/

namespace Route

/-- Whether an element is a marker whose logical URI names an endpoint. -/
def Content.RefersTo (endpoint : String) (c : Content) : Prop :=
  ∃ m uri, c.name? = some (Marker.tagName m) ∧ c.attribute? Uri.attributeKey = some uri ∧
    Uri.endpointName? uri = some endpoint

/-- Below the root stands a marker whose logical URI names an endpoint. -/
def Document.RefersTo (endpoint : String) (d : Document) : Prop :=
  ∃ n ∈ d.descendants d.root, ∃ m uri, d.isNamed (Marker.tagName m) n = true ∧
    d.attribute? n Uri.attributeKey = some uri ∧ Uri.endpointName? uri = some endpoint

theorem Document.ShowsRoot.refersTo {d : Document} {t : Placed} (h : d.ShowsRoot t)
    {endpoint : String} :
    d.RefersTo endpoint ↔ ∃ e ∈ t.elementsBelow, e.2.RefersTo endpoint := by
  have hstands : ∀ e ∈ t.elementsBelow, ((∃ m uri, d.isNamed (Marker.tagName m) e.1 = true ∧
      d.attribute? e.1 Uri.attributeKey = some uri ∧ Uri.endpointName? uri = some endpoint) ↔
        e.2.RefersTo endpoint) := by
    intro e he
    have hcontent := h.content_of_mem he
    simp only [Content.RefersTo, Document.isNamed_of_content hcontent, beq_iff_eq,
      Document.attribute_of_content hcontent]
  simp only [Document.RefersTo, h.descendants, List.mem_map, exists_exists_and_eq_and]
  exact exists_congr fun e => and_congr_right (hstands e)

/-- The endpoint that an element refers to is the one of the name in its URI. -/
theorem Content.exists_target_iff {s : Snapshot} {c : Content} {e : Endpoint} :
    (∃ m, c.target? s = some (m, e)) ↔
      ∃ endpoint, c.RefersTo endpoint ∧ s.endpoint? endpoint = some e := by
  constructor
  · rintro ⟨m, htarget⟩
    simp only [target?, bind, pure, Option.bind_eq_some_iff, Option.some.injEq, Prod.mk.injEq]
      at htarget
    obtain ⟨m, hmarker, uri, huri, endpoint, hendpoint, e, he, rfl, rfl⟩ := htarget
    exact ⟨endpoint, ⟨m, uri, marker_eq_some.mp hmarker, huri, hendpoint⟩, he⟩
  · rintro ⟨endpoint, ⟨m, uri, hname, huri, hendpoint⟩, he⟩
    exact ⟨m, target_eq_some hname huri hendpoint he⟩

/-- The remarks on an element: one for each kind that no processor serves, if it refers to an
endpoint. -/
def Content.remarks (registry : Registry) (s : Snapshot) (policy : String) (c : Content) :
    List Issue :=
  match c.target? s with
  | none => []
  | some (_, e) => (e.unserved registry).map (Generator.unsupported policy e.name)

/-- Whether there is a remark on an element. -/
def Content.incurs (registry : Registry) (s : Snapshot) (policy : String) (issue : Issue)
    (c : Content) : Bool :=
  (c.remarks registry s policy).contains issue

theorem Content.incurs_eq_true {registry : Registry} {s : Snapshot} {policy : String}
    {issue : Issue} {c : Content} :
    c.incurs registry s policy issue = true ↔ issue ∈ c.remarks registry s policy :=
  List.contains_iff_mem

/-- There is no remark on what is settled. -/
theorem Content.IsSettled.incurs {c : Content} (h : c.IsSettled) (registry : Registry)
    (s : Snapshot) (policy : String) (issue : Issue) :
    c.incurs registry s policy issue = false := by
  rw [Content.incurs, remarks, h.target_eq_none s]
  rfl

theorem Content.mem_remarks {registry : Registry} {s : Snapshot} {policy : String}
    {issue : Issue} {c : Content} :
    issue ∈ c.remarks registry s policy ↔ ∃ endpoint e kind, c.RefersTo endpoint ∧
      s.endpoint? endpoint = some e ∧ kind ∈ e.unserved registry ∧
        issue = Generator.unsupported policy endpoint kind := by
  constructor
  · intro h
    rw [remarks] at h
    split at h
    · cases h
    · next m e htarget =>
      obtain ⟨endpoint, hrefers, he⟩ := exists_target_iff.mp ⟨m, htarget⟩
      obtain ⟨kind, hkind, rfl⟩ := List.mem_map.mp h
      exact ⟨endpoint, e, kind, hrefers, he, hkind, by rw [Snapshot.name_of_endpoint he]⟩
  · rintro ⟨endpoint, e, kind, hrefers, he, hkind, rfl⟩
    obtain ⟨m, htarget⟩ := exists_target_iff.mpr ⟨endpoint, hrefers, he⟩
    rw [remarks, htarget]
    exact List.mem_map.mpr ⟨kind, hkind, by rw [Snapshot.name_of_endpoint he]⟩

end Route

namespace Generator

variable {g : Generator} {directories : Directories} {s : Snapshot} {policy : String}
  {m : Marker} {p p' : Progress} {t t₀ : Placed} {issues more : List Issue} {issue : Issue}

/-! ## Lists without repetition -/

theorem mem_addIssue {i : Issue} : i ∈ addIssue issues issue ↔ i ∈ issues ∨ i = issue := by
  rw [addIssue]
  split
  · next hlisted =>
    rw [List.contains_iff_mem] at hlisted
    exact ⟨.inl, fun h => h.elim id fun hi => hi ▸ hlisted⟩
  · simp

theorem nodup_addIssue (h : issues.Nodup) : (addIssue issues issue).Nodup := by
  rw [addIssue]
  split
  · exact h
  · next hnew =>
    rw [List.contains_iff_mem] at hnew
    exact List.nodup_append.mpr ⟨h, List.nodup_singleton issue, by grind⟩

theorem mem_foldl_addIssue :
    issue ∈ more.foldl addIssue issues ↔ issue ∈ issues ∨ issue ∈ more := by
  induction more generalizing issues with
  | nil => simp
  | cons i more ih =>
      rw [List.foldl_cons, ih, mem_addIssue, List.mem_cons, or_assoc]

theorem nodup_foldl_addIssue (h : issues.Nodup) : (more.foldl addIssue issues).Nodup := by
  induction more generalizing issues with
  | nil => exact h
  | cons i more ih => exact ih (nodup_addIssue h)

/-- A remark tells which policy, endpoint and kind it is about. -/
theorem unsupported_inj {policy policy' endpoint endpoint' kind kind' : String}
    (h : unsupported policy endpoint kind = unsupported policy' endpoint' kind') :
    policy = policy' ∧ endpoint = endpoint' ∧ kind = kind' := by
  obtain ⟨-, hmessage, hpolicy, hendpoint, -⟩ := Issue.mk.inj h
  refine ⟨Option.some.inj hpolicy, Option.some.inj hendpoint, ?_⟩
  have hchars := congrArg String.toList hmessage
  exact String.toList_inj.mp (by simpa [ToString.toString] using hchars)

/-! ## One reference -/

/-- The remarks that characteristics add, whatever the processors do. -/
theorem issues_applyAll {registry : Registry} {e : Endpoint} {x : NodeId}
    {cs : List Characteristic} (h : applyAll registry s policy e x p cs = .ok p') :
    p'.issues = (((cs.map Characteristic.kind).filter fun kind =>
      (registry.find? kind).isNone).map (unsupported policy e.name)).foldl addIssue p.issues := by
  induction cs generalizing p with
  | nil =>
      rw [← Except.ok.inj h]
      rfl
  | cons c cs ih =>
      obtain ⟨p₁, hfirst, hrest⟩ := Outcome.of_bind_eq_ok h
      rw [ih hrest]
      rcases applyCharacteristic_eq_ok hfirst with ⟨hnone, rfl⟩ | ⟨processor, d, hsome, -, rfl⟩
      · simp [hnone]
      · simp [hsome]

/-- A step adds the remarks on its reference. -/
theorem Step.issues_eq (ht : p.document.ShowsRoot t) (h : Step g directories s policy m p p') :
    ∃ x c, t.firstBelow m = some (x, c) ∧
      p'.issues = (c.remarks g.registry s policy).foldl addIssue p.issues := by
  obtain ⟨x, c, e, p₁, hfirst, htarget, happly, rfl⟩ := h.exists_first ht
  refine ⟨x, c, hfirst, ?_⟩
  rw [Content.remarks, htarget]
  have hissues := issues_applyAll happly
  exact hissues

/-! ## One policy -/

/-- The remarks that were collected are listed once, and they and those on the references
that are left are together those on the references of a definition. -/
def Remarks (registry : Registry) (s : Snapshot) (policy : String) (t₀ t : Placed)
    (p : Progress) : Prop :=
  p.issues.Nodup ∧ ∀ issue, (issue ∈ p.issues ∨
      0 < t.tallyBelow (Content.incurs registry s policy issue)) ↔
    0 < t₀.tallyBelow (Content.incurs registry s policy issue)

theorem Remarks.step {t' : Placed} (hp : Remarks g.registry s policy t₀ t p)
    (ht : p.document.ShowsRoot t) (htop : t.content.isElement)
    (hresolves : Resolves s Endpoint.batching p.document.size m t t')
    (hquiet : m = .consumer → t.displaces s = false) (h : Step g directories s policy m p p') :
    Remarks g.registry s policy t₀ t' p' := by
  obtain ⟨hnodup, hcollected⟩ := hp
  obtain ⟨x, c, hfirst, hissues⟩ := h.issues_eq ht
  constructor
  · rw [hissues]
    exact nodup_foldl_addIssue hnodup
  · intro issue
    rw [← hcollected issue]
    refine hresolves.collects htop hquiet
      (fun c hc => hc.incurs g.registry s policy issue) fun x' c' hfirst' => ?_
    rw [hfirst, Option.some.injEq, Prod.mk.injEq] at hfirst'
    rw [← hfirst'.2, hissues, mem_foldl_addIssue, Content.incurs_eq_true]

/-- The remarks on a policy are those on the references below the root of its definition. -/
theorem mem_issues_of_generateWith (hregistry : g.registry = .standard)
    {resolvers resolvers' : ResolverChain} {policy : Policy} {definition : String} {d : Document}
    {generated : GeneratedPolicy} (hparse : Document.parse definition = .ok d)
    (hslotless : Slotless d)
    (hgenerate : g.generateWith directories resolvers s policy definition =
      .ok (generated, resolvers')) :
    generated.issues.Nodup ∧ ∀ issue, issue ∈ generated.issues ↔
      ∃ endpoint e kind, d.RefersTo endpoint ∧ s.endpoint? endpoint = some e ∧
        kind ∈ e.unserved g.registry ∧ issue = unsupported policy.name endpoint kind := by
  obtain ⟨resources, d', final, -, hparse', hfinal, rfl, -⟩ := exists_of_generateWith hgenerate
  rw [hparse, Except.ok.injEq] at hparse'
  subst hparse'
  obtain ⟨t, hshows, hroot, htop⟩ := Document.exists_shows_of_parse hparse
  have ht : d.ShowsRoot t := ⟨hroot, [], hshows⟩
  have hstart : Remarks g.registry s policy.name t t (start d resolvers) :=
    ⟨List.nodup_nil, fun issue => by simp [start]⟩
  obtain ⟨t', ht', -, hnodup, hcollected⟩ := of_resolveKinds_quiet hregistry
    (I := Remarks g.registry s policy.name t)
    (fun m t t' p p' hp ht htop hresolves hquiet hstep =>
      hp.step ht htop hresolves hquiet hstep)
    ht htop (hslotless.displaces ht s) hstart hfinal
  have hsettled := isSettled_of_resolveKinds (.inl hregistry) (sound_start hparse)
    (references_lt_steps hparse) hfinal ht'
  refine ⟨hnodup, fun issue => ?_⟩
  have hnone : ¬ 0 < t'.tallyBelow (Content.incurs g.registry s policy.name issue) := by
    rw [Placed.tallyBelow_pos]
    rintro ⟨e, he, hincurs⟩
    rw [(hsettled e he).incurs] at hincurs
    cases hincurs
  have hall := hcollected issue
  rw [or_iff_left hnone, Placed.tallyBelow_pos] at hall
  simp only [Content.incurs_eq_true, Content.mem_remarks] at hall
  simp only [hall, ht.refersTo]
  constructor
  · rintro ⟨x, hx, endpoint, e, kind, hrefers, he, hkind, rfl⟩
    exact ⟨endpoint, e, kind, ⟨x, hx, hrefers⟩, he, hkind, rfl⟩
  · rintro ⟨endpoint, e, kind, ⟨x, hx, hrefers⟩, he, hkind, rfl⟩
    exact ⟨x, hx, endpoint, e, kind, hrefers, he, hkind, rfl⟩

/-! ## A snapshot -/

/-- The definition of a policy refers to an endpoint that carries a characteristic of a kind
that no processor serves. -/
def Overlooks (registry : Registry) (s : Snapshot) (policy endpoint kind : String) : Prop :=
  ∃ definition d e, s.definition? policy = some definition ∧
    Document.parse definition = .ok d ∧ d.RefersTo endpoint ∧ s.endpoint? endpoint = some e ∧
      (∃ c ∈ e.characteristics, c.kind = kind) ∧ registry.find? kind = none

/-- The remarks on the policies of a list. -/
theorem mem_issues_of_generateAll (hregistry : g.registry = .standard)
    (hslotless : ∀ policy definition d, s.definition? policy = some definition →
      Document.parse definition = .ok d → Slotless d)
    {resolvers : ResolverChain} {policies : List Policy} {generated : List GeneratedPolicy}
    (hgenerate : g.generateAll directories s resolvers policies = .ok generated) :
    ∀ issue, issue ∈ generated.flatMap GeneratedPolicy.issues ↔
      ∃ policy ∈ policies.map Policy.name, ∃ endpoint kind,
        Overlooks g.registry s policy endpoint kind ∧ issue = unsupported policy endpoint kind := by
  intro issue
  induction policies generalizing resolvers generated with
  | nil =>
      rw [← Except.ok.inj hgenerate]
      simp
  | cons policy policies ih =>
      rw [generateAll] at hgenerate
      split at hgenerate
      case h_2 => cases hgenerate
      next definition hdefinition =>
      rw [Outcome.ok_bind] at hgenerate
      obtain ⟨⟨first, resolvers'⟩, hfirst, hrest⟩ := Outcome.of_bind_eq_ok hgenerate
      obtain ⟨others, hothers, hlast⟩ := Outcome.of_bind_eq_ok hrest
      obtain ⟨d, -, hparse, -⟩ := generateWith_eq_ok hfirst
      have hremarks := (mem_issues_of_generateWith hregistry hparse
        (hslotless policy.name definition d hdefinition hparse) hfirst).2 issue
      have hown : issue ∈ first.issues ↔ ∃ endpoint kind,
          Overlooks g.registry s policy.name endpoint kind ∧
            issue = unsupported policy.name endpoint kind := by
        rw [hremarks]
        constructor
        · rintro ⟨endpoint, e, kind, hrefers, he, hkind, rfl⟩
          exact ⟨endpoint, kind, ⟨definition, d, e, hdefinition, hparse, hrefers, he,
            Endpoint.mem_unserved.mp hkind⟩, rfl⟩
        · rintro ⟨endpoint, kind, ⟨definition', d', e, hdefinition', hparse', hrefers, he, hkind⟩,
            rfl⟩
          rw [hdefinition, Option.some.injEq] at hdefinition'
          rw [← hdefinition', hparse, Except.ok.injEq] at hparse'
          exact ⟨endpoint, e, kind, hparse' ▸ hrefers, he, Endpoint.mem_unserved.mpr hkind, rfl⟩
      rw [← Except.ok.inj hlast, List.flatMap_cons, List.mem_append, hown, ih hothers,
        List.map_cons, List.exists_mem_cons_iff]

/-- The remarks of a build, where no definition has an element with the name of a slot: none
is listed twice, there is one for each policy, endpoint and kind that is overlooked, and
there are no others. -/
theorem issues_of_build (hregistry : g.registry = .standard)
    (hslotless : ∀ policy definition d, s.definition? policy = some definition →
      Document.parse definition = .ok d → Slotless d)
    {policies : List GeneratedPolicy} {deployment : DeployOutcome}
    (hgenerate : g.generateSnapshot directories s = .ok policies)
    (hbuilt : Server.outcomeOf policies deployment = .ok issues) :
    issues.Nodup ∧
      (∀ policy endpoint kind, unsupported policy endpoint kind ∈ issues ↔
        policy ∈ s.policies.map Policy.name ∧ Overlooks g.registry s policy endpoint kind) ∧
      ∀ issue ∈ issues, ∃ policy endpoint kind, issue = unsupported policy endpoint kind := by
  obtain ⟨⟨⟩, -, hall⟩ := Outcome.of_bind_eq_ok hgenerate
  have hissues : issues = Server.issuesOf policies := by
    cases deployment with
    | done => exact (Except.ok.inj hbuilt).symm
    | failed e => cases hbuilt
    | crashed text => cases hbuilt
  have hmem : ∀ issue, issue ∈ issues ↔ ∃ policy ∈ s.policies.map Policy.name,
      ∃ endpoint kind, Overlooks g.registry s policy endpoint kind ∧
        issue = unsupported policy endpoint kind := by
    intro issue
    rw [hissues, Server.issuesOf, mem_foldl_addIssue, or_iff_right List.not_mem_nil]
    exact mem_issues_of_generateAll hregistry hslotless hall issue
  refine ⟨?_, fun policy endpoint kind => ?_, fun issue hissue => ?_⟩
  · rw [hissues]
    exact nodup_foldl_addIssue List.nodup_nil
  · rw [hmem]
    constructor
    · rintro ⟨policy', hpolicy, endpoint', kind', hoverlooks, heq⟩
      obtain ⟨rfl, rfl, rfl⟩ := unsupported_inj heq
      exact ⟨hpolicy, hoverlooks⟩
    · rintro ⟨hpolicy, hoverlooks⟩
      exact ⟨policy, hpolicy, endpoint, kind, hoverlooks, rfl⟩
  · obtain ⟨policy, -, endpoint, kind, -, rfl⟩ := (hmem issue).mp hissue
    exact ⟨policy, endpoint, kind, rfl⟩

/-- Two policies with one definition, which refers twice to an endpoint with a
characteristic that has a processor and one that has none. -/
def remarkedSnapshot : Snapshot where
  group := {
    name := "g"
    endpoints := [{
      name := "q"
      uri := "jms:q"
      characteristics := [.ofKind BatchRetry.kindName, .ofKind "Traced"] }] }
  policies := [{ name := "p" }, { name := "r" }]
  definitions := .ofList [("p", nestedReferences), ("r", nestedReferences)]

/-- There is one remark on each of the policies, for one of the characteristics. -/
theorem issues_of_build_remarked :
    ∃ policies issues,
      generateSnapshot ⟨.standard, .empty, .empty⟩ (fun _ => false) remarkedSnapshot =
        .ok policies ∧
      Server.outcomeOf policies .done = .ok issues ∧ issues.Nodup ∧
      unsupported "p" "q" "Traced" ∈ issues ∧ unsupported "r" "q" "Traced" ∈ issues ∧
      unsupported "p" "q" BatchRetry.kindName ∉ issues := by
  have hparse : Document.parse nestedReferences = .ok nestedDocument :=
    Outcome.of_toOption_eq_some (by decide +kernel)
  have hdefinition : ∀ policy definition, remarkedSnapshot.definition? policy = some definition →
      definition = nestedReferences := by
    intro policy definition h
    have hmem := SortedMap.mem_of_find_ofList h
    simp only [List.mem_cons, Prod.mk.injEq, List.not_mem_nil, or_false] at hmem
    rcases hmem with ⟨-, hdefinition⟩ | ⟨-, hdefinition⟩ <;> exact hdefinition
  have hslotless : ∀ policy definition d, remarkedSnapshot.definition? policy = some definition →
      Document.parse definition = .ok d → Slotless d := by
    intro policy definition d hfound hdocument
    rw [hdefinition policy definition hfound, hparse, Except.ok.injEq] at hdocument
    exact hdocument ▸ slotless_nestedDocument
  have hok : (generateSnapshot ⟨.standard, .empty, .empty⟩ (fun _ => false)
      remarkedSnapshot).isOk = true := by
    decide +kernel
  obtain ⟨policies, hgenerate⟩ := Outcome.exists_of_isOk hok
  have hbuilt : Server.outcomeOf policies .done = .ok (Server.issuesOf policies) := rfl
  obtain ⟨hnodup, hiff, -⟩ := issues_of_build rfl hslotless hgenerate hbuilt
  have hrefers : nestedDocument.RefersTo "q" :=
    ⟨1, by decide, .producer, "logical:q", by decide, by decide, by decide⟩
  have htraced : ∀ policy, remarkedSnapshot.definition? policy = some nestedReferences →
      Overlooks .standard remarkedSnapshot policy "q" "Traced" := fun policy h =>
    ⟨nestedReferences, nestedDocument, _, h, hparse, hrefers, rfl,
      ⟨.ofKind "Traced", by simp, rfl⟩, by rw [Registry.find_standard]; rfl⟩
  refine ⟨policies, _, hgenerate, rfl, hnodup, (hiff ..).mpr ⟨by decide, htraced "p" rfl⟩,
    (hiff ..).mpr ⟨by decide, htraced "r" rfl⟩, fun h => ?_⟩
  obtain ⟨-, -, -, -, -, -, -, -, -, hnone⟩ := (hiff ..).mp h
  rw [Registry.find_standard, if_pos rfl] at hnone
  cases hnone

end Generator

end RouteCompiler
