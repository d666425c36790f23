import RouteCompiler.Proofs.Generation.Exhaustion

/-!
# Generation as a single pass

The search for references begins again at the root after each one, in three rounds.
Where no consumer is batched, all of this comes to one recursion over the tree:
each reference gets its URI, each batched producer its aggregations, and the bean
that collects messages is declared once at the end.

A step changes a tree to one with the same pass, and a tree without references is
its own pass.

Main definitions:

- `Tree.resolved`: a tree below the root after the pass.
- `Tree.generated`: the tree of the root after the pass.

Main results:

- Theorem `Resolves.generated_eq`: a step keeps what the pass makes of the tree.
- Theorem `definition_eq_generated`: what is generated is the written form of the
  tree after the pass.
-/

namespace RouteCompiler

open RouteCompiler.Route

/-- A setting as written out: what is said, else the default, as a decimal number. -/
def Characteristic.decimal (c : Characteristic) (name default : String) : String :=
  toString ((CharacteristicKind.positive? ((c.property? name).getD default)).getD 0)

namespace Route

/-! ## The pass -/

namespace Content

/-- A reference with the URI of its endpoint; anything else stays as it is. -/
def resolved (s : Snapshot) (c : Content) : Content :=
  match c.target? s with
  | some (m, e) => c.setAttribute Uri.attributeKey (Uri.appendOptions e.uri (e.options m.role))
  | none => c

/-- The settings with which a one-way producer is batched. -/
def batches (s : Snapshot) (c : Content) : List Characteristic :=
  match c.target? s with
  | some (.oneWayProducer, e) => e.batching
  | _ => []

end Content

namespace Tree

/-- A tree at the end of an aggregation with some settings. -/
def aggregated (c : Characteristic) (t : Tree) : Tree :=
  .element "aggregate" [
    ⟨"strategyRef", "aggregatorStrategy"⟩,
    ⟨"completionSize", c.decimal "batchSize" "100"⟩,
    ⟨"completionInterval", c.decimal "batchInterval" "1000"⟩] [
    .element "correlationExpression" [] [.element "constant" [] [.text "true"]],
    .element "setHeader" [⟨"headerName", "retryCount"⟩] [.element "constant" [] [.text "0"]],
    t]

/-- The declaration of the bean that collects messages. -/
def aggregator : Tree :=
  .element "bean" [⟨"id", "aggregatorStrategy"⟩, ⟨"class", "io.hodos.runtime.ListAggregator"⟩] []

mutual

/-- A tree with every reference resolved, and every batched producer inside one
aggregation for each setting, the first one outermost. -/
def resolved (s : Snapshot) : Tree → Tree
  | .node (.text value) children => .node (.text value) children
  | .node (.element name attributes) children =>
      ((Content.element name attributes).batches s).foldr aggregated
        (.node ((Content.element name attributes).resolved s) (resolvedAll s children))

/-- Several trees with every reference resolved. -/
def resolvedAll (s : Snapshot) : List Tree → List Tree
  | [] => []
  | t :: ts => t.resolved s :: resolvedAll s ts

end

mutual

/-- What the elements of a tree hold that no text encloses, in document order. -/
def elements : Tree → List Content
  | .node (.text _) _ => []
  | .node (.element name attributes) children =>
      .element name attributes :: elementsAll children

/-- What the elements of several trees hold that no text encloses. -/
def elementsAll : List Tree → List Content
  | [] => []
  | t :: ts => t.elements ++ elementsAll ts

end

/-- The tree of the root after the pass: what is below the root is resolved, and the
bean that collects messages is declared at its end where a producer was batched and
the bean was not declared before. -/
def generated (s : Snapshot) (t : Tree) : Tree :=
  let below := elementsAll t.children
  let children := resolvedAll s t.children
  if below.any (fun c => !(c.batches s).isEmpty) &&
      !below.any (Content.declares "aggregatorStrategy") then
    .node t.content (children ++ [aggregator])
  else .node t.content children

theorem resolvedAll_eq_map (s : Snapshot) (ts : List Tree) :
    resolvedAll s ts = ts.map (resolved s) := by
  induction ts with
  | nil => rfl
  | cons t ts ih => simp [resolvedAll, ih]

theorem elementsAll_eq_flatMap (ts : List Tree) : elementsAll ts = ts.flatMap elements := by
  induction ts with
  | nil => rfl
  | cons t ts ih => simp [elementsAll, ih]

theorem resolved_of_isElement {c : Content} (h : c.isElement) (s : Snapshot)
    (children : List Tree) :
    (node c children).resolved s =
      (c.batches s).foldr aggregated (.node (c.resolved s) (children.map (resolved s))) := by
  cases c with
  | element name attributes => rw [resolved, resolvedAll_eq_map]
  | text value => simp [Content.isElement, Content.name?] at h

end Tree

/-! ## What the pass leaves alone -/

namespace Content

variable {s : Snapshot} {c : Content} {m : Marker} {uri name : String} {e : Endpoint}

theorem IsSettled.batches_eq_nil (h : c.IsSettled) (s : Snapshot) : c.batches s = [] := by
  simp [batches, h.target_eq_none s]

theorem IsSettled.resolved_eq (h : c.IsSettled) (s : Snapshot) : c.resolved s = c := by
  simp [resolved, h.target_eq_none s]

end Content

/-- A tree without references stays as it is. -/
theorem Tree.resolved_eq_self (s : Snapshot) {t : Tree} (h : ∀ c ∈ t.elements, c.IsSettled) :
    t.resolved s = t := by
  induction t with
  | node c children ih =>
      cases c with
      | text value => rw [resolved]
      | element name attributes =>
          rw [elements, List.forall_mem_cons, elementsAll_eq_flatMap] at h
          have hchildren : children.map (resolved s) = children := by
            refine Eq.trans (List.map_congr_left fun t ht => ?_) (List.map_id children)
            exact ih t ht fun c hc => h.2 c (List.mem_flatMap.mpr ⟨t, ht, hc⟩)
          rw [resolved_of_isElement (by rfl), h.1.batches_eq_nil, h.1.resolved_eq, hchildren]
          rfl

/-! ## The pass on placed trees -/

namespace Placed

theorem elements_map_content (t : Placed) : t.elements.map Prod.snd = t.toTree.elements := by
  induction t with
  | node id c children ih =>
      cases c with
      | text value => simp [Tree.elements]
      | element name attributes =>
          have hall : (children.flatMap elements).map Prod.snd =
              (children.map toTree).flatMap Tree.elements := by
            rw [List.map_flatMap, List.flatMap_map]
            exact List.flatMap_congr ih
          rw [elements_element, toTree_node, Tree.elements, Tree.elementsAll_eq_flatMap,
            List.map_cons, hall]

theorem elementsBelow_map_content (t : Placed) :
    t.elementsBelow.map Prod.snd = Tree.elementsAll t.toTree.children := by
  obtain ⟨id, c, children⟩ := t
  rw [toTree_node, elementsBelow, Tree.children, Tree.elementsAll_eq_flatMap, List.map_flatMap,
    List.flatMap_map]
  exact List.flatMap_congr fun u _ => u.elements_map_content

/-- What the pass makes of the trees below the top. -/
def resolvedBelow (s : Snapshot) (t : Placed) : List Tree :=
  t.children.map fun u => u.toTree.resolved s

/-- Whether a producer below the top is batched. -/
def batchesBelow (s : Snapshot) (t : Placed) : Bool :=
  t.elementsBelow.any fun e => !(e.2.batches s).isEmpty

theorem generated_toTree (s : Snapshot) (t : Placed) :
    t.toTree.generated s =
      if t.batchesBelow s && !t.declares "aggregatorStrategy" then
        .node t.content (t.resolvedBelow s ++ [Tree.aggregator])
      else .node t.content (t.resolvedBelow s) := by
  have hany : ∀ P : Content → Bool,
      (Tree.elementsAll t.toTree.children).any P = t.elementsBelow.any fun e => P e.2 := by
    intro P
    rw [← elementsBelow_map_content, List.any_map]
    rfl
  have hbelow : Tree.resolvedAll s t.toTree.children = t.resolvedBelow s := by
    obtain ⟨id, c, children⟩ := t
    rw [Tree.resolvedAll_eq_map, toTree_node, Tree.children, List.map_map]
    rfl
  have hcontent : t.toTree.content = t.content := by
    obtain ⟨id, c, children⟩ := t
    rw [toTree_node]
    rfl
  rw [Tree.generated, hany, hany, hbelow, hcontent]
  rfl

/-- The pass below the top sees a place only through what it makes of the tree
there. -/
theorem resolvedBelow_plug_congr {s : Snapshot} {f : Frame} {fs : List Frame}
    (h : Open (f :: fs)) {t u : Placed} (heq : t.toTree.resolved s = u.toTree.resolved s) :
    (plug (f :: fs) t).resolvedBelow s = (plug (f :: fs) u).resolvedBelow s := by
  induction fs generalizing f t u with
  | nil => simp [plug, Frame.fill, resolvedBelow, heq]
  | cons g fs ih =>
      have hf : f.content.isElement := h f (by simp)
      have hfill : ((f.fill [t]).toTree).resolved s = ((f.fill [u]).toTree).resolved s := by
        rw [Frame.fill, Frame.fill, toTree_node, toTree_node, Tree.resolved_of_isElement hf,
          Tree.resolved_of_isElement hf]
        simp [heq]
      exact ih (fun k hk => h k (List.mem_cons_of_mem f hk)) hfill

/-- Whether a producer below the top is batched depends on a place only through its
elements. -/
theorem batchesBelow_plug {s : Snapshot} {f : Frame} {fs : List Frame} (h : Open (f :: fs))
    (t : Placed) :
    (plug (f :: fs) t).batchesBelow s =
      ((elementsBefore (f :: fs)).tail.any (fun e => !(e.2.batches s).isEmpty) ||
        t.elements.any (fun e => !(e.2.batches s).isEmpty) ||
        (elementsBehind (f :: fs)).any fun e => !(e.2.batches s).isEmpty) := by
  rw [batchesBelow, elementsBelow_plug h, List.any_append, List.any_append]

end Placed

/-! ## Aggregations -/

/-- A setting that a characteristic batches with is the one written out. -/
theorem decimal_of_positiveValue {e : Endpoint} {c : Characteristic} {name default : String}
    {n : Nat}
    (hdefault : (BatchRetry.kind.properties.find? fun p => p.name == name).bind
      PropertyDescriptor.default = some default)
    (h : BatchRetry.kind.positiveValue e c name = .ok n) : c.decimal name default = toString n := by
  have hvalue : (BatchRetry.kind.valueOf c name).getD "" = (c.property? name).getD default := by
    rw [CharacteristicKind.valueOf, hdefault]
    cases c.property? name <;> rfl
  rw [CharacteristicKind.positiveValue, hvalue] at h
  rw [Characteristic.decimal]
  cases hpositive : CharacteristicKind.positive? ((c.property? name).getD default) with
  | none => simp [hpositive] at h
  | some k =>
      simp only [hpositive, Except.ok.injEq] at h
      rw [Option.getD_some, h]

theorem aggregated_of_batches {e : Endpoint} {c : Characteristic} {a : NodeId × Nat × Nat}
    (h : Batches e c a) (t : Tree) :
    t.aggregated c = .node (BatchRetry.aggregation a.2.1 a.2.2).content
      ((BatchRetry.aggregation a.2.1 a.2.2).children ++ [t]) := by
  have hsize : c.decimal "batchSize" "100" = toString a.2.1 :=
    decimal_of_positiveValue (by decide) h.1
  have hinterval : c.decimal "batchInterval" "1000" = toString a.2.2 :=
    decimal_of_positiveValue (by decide) h.2
  rw [Tree.aggregated, hsize, hinterval]
  rfl

theorem Placed.toTree_append (t u : Placed) :
    (t.append u).toTree = .node t.toTree.content (t.toTree.children ++ [u.toTree]) := by
  obtain ⟨id, c, children⟩ := t
  simp [append, Tree.content, Tree.children]

/-- The pass goes through an aggregation to the tree at its end. -/
theorem resolved_enclosed (s : Snapshot) (n size interval : Nat) (t : Placed) :
    (t.enclosed n size interval).toTree.resolved s =
      .node (BatchRetry.aggregation size interval).content
        ((BatchRetry.aggregation size interval).children ++ [t.toTree.resolved s]) := by
  have hsettled : ∀ c ∈ (BatchRetry.aggregation size interval).elements, c.IsSettled := by
    intro c hc
    rw [← Placed.toTree_number n (BatchRetry.aggregation size interval),
      ← Placed.elements_map_content] at hc
    obtain ⟨e, he, rfl⟩ := List.mem_map.mp hc
    exact (Placed.elements_number_plain ((Placed.elements_sublist _).subset he)).isSettled
  have htop : (BatchRetry.aggregation size interval).content.IsSettled :=
    hsettled _ (List.mem_cons_self ..)
  have hwhole : (Tree.node (BatchRetry.aggregation size interval).content
      (BatchRetry.aggregation size interval).children).resolved s =
        .node (BatchRetry.aggregation size interval).content
          (BatchRetry.aggregation size interval).children := Tree.resolved_eq_self s hsettled
  have hchildren : (BatchRetry.aggregation size interval).children.map (Tree.resolved s) =
      (BatchRetry.aggregation size interval).children := by
    rw [Tree.resolved_of_isElement (by rfl), htop.batches_eq_nil] at hwhole
    exact (Tree.node.inj hwhole).2
  rw [Placed.enclosed, Placed.toTree_append, Placed.toTree_number,
    Tree.resolved_of_isElement (by rfl), htop.batches_eq_nil, htop.resolved_eq, List.map_append,
    hchildren]
  rfl

theorem resolved_enclosedIn {s : Snapshot} {e : Endpoint} {cs : List Characteristic}
    {as : List (NodeId × Nat × Nat)} (h : List.Forall₂ (Batches e) cs as) (t : Placed) :
    (t.enclosedIn as).toTree.resolved s = cs.foldr Tree.aggregated (t.toTree.resolved s) := by
  induction h with
  | nil => rfl
  | @cons c a cs as hbatches hrest ih =>
      rw [List.foldr_cons, ← ih, aggregated_of_batches hbatches]
      exact resolved_enclosed s a.1 a.2.1 a.2.2 (t.enclosedIn as)

/-! ## One step -/

section Step

variable {s : Snapshot} {f : Frame} {fs : List Frame} {t u : Placed}

/-- A tree with the same pass, the same need of the bean and the same declarations at a
place gives the same pass of the whole. -/
theorem generated_plug_congr (h : Open (f :: fs))
    (hresolved : t.toTree.resolved s = u.toTree.resolved s)
    (hbatches : t.elements.any (fun e => !(e.2.batches s).isEmpty) =
      u.elements.any fun e => !(e.2.batches s).isEmpty)
    (hdeclares : t.elements.any (fun e => e.2.declares "aggregatorStrategy") =
      u.elements.any fun e => e.2.declares "aggregatorStrategy") :
    (plug (f :: fs) t).toTree.generated s = (plug (f :: fs) u).toTree.generated s := by
  have hcontent : (plug (f :: fs) t).content = (plug (f :: fs) u).content :=
    content_plug_congr (by rfl) fs
  rw [Placed.generated_toTree, Placed.generated_toTree,
    Placed.resolvedBelow_plug_congr h hresolved, declares_plug_congr h hdeclares, hcontent,
    Placed.batchesBelow_plug h, Placed.batchesBelow_plug h, hbatches]

/-- Declaring the bean that collects messages is what the pass does last. -/
theorem generated_withAggregator (s : Snapshot) (t : Placed) (n : NodeId) :
    (t.withAggregator n).toTree.generated s =
      if t.declares "aggregatorStrategy" then .node t.content (t.resolvedBelow s)
      else .node t.content (t.resolvedBelow s ++ [Tree.aggregator]) := by
  rw [Placed.generated_toTree, Placed.withAggregator, Placed.withBean]
  cases hdeclares : t.declares "aggregatorStrategy" with
  | true => simp [hdeclares]
  | false =>
      have hbean : (Placed.node n (beanContent "aggregatorStrategy"
          "io.hodos.runtime.ListAggregator") []).toTree.resolved s = Tree.aggregator := by
        refine Tree.resolved_eq_self s (t := Tree.aggregator) fun c hc => ?_
        rw [List.mem_singleton.mp hc]
        exact isSettled_beanContent _ _
      have hdeclared : (t.append (.node n (beanContent "aggregatorStrategy"
          "io.hodos.runtime.ListAggregator") [])).declares "aggregatorStrategy" = true := by
        simp [Placed.declares, Placed.append, Placed.elementsBelow, beanContent,
          Content.declares, Content.name?, Content.attribute?, Attribute.find?]
      have hbelow : (t.append (.node n (beanContent "aggregatorStrategy"
          "io.hodos.runtime.ListAggregator") [])).resolvedBelow s =
            t.resolvedBelow s ++ [Tree.aggregator] := by
        rw [Placed.resolvedBelow, Placed.append, Placed.children_node, List.map_append,
          List.map_singleton, hbean]
        rfl
      simp only [Bool.false_eq_true, if_false, hdeclared, hbelow, Bool.not_true, Bool.and_false]
      rfl

variable {c c' : Content} {x : NodeId} {cs : List Placed}

/-- The pass puts a resolved reference inside the aggregations that it needs. -/
theorem resolved_reference (hc : c.isElement) (hc' : c'.isElement) (hset : c'.IsSettled)
    (hresolved : c.resolved s = c') :
    (Placed.node x c cs).toTree.resolved s =
      (c.batches s).foldr Tree.aggregated ((Placed.node x c' cs).toTree.resolved s) := by
  rw [Placed.toTree_node, Placed.toTree_node, Tree.resolved_of_isElement hc,
    Tree.resolved_of_isElement hc', hresolved, hset.resolved_eq, hset.batches_eq_nil]
  rfl

/-- Resolving a reference that is not batched keeps the pass. -/
theorem generated_plug_reference (h : Open (f :: fs)) (hc : c.isElement) (hc' : c'.isElement)
    (hset : c'.IsSettled) (hresolved : c.resolved s = c') (hbatches : c.batches s = [])
    (hdeclares : c'.declares "aggregatorStrategy" = c.declares "aggregatorStrategy") :
    (plug (f :: fs) (.node x c' cs)).toTree.generated s =
      (plug (f :: fs) (.node x c cs)).toTree.generated s := by
  refine generated_plug_congr h ?_ ?_ ?_
  · rw [resolved_reference hc hc' hset hresolved, hbatches]
    rfl
  · rw [Placed.elements_of_isElement hc, Placed.elements_of_isElement hc', List.any_cons,
      List.any_cons, hbatches, hset.batches_eq_nil]
  · rw [Placed.elements_of_isElement hc, Placed.elements_of_isElement hc', List.any_cons,
      List.any_cons, hdeclares]

/-- Putting a resolved producer inside its aggregations keeps the pass. -/
theorem generated_batchedAt {e : Endpoint} {as : List (NodeId × Nat × Nat)}
    (h : Open (f :: fs)) (hc : c.isElement) (hc' : c'.isElement) (hset : c'.IsSettled)
    (hresolved : c.resolved s = c') (hsettings : List.Forall₂ (Batches e) (c.batches s) as)
    (hdeclares : c'.declares "aggregatorStrategy" = c.declares "aggregatorStrategy")
    (n : NodeId) :
    ((Placed.node x c' cs).batchedAt (f :: fs) n as).toTree.generated s =
      (plug (f :: fs) (.node x c cs)).toTree.generated s := by
  cases as with
  | nil =>
      have hnone : c.batches s = [] := List.forall₂_nil_right_iff.mp hsettings
      exact generated_plug_reference h hc hc' hset hresolved hnone hdeclares
  | cons a as =>
      have hpass : ((Placed.node x c' cs).enclosedIn (a :: as)).toTree.resolved s =
          (Placed.node x c cs).toTree.resolved s := by
        rw [resolved_enclosedIn hsettings, resolved_reference hc hc' hset hresolved]
      have hbeans : ((Placed.node x c' cs).enclosedIn (a :: as)).elements.any
          (fun e => e.2.declares "aggregatorStrategy") =
            (Placed.node x c cs).elements.any fun e => e.2.declares "aggregatorStrategy" := by
        rw [Placed.any_declares_enclosedIn, Placed.elements_of_isElement hc,
          Placed.elements_of_isElement hc', List.any_cons, List.any_cons, hdeclares]
      have hcontent : (plug (f :: fs) ((Placed.node x c' cs).enclosedIn (a :: as))).content =
          (plug (f :: fs) (.node x c cs)).content := content_plug_congr (by rfl) fs
      have hneeded : (plug (f :: fs) (.node x c cs)).batchesBelow s = true := by
        obtain ⟨b, bs, -, -, hb⟩ := List.forall₂_cons_right_iff.mp hsettings
        rw [Placed.batchesBelow_plug h, Placed.elements_of_isElement hc, List.any_cons, hb]
        simp
      rw [Placed.batchedAt, generated_withAggregator, declares_plug_congr h hbeans, hcontent,
        Placed.resolvedBelow_plug_congr h hpass, Placed.generated_toTree, hneeded, Bool.true_and]
      cases (plug (f :: fs) (.node x c cs)).declares "aggregatorStrategy" <;> rfl

/-- A step keeps what the pass makes of the tree, where no consumer is batched. -/
theorem Resolves.generated_eq {low : Nat} {m : Marker} {t t' : Placed}
    (h : Resolves s Endpoint.batching low m t t')
    (hnone : t.tallyBelow (fun c => !(c.expansions s).isEmpty) = 0) :
    t'.toTree.generated s = t.toTree.generated s := by
  cases h with
  | @step f fs x c cs uri name e t' hopen hname huri hlogical hfirst hendpoint he hphysical
      hbatched =>
      have htarget := Content.target_eq_some hname huri hendpoint he
      have hc : c.isElement := Content.isElement_of_name hname
      have hset := (isPhysical_setAttribute hc hphysical).isSettled
      have hname' : (c.setAttribute Uri.attributeKey
          (Uri.appendOptions e.uri (e.options m.role))).name? = some m.tagName := by
        rw [Content.name_setAttribute, hname]
      have hc' := Content.isElement_of_name hname'
      have hresolved : c.resolved s = c.setAttribute Uri.attributeKey
          (Uri.appendOptions e.uri (e.options m.role)) := by
        rw [Content.resolved, htarget]
      have hdeclares := (Content.declares_of_marker hname' "aggregatorStrategy").trans
        (Content.declares_of_marker hname "aggregatorStrategy").symm
      cases hbatched with
      | producer =>
          have hbatches : c.batches s = [] := by rw [Content.batches, htarget]
          exact generated_plug_reference hopen hc hc' hset hresolved hbatches hdeclares
      | aside hleads =>
          have hbatches : c.batches s = [] := by rw [Content.batches, htarget]
          exact generated_plug_reference hopen hc hc' hset hresolved hbatches hdeclares
      | expanded hleads hexpands =>
          have hbatches : c.batches s = [] := by rw [Content.batches, htarget]
          have hexpansions : c.expansions s = e.batching := by rw [Content.expansions, htarget]
          have hempty : e.batching = [] := by
            have hat : (x, c) ∈ (plug (f :: fs) (.node x c cs)).elementsBelow := by
              rw [elementsBelow_plug hopen, Placed.elements_of_isElement hc]
              simp
            have hzero := List.countP_eq_zero.mp hnone _ hat
            simpa [hexpansions] using hzero
          rw [hempty] at hexpands
          cases hexpands
          exact generated_plug_reference hopen hc hc' hset hresolved hbatches hdeclares
      | enclosed hsettings has hn =>
          have hbatches : c.batches s = e.batching := by rw [Content.batches, htarget]
          rw [← hbatches] at hsettings
          exact generated_batchedAt hopen hc hc' hset hresolved hsettings hdeclares _

end Step

/-- Where nothing refers to an endpoint, the pass changes nothing. -/
theorem Placed.generated_eq_self {s : Snapshot} {t : Placed}
    (h : ∀ e ∈ t.elementsBelow, e.2.IsSettled) : t.toTree.generated s = t.toTree := by
  have hbatches : t.batchesBelow s = false := by
    refine List.any_eq_false.mpr fun e he => ?_
    simp [(h e he).batches_eq_nil s]
  have hbelow : t.resolvedBelow s = t.children.map toTree := by
    refine List.map_congr_left fun u hu => Tree.resolved_eq_self s fun c hc => ?_
    rw [← elements_map_content] at hc
    obtain ⟨e, he, rfl⟩ := List.mem_map.mp hc
    exact h e (List.mem_flatMap.mpr ⟨u, hu, he⟩)
  obtain ⟨id, c, children⟩ := t
  rw [generated_toTree, hbatches, hbelow, toTree_node]
  rfl

end Route

namespace Generator

variable {g : Generator} {directories : Directories} {s : Snapshot} {m : Marker}
  {p p' : Progress}

/-! ## Generating a policy -/

/-- The root shows a tree of which the pass makes a given one, and no consumer below it
is batched. -/
def Passes (s : Snapshot) (result : Tree) (p : Progress) : Prop :=
  ∃ t : Placed, p.document.ShowsRoot t ∧ t.content.isElement ∧
    t.tallyBelow (fun c => !(c.expansions s).isEmpty) = 0 ∧ t.toTree.generated s = result

theorem Passes.step (hregistry : g.registry = .standard) {policy : String} {result : Tree}
    (hp : Passes s result p) (h : Step g directories s policy m p p') : Passes s result p' := by
  obtain ⟨t, ht, htop, hnone, hresult⟩ := hp
  obtain ⟨t', hresolves, -, ht'⟩ := h.exists_resolves (.inl hregistry) ht htop
  have hle := (hresolves.tallyBelow_le htop).1 (fun c => !(c.expansions s).isEmpty) fun c hc => by
    simp [Content.expansions, hc.target_eq_none s]
  rw [hregistry, funext entries_standard] at hresolves
  refine ⟨t', ht', hresolves.content ▸ htop, by omega, ?_⟩
  rw [hresolves.generated_eq hnone, hresult]

/-- Where no kind of marker has anything left to resolve, the pass is done. -/
theorem Passes.tree_eq {result : Tree} (hp : Passes s result p)
    (hexhausted : ∀ m : Marker, Exhausted m p) : p.document.tree p.document.root = result := by
  obtain ⟨t, ht, -, -, hresult⟩ := hp
  have hsettled : ∀ e ∈ t.elementsBelow, e.2.IsSettled := by
    intro e he m hname
    exact (hexhausted m).isPhysical_of_mem ht he hname
  rw [ht.tree, ← hresult, Placed.generated_eq_self hsettled]

/-- No consumer below the root refers to a batching endpoint. -/
def ConsumersApart (s : Snapshot) (d : Document) : Prop :=
  ∀ n ∈ d.descendants d.root, d.isNamed Marker.consumer.tagName n →
    ∀ uri name e, d.attribute? n Uri.attributeKey = some uri →
      Uri.endpointName? uri = some name → s.endpoint? name = some e →
        e.hasCharacteristic BatchRetry.kindName = false

theorem ConsumersApart.passes {d : Document} (hapart : ConsumersApart s d) {t : Placed}
    (ht : d.ShowsRoot t) (htop : t.content.isElement) (resolvers : ResolverChain) :
    Passes s ((d.tree d.root).generated s) (start d resolvers) := by
  refine ⟨t, ht, htop, List.countP_eq_zero.mpr fun e he hexpanded => ?_, by rw [ht.tree]⟩
  obtain ⟨hname, uri, name, endpoint, huri, hendpoint, hfound, hbatching⟩ :=
    Content.exists_of_expansions (s := s) (c := e.2) (by simpa using hexpanded)
  have hread : d.attribute? e.1 Uri.attributeKey = some uri := by
    rw [Document.attribute_of_content (ht.content_of_mem he), huri]
  have hfalse := hapart e.1 (ht.mem_descendants he) (ht.isNamed_of_mem he hname) uri name endpoint
    hread hendpoint hfound
  rw [hbatching] at hfalse
  cases hfalse

/-- Where no consumer refers to a batching endpoint, what is generated is the written
form of the tree after the pass. -/
theorem definition_eq_generated (hregistry : g.registry = .standard)
    {resolvers resolvers' : ResolverChain} {policy : Policy} {definition : String} {d : Document}
    {generated : GeneratedPolicy} (hparse : Document.parse definition = .ok d)
    (hapart : ConsumersApart s d)
    (hgenerate : g.generateWith directories resolvers s policy definition =
      .ok (generated, resolvers')) :
    generated.definition = ((d.tree d.root).generated s).toText := by
  obtain ⟨d', final, hparse', hfinal, hdefinition⟩ := generateWith_eq_ok hgenerate
  rw [hparse, Except.ok.injEq] at hparse'
  subst hparse'
  have hsound : Sound (start d resolvers) := sound_start hparse
  have hpasses : Passes s ((d.tree d.root).generated s) (start d resolvers) := by
    obtain ⟨t, ht, htop⟩ := hsound
    exact hapart.passes ht htop resolvers
  have hsteps := references_lt_steps hparse
  have hlast := of_resolveKinds (fun m _ p p' hp hstep => Passes.step hregistry hp hstep) hfinal
    hpasses
  have hexhausted := exhausted_of_resolveKinds (.inl hregistry) hsound hsteps hfinal
  rw [hdefinition, Document.serialize, hlast.tree_eq fun m => hexhausted m (by cases m <;> decide)]

/-- A producer inside another one is put inside an aggregation where it stands. -/
theorem definition_eq_generated_nested :
    ∃ generated resolvers,
      generateWith ⟨.standard, .empty, .empty⟩ (fun _ => false) .empty batchingSnapshot
        { name := "p" } nestedReferences = .ok (generated, resolvers) ∧
      generated.definition =
        ((nestedDocument.tree nestedDocument.root).generated batchingSnapshot).toText := by
  have hparse : Document.parse nestedReferences = .ok nestedDocument :=
    Outcome.of_toOption_eq_some (by decide +kernel)
  have hapart : ConsumersApart batchingSnapshot nestedDocument := by
    intro n hn hname
    have hnone : ∀ n ∈ nestedDocument.descendants nestedDocument.root,
        nestedDocument.isNamed Marker.consumer.tagName n = false := by decide
    rw [hnone n hn] at hname
    cases hname
  have hok : (generateWith ⟨.standard, .empty, .empty⟩ (fun _ => false) .empty batchingSnapshot
      { name := "p" } nestedReferences).isOk = true := by
    decide +kernel
  obtain ⟨⟨generated, resolvers⟩, hgenerate⟩ := Outcome.exists_of_isOk hok
  exact ⟨generated, resolvers, hgenerate, definition_eq_generated rfl hparse hapart hgenerate⟩

end Generator

end RouteCompiler
