import RouteCompiler.Proofs.Generation.Edits
import RouteCompiler.Proofs.Generation.Preservation

/-!
# Declarations of support beans

Batching uses two beans, which every expansion and every aggregation makes sure of.  Edits
move what was declared before and may even lose it, but they declare nothing twice: where at
most one element declared a bean, at most one does afterwards.  What is declared anew stands
directly below the root.

Main definitions:

- `Document.declarations`: the elements below the root that declare a bean.
- `Document.Awaits`: a reference that will need the beans is left.

Main results:

- Lemmas `TreeEdit.tallyBelow_declares_le` and `TreeEdit.declaresAtTop`: what an edit keeps.
- Theorem `declarations_of_generateWith`: how often a generated policy declares the beans.
-/

namespace RouteCompiler

open RouteCompiler.Route

namespace Route

/-! ## Counting declarations -/

/-- The elements below the root that declare the bean of an identifier. -/
def Document.declarations (d : Document) (id : String) : List NodeId :=
  (d.descendants d.root).filter fun n =>
    d.isNamed beanElement n && d.attribute? n "id" == some id

theorem Document.ShowsRoot.length_declarations {d : Document} {t : Placed} (h : d.ShowsRoot t)
    (id : String) : (d.declarations id).length = t.tallyBelow (Content.declares id) := by
  rw [declarations, h.descendants, List.filter_map, List.length_map, Placed.tallyBelow,
    List.countP_eq_length_filter]
  congr 1
  refine List.filter_congr fun e he => ?_
  have hcontent := h.content_of_mem he
  simp [Content.declares, isNamed_of_content hcontent, attribute_of_content hcontent]

theorem foreign_declares (id : String) : Foreign (Content.declares id) where
  plain _ hc := hc.declares id
  sender _ _ := Content.declares_of_marker rfl id

namespace Placed

variable {P : Content → Bool} {t b u u' : Placed} {f : Frame} {fs : List Frame}
  {n : NodeId} {id id' className : String}

theorem declares_iff_tallyBelow_pos :
    t.declares id = true ↔ 0 < t.tallyBelow (Content.declares id) := by
  rw [declares, List.any_eq_true, tallyBelow, List.countP_pos_iff]

theorem tallyBelow_append (P : Content → Bool) (t b : Placed) :
    (t.append b).tallyBelow P = t.tallyBelow P + tally P [b] := by
  simp [append, tallyBelow, elementsBelow, tally]

/-- What is counted below the top around a place. -/
theorem tallyBelow_plug (hopen : Open (f :: fs)) (u : Placed) :
    (plug (f :: fs) u).tallyBelow P = (elementsBefore (f :: fs)).tail.countP (fun e => P e.2) +
      tally P [u] + (tally P f.right + (elementsBehind fs).countP fun e => P e.2) := by
  simp [tallyBelow, elementsBelow_plug hopen, tally, elementsBehind, Nat.add_assoc]

/-- A bean that was declared at most once still is when it was made sure of. -/
theorem tallyBelow_withBean_le (h : t.tallyBelow (Content.declares id) ≤ 1) :
    (t.withBean n id' className).tallyBelow (Content.declares id) ≤ 1 := by
  rw [withBean]
  split
  · exact h
  · next hnew =>
    have hbean : tally (Content.declares id) [node n (beanContent id' className) []] =
        if id' = id then 1 else 0 := by
      have hdeclares := declares_beanContent id' className id
      rw [beanContent] at hdeclares ⊢
      simp [tally, hdeclares, List.countP_cons]
    rw [tallyBelow_append, hbean]
    split
    · next heq =>
      rw [heq, declares_iff_tallyBelow_pos] at hnew
      omega
    · exact h

/-- What the trees directly below the top hold at theirs. -/
def tops (t : Placed) : List (NodeId × Content) :=
  t.children.map fun u => (u.id, u.content)

theorem tops_append (t b : Placed) : (t.append b).tops = t.tops ++ [(b.id, b.content)] := by
  simp [tops, append]

theorem tops_withBean_sublist (t : Placed) (n : NodeId) (id className : String) :
    t.tops.Sublist (t.withBean n id className).tops := by
  rw [withBean]
  split
  · exact List.Sublist.refl _
  · rw [tops_append]
    exact List.sublist_append_left _ _

theorem tops_plug_congr (hid : u.id = u'.id) (hcontent : u.content = u'.content) (f : Frame)
    (fs : List Frame) : (plug (f :: fs) u).tops = (plug (f :: fs) u').tops := by
  induction fs generalizing f u u' with
  | nil => simp [plug, Frame.fill, tops, hid, hcontent]
  | cons g fs ih => exact ih (show (f.fill [u]).id = (f.fill [u']).id from rfl) rfl g

/-- What stands at a place is the only tree directly below the top that may change. -/
theorem mem_tops_plug (u' : Placed) {e : NodeId × Content} (h : e ∈ (plug (f :: fs) u).tops)
    (hne : e ≠ (u.id, u.content)) : e ∈ (plug (f :: fs) u').tops := by
  cases fs with
  | nil =>
      simp only [plug, Frame.fill, tops, children_node, List.map_append, List.map_cons,
        List.map_nil, List.mem_append, List.mem_cons, List.not_mem_nil, or_false] at h ⊢
      tauto
  | cons g fs =>
      have hid : (f.fill [u]).id = (f.fill [u']).id := rfl
      rwa [plug, ← tops_plug_congr hid rfl]

/-- Every bean that is declared at a free address is declared directly below the top. -/
def DeclaresAtTop (low : Nat) (t : Placed) : Prop :=
  ∀ e ∈ t.nodes, ∀ id, low ≤ e.1 → e.2.declares id = true → e ∈ t.tops

theorem DeclaresAtTop.withBean {low : Nat} (h : t.DeclaresAtTop low) (n : NodeId)
    (id className : String) : (t.withBean n id className).DeclaresAtTop low := by
  intro e he id' hlow hdeclares
  by_cases hold : e ∈ t.nodes
  · exact (t.tops_withBean_sublist ..).subset (h e hold id' hlow hdeclares)
  · rw [Placed.withBean] at he ⊢
    split at he
    · exact absurd he hold
    · next hnew =>
      rw [if_neg hnew, tops_append]
      rw [nodes_append, List.mem_append] at he
      have hbean := he.resolve_left hold
      simpa using Or.inr hbean

/-- What stands at a place may be replaced where neither its top declared a bean nor the
replacement declares a further one. -/
theorem DeclaresAtTop.replace {low : Nat} (h : (plug (f :: fs) u).DeclaresAtTop low)
    (htop : ∀ id, u.content.declares id = false)
    (hnodes : ∀ e ∈ u'.nodes, ∀ id, e.2.declares id = true → e ∈ u.nodes) :
    (plug (f :: fs) u').DeclaresAtTop low := by
  intro e he id hlow hdeclares
  have hold : e ∈ (plug (f :: fs) u).nodes := by
    rw [nodes_plug] at he ⊢
    simp only [List.mem_append] at he ⊢
    exact he.imp_left (Or.imp_right fun he => hnodes e he id hdeclares)
  refine mem_tops_plug u' (h e hold id hlow hdeclares) ?_
  rintro rfl
  rw [htop id] at hdeclares
  cases hdeclares

end Placed

theorem Document.ShowsRoot.mem_children_of_mem_tops {d : Document} {t : Placed}
    (h : d.ShowsRoot t) {e : NodeId × Content} (he : e ∈ t.tops) : e.1 ∈ d.children d.root := by
  obtain ⟨u, hu, rfl⟩ := List.mem_map.mp he
  have hplace : d.ShowsRoot (plug [] (.node t.id t.content t.children)) := by
    rw [t.eta]
    exact h
  rw [h.1, hplace.among.children_plug]
  exact List.mem_map_of_mem hu

/-! ## What an edit keeps -/

namespace TreeEdit

open Placed

variable {s : Snapshot} {low : Nat} {t t' : Placed} {id : String}

/-- An edit declares nothing twice. -/
theorem tallyBelow_declares_le (h : TreeEdit s low t t')
    (hone : t.tallyBelow (Content.declares id) ≤ 1) :
    t'.tallyBelow (Content.declares id) ≤ 1 := by
  have hforeign := foreign_declares id
  cases h with
  | @set f fs x c cs m uri hopen hname =>
      have hc : c.isElement := Content.isElement_of_name hname
      have hc' : (c.setAttribute Uri.attributeKey uri).isElement := by
        simpa [Content.isElement] using hc
      rw [tallyBelow_plug hopen, tally_node hc, Content.declares_of_marker hname] at hone
      rw [tallyBelow_plug hopen, tally_node hc', Content.declares_of_marker (by simpa using hname)]
      exact hone
  | @enclose f fs u m n as hopen hname hn =>
      refine tallyBelow_withBean_le ?_
      rw [tallyBelow_plug hopen, tally_enclosedIn hforeign, ← tallyBelow_plug hopen]
      exact hone
  | @expand f fs u y maxRetry uri n m hopen hleads hphysical hfits hn hm =>
      refine tallyBelow_withBean_le (tallyBelow_withBean_le ?_)
      have hopen' := (tally_withRight (P := fun _ => false) hopen (y.result s maxRetry uri f.right)
        u).1
      have hresult := tally_result_le hforeign hfits s maxRetry hphysical f.right
      rw [tallyBelow_plug hopen] at hone
      rw [tallyBelow_plug hopen']
      simp only [elementsBefore] at hone ⊢
      omega

/-- An edit keeps both support beans declared. -/
theorem declares (h : TreeEdit s low t t') (hid : id ∈ ["aggregatorStrategy", "retrySupport"])
    (hdeclares : t.declares id = true) : t'.declares id = true := by
  cases h with
  | @set f fs x c cs m uri hopen hname =>
      have hc : c.isElement := Content.isElement_of_name hname
      have hc' : (c.setAttribute Uri.attributeKey uri).isElement := by
        simpa [Content.isElement] using hc
      rw [← hdeclares]
      refine declares_plug_congr hopen ?_
      rw [elements_of_isElement hc, elements_of_isElement hc', List.any_cons, List.any_cons,
        Content.declares_of_marker hname, Content.declares_of_marker (by simpa using hname)]
  | @enclose f fs u m n as hopen hname hn =>
      refine declares_withBean_of_declares ?_
      rw [← hdeclares]
      exact declares_plug_congr hopen (any_declares_enclosedIn as u id)
  | expand hopen hleads hphysical hfits hn hm =>
      simp only [List.mem_cons, List.not_mem_nil, or_false] at hid
      rcases hid with rfl | rfl
      · exact declares_withBean_of_declares (declares_withAggregator ..)
      · exact declares_withRetrySupport ..

/-- Aggregations add no declaration. -/
theorem mem_nodes_enclosedIn {as : List (NodeId × Nat × Nat)} {u : Placed} {e : NodeId × Content}
    (he : e ∈ (u.enclosedIn as).nodes) (hdeclares : e.2.declares id = true) : e ∈ u.nodes := by
  induction as with
  | nil => exact he
  | cons a as ih =>
      have hstep : u.enclosedIn (a :: as) = (u.enclosedIn as).enclosed a.1 a.2.1 a.2.2 := rfl
      rw [hstep, nodes_enclosed, List.mem_append] at he
      rcases he with he | he
      · rw [(elements_number_plain he).declares] at hdeclares
        cases hdeclares
      · exact ih he

/-- An edit declares beans directly below the top only. -/
theorem declaresAtTop (h : TreeEdit s low t t') (ht : t.DeclaresAtTop low) :
    t'.DeclaresAtTop low := by
  cases h with
  | @set f fs x c cs m uri hopen hname =>
      refine ht.replace (Content.declares_of_marker hname) fun e he id hdeclares => ?_
      rw [nodes_node, List.mem_cons] at he ⊢
      rcases he with rfl | he
      · rw [Content.declares_of_marker (by simpa using hname)] at hdeclares
        cases hdeclares
      · exact .inr he
  | @enclose f fs u m n as hopen hname hn =>
      exact (ht.replace (Content.declares_of_marker hname) fun e he id hdeclares =>
        mem_nodes_enclosedIn he hdeclares).withBean n _ _
  | @expand f fs u y maxRetry uri n m hopen hleads hphysical hfits hn hm =>
      obtain ⟨g, fs, rfl⟩ := List.exists_cons_of_ne_nil (Expands.ne_nil_of_leads hleads)
      have hplug : (plug (⟨f.id, f.content, f.left, y.result s maxRetry uri f.right⟩ :: g :: fs)
          u).DeclaresAtTop low := by
        intro e he id hlow hdeclares
        have hold : e ∈ (plug (f :: g :: fs) u).nodes := by
          rw [nodes_plug, nodesBefore, nodesBehind] at he ⊢
          simp only [List.mem_append] at he ⊢
          refine he.imp_right (Or.imp_left fun he => ?_)
          refine (Expansion.mem_result hfits he).resolve_right fun hadded => ?_
          rw [hadded.declares id] at hdeclares
          cases hdeclares
        have hid : (f.fill [u]).id =
            (Frame.fill ⟨f.id, f.content, f.left, y.result s maxRetry uri f.right⟩ [u]).id := rfl
        have htops := ht e hold id hlow hdeclares
        rw [plug] at htops ⊢
        rwa [← tops_plug_congr hid rfl]
      exact (hplug.withBean n _ _).withBean m _ _

end TreeEdit

/-! ## Setting an attribute -/

namespace Document

variable (d : Document) (x : NodeId) (key value : String)

@[simp] theorem parent_setAttribute (n : NodeId) :
    (d.setAttribute x key value).parent? n = d.parent? n := by
  simp only [parent?, setAttribute, modifyContent, getElem_modifyNode]
  split
  · cases d.nodes[n]? <;> rfl
  · rfl

@[simp] theorem children_setAttribute (n : NodeId) :
    (d.setAttribute x key value).children n = d.children n := by
  simp only [children, setAttribute, modifyContent, getElem_modifyNode]
  split
  · cases d.nodes[n]? <;> rfl
  · rfl

theorem content_setAttribute_of_ne {n : NodeId} (h : n ≠ x) :
    (d.setAttribute x key value).content? n = d.content? n := by
  simp only [content?, setAttribute, modifyContent, getElem_modifyNode, if_neg h]

@[simp] theorem name_setAttribute (n : NodeId) :
    (d.setAttribute x key value).name? n = d.name? n := by
  by_cases h : n = x
  · simp only [name?, content?, setAttribute, modifyContent, getElem_modifyNode, if_pos h]
    cases d.nodes[n]? <;> simp
  · simp only [name?, d.content_setAttribute_of_ne x key value h]

@[simp] theorem isNamed_setAttribute (name : String) (n : NodeId) :
    (d.setAttribute x key value).isNamed name n = d.isNamed name n := by
  simp [isNamed]

@[simp] theorem isElement_setAttribute (n : NodeId) :
    (d.setAttribute x key value).isElement n = d.isElement n := by
  simp [isElement]

theorem elementChildren_setAttribute (n : NodeId) :
    (d.setAttribute x key value).elementChildren n = d.elementChildren n := by
  simp [elementChildren, List.filter_congr]

/-- A walk depends on links and names only. -/
theorem descendants_setAttribute (n : NodeId) :
    (d.setAttribute x key value).descendants n = d.descendants n := by
  have hweight : ∀ depth n, (d.setAttribute x key value).weightWithin depth n =
      d.weightWithin depth n := by
    intro depth
    induction depth with
    | zero => exact fun n => rfl
    | succ depth ih =>
        intro n
        change 1 + (((d.setAttribute x key value).children n).map _).sum =
          1 + ((d.children n).map _).sum
        rw [children_setAttribute, funext ih]
  have hwalk : ∀ steps pending, (d.setAttribute x key value).walk steps pending =
      d.walk steps pending := by
    intro steps
    induction steps with
    | zero => exact fun pending => rfl
    | succ steps ih =>
        intro pending
        cases pending with
        | nil => rfl
        | cons n pending => simp [walk, ih]
  have hsize : (d.setAttribute x key value).size = d.size := size_modifyContent ..
  rw [descendants, descendants, hsize, hweight, hwalk, children_setAttribute]

end Document

/-! ## References that will be batched -/

namespace Document

variable {d : Document} {s : Snapshot} {x y : NodeId} {m m' : Marker} {e e' : Endpoint}

/-- A node is the first element below a route that stands right below a context. -/
def Leads (d : Document) (x : NodeId) : Prop :=
  ∃ route context, d.parent? x = some route ∧ d.isNamed "route" route = true ∧
    d.parent? route = some context ∧ d.isNamed "camelContext" context = true ∧
      (d.elementChildren route).head? = some x

/-- Below the root a marker of a kind refers to a batching endpoint; a consumer counts where it
leads a route. -/
def Awaits (d : Document) (s : Snapshot) (m : Marker) : Prop :=
  ∃ x ∈ d.descendants d.root, ∃ e, d.Targets s x m e ∧
    e.hasCharacteristic BatchRetry.kindName = true ∧ (m = .consumer → d.Leads x)

theorem Leads.leadingRoute_ne_none (h : d.Leads x) : BatchRetry.leadingRoute? d x ≠ none := by
  obtain ⟨route, context, hroute, hnamed, hcontext, hnamed', hfirst⟩ := h
  simp [BatchRetry.leadingRoute?, hroute, hnamed, hcontext, hnamed', hfirst]

theorem Targets.unique (h : d.Targets s x m e) (h' : d.Targets s x m' e') : m = m' ∧ e = e' := by
  obtain ⟨hname, uri, name, huri, hendpoint, he⟩ := h
  obtain ⟨hname', uri', name', huri', hendpoint', he'⟩ := h'
  rw [isNamed, beq_iff_eq] at hname hname'
  rw [huri, Option.some.injEq] at huri'
  rw [← huri', hendpoint, Option.some.injEq] at hendpoint'
  rw [← hendpoint', he, Option.some.injEq] at he'
  refine ⟨?_, he'⟩
  have htag : m'.tagName = m.tagName := Option.some.inj (hname'.symm.trans hname)
  have hmarker := Marker.ofTagName_tagName m'
  rw [htag, Marker.ofTagName_tagName, Option.some.injEq] at hmarker
  exact hmarker

theorem Targets.setAttribute (h : d.Targets s x m e) (hne : x ≠ y) (key value : String) :
    (d.setAttribute y key value).Targets s x m e := by
  obtain ⟨hname, uri, name, huri, hendpoint, he⟩ := h
  refine ⟨by simpa using hname, uri, name, ?_, hendpoint, he⟩
  rw [attribute?, d.content_setAttribute_of_ne y key value hne]
  exact huri

theorem Leads.setAttribute (h : d.Leads x) (y : NodeId) (key value : String) :
    (d.setAttribute y key value).Leads x := by
  obtain ⟨route, context, hroute, hnamed, hcontext, hnamed', hfirst⟩ := h
  refine ⟨route, context, ?_, ?_, ?_, ?_, ?_⟩
  · simpa using hroute
  · simpa using hnamed
  · simpa using hcontext
  · simpa using hnamed'
  · rw [elementChildren_setAttribute]
    exact hfirst

/-- A step that only sets the URI of a reference leaves those that will be batched. -/
theorem Awaits.setAttribute (h : d.Awaits s m) (hm : m ≠ .producer)
    (hy : d.Targets s y m' e) (hbare : e.batching = [] ∨ m' = .producer ∨
      m' = .consumer ∧ BatchRetry.leadingRoute? d y = none) (key value : String) :
    (d.setAttribute y key value).Awaits s m := by
  obtain ⟨x, hx, e', htargets, hbatches, hleads⟩ := h
  have hne : x ≠ y := by
    rintro rfl
    obtain ⟨rfl, rfl⟩ := htargets.unique hy
    rcases hbare with hnil | hproducer | ⟨hconsumer, hnone⟩
    · obtain ⟨entry, hentry, hkind⟩ := List.any_eq_true.mp hbatches
      have hmem : entry ∈ e'.batching := List.mem_filter.mpr ⟨hentry, hkind⟩
      rw [hnil] at hmem
      cases hmem
    · exact hm hproducer
    · exact (hleads hconsumer).leadingRoute_ne_none hnone
  refine ⟨x, ?_, e', htargets.setAttribute hne key value, hbatches, fun hconsumer =>
    (hleads hconsumer).setAttribute y key value⟩
  rw [descendants_setAttribute]
  exact hx

end Document

end Route

namespace Generator

open RouteCompiler.Route

variable {g : Generator} {directories : Directories} {s : Snapshot} {policy : String}
  {m : Marker} {p p' : Progress} {low : Nat}

/-! ## Runs -/

/-- The support beans that a kind of marker needs. -/
def supportBeans : Marker → List String
  | .consumer => ["aggregatorStrategy", "retrySupport"]
  | .oneWayProducer => ["aggregatorStrategy"]
  | .producer => []

/-- The tree of the root declares each support bean at most once, and new ones at the top. -/
structure Declared (low : Nat) (p : Progress) (t : Placed) : Prop where
  shows : p.document.ShowsRoot t
  isElement : t.content.isElement
  low_le : low ≤ p.document.size
  atMostOnce : ∀ id ∈ supportBeans .consumer, t.tallyBelow (Content.declares id) ≤ 1
  atTop : t.DeclaresAtTop low

/-- Where references of a kind are to be batched, the beans that they need are declared. -/
def Supported (s : Snapshot) (m : Marker) (p : Progress) (t : Placed) : Prop :=
  p.document.Awaits s m ∨ ∀ id ∈ supportBeans m, t.declares id = true

theorem mem_supportBeans {id : String} (h : id ∈ supportBeans m) :
    id ∈ ["aggregatorStrategy", "retrySupport"] := by
  cases m with
  | consumer => exact h
  | producer => cases h
  | oneWayProducer => exact List.mem_cons.mpr (.inl (List.mem_singleton.mp h))

/-- A step declares nothing twice, and what is declared stays declared.  A step for consumers
keeps every kind supported; one for producers keeps the kinds of producers so. -/
theorem Declared.step (hregistry : g.registry = .standard) {t : Placed}
    (hp : Declared low p t) (h : Step g directories s policy m p p') :
    ∃ t', Declared low p' t' ∧
      (∀ id ∈ supportBeans .consumer, t.declares id = true → t'.declares id = true) ∧
      ∀ k, k ≠ .producer → (k = .consumer → m = .consumer) → Supported s k p t →
        Supported s k p' t' := by
  obtain ⟨t', x, e, ht', hlow, hedits, htargets, houtcome⟩ :=
    h.exists_edits hregistry hp.shows hp.isElement hp.low_le
  have hkept : ∀ id ∈ supportBeans .consumer, t.declares id = true → t'.declares id = true := by
    intro id hid
    exact hedits.keep fun _ _ hedit => hedit.declares hid
  refine ⟨t', ⟨ht', ?_, hlow, ?_, ?_⟩, hkept, ?_⟩
  · exact hedits.keep (I := fun t => t.content.isElement)
      (fun _ _ hedit htop => hedit.content ▸ htop) hp.isElement
  · intro id hid
    exact hedits.keep (I := fun t => t.tallyBelow (Content.declares id) ≤ 1)
      (fun _ _ hedit => hedit.tallyBelow_declares_le) (hp.atMostOnce id hid)
  · exact hedits.keep (fun _ _ hedit => hedit.declaresAtTop) hp.atTop
  · intro k hk hconsumer hsupported
    rcases hsupported with hawaits | hdeclared
    · rcases houtcome with ⟨⟨uri, hset⟩, hbare⟩ | ⟨haggregator, hretry⟩
      · refine .inl ?_
        rw [hset]
        exact hawaits.setAttribute hk htargets hbare Uri.attributeKey uri
      · refine .inr fun id hid => ?_
        cases k with
        | producer => exact absurd rfl hk
        | oneWayProducer =>
            rw [List.mem_singleton.mp hid]
            exact haggregator
        | consumer =>
            simp only [supportBeans, List.mem_cons, List.not_mem_nil, or_false] at hid
            rcases hid with rfl | rfl
            · exact haggregator
            · exact hretry (hconsumer rfl)
    · exact .inr fun id hid => hkept id (mem_supportBeans hid) (hdeclared id hid)

theorem Exhausted.not_awaits (h : Exhausted m p) : ¬ p.document.Awaits s m := by
  rintro ⟨x, hx, e, ⟨hname, uri, name, huri, hendpoint, -⟩, -⟩
  obtain ⟨uri', huri', hphysical⟩ := h.isPhysical hx hname
  rw [huri, Option.some.injEq] at huri'
  have hnone : Uri.afterScheme? uri = none := by
    simpa [Uri.isLogical, huri'] using hphysical
  simp [Uri.endpointName?, hnone] at hendpoint

/-- The loops over all markers end with every bean declared that the references needed. -/
theorem exists_declared (hregistry : g.registry = .standard) {t₀ : Placed} {steps : Nat}
    (hp : Declared low p t₀) (hsteps : p.document.references.length < steps)
    (h : g.resolveKinds directories s policy steps Marker.all p = .ok p') :
    ∃ t, Declared low p' t ∧ ∀ m, m ≠ .producer → p.document.Awaits s m →
      ∀ id ∈ supportBeans m, t.declares id = true := by
  have hsound : Sound p := ⟨t₀, hp.shows, hp.isElement⟩
  have hexhausted := exhausted_of_resolveKinds (.inl hregistry) hsound hsteps h
  have hall : Marker.all = .consumer :: [.producer, .oneWayProducer] := rfl
  rw [hall] at h
  obtain ⟨p₁, hkind, hrest⟩ := Outcome.of_bind_eq_ok h
  obtain ⟨-, -, hnone, -⟩ := exists_loops_of_ok (.inl hregistry) hsound hsteps hkind
  have hexhausted₁ : Exhausted .consumer p₁ :=
    .of_nextReference (hsound.resolveKind (.inl hregistry) hkind) hnone
  -- While consumers are resolved, every kind stays supported.
  obtain ⟨t₁, hp₁, hsupported₁⟩ : ∃ t, Declared low p₁ t ∧
      ∀ m, m ≠ .producer → p.document.Awaits s m → Supported s m p₁ t := by
    refine of_resolveKind (I := fun q => ∃ t, Declared low q t ∧
      ∀ m, m ≠ .producer → p.document.Awaits s m → Supported s m q t) ?_ hkind
        ⟨t₀, hp, fun m _ hawaits => .inl hawaits⟩
    rintro q q' ⟨t, hq, hsupported⟩ hstep
    obtain ⟨t', hq', -, hkept⟩ := hq.step hregistry hstep
    exact ⟨t', hq', fun m hm hawaits => hkept m hm (fun _ => rfl) (hsupported m hm hawaits)⟩
  have hconsumer₁ : p.document.Awaits s .consumer →
      ∀ id ∈ supportBeans .consumer, t₁.declares id = true := fun hawaits =>
    (hsupported₁ .consumer nofun hawaits).resolve_left hexhausted₁.not_awaits
  -- Then no consumer is left, and the beans for consumers stay declared.
  obtain ⟨t, hp', honeWay, hconsumer⟩ : ∃ t, Declared low p' t ∧
      (p.document.Awaits s .oneWayProducer → Supported s .oneWayProducer p' t) ∧
        (p.document.Awaits s .consumer → ∀ id ∈ supportBeans .consumer, t.declares id = true) := by
    refine of_resolveKinds (I := fun q => ∃ t, Declared low q t ∧
      (p.document.Awaits s .oneWayProducer → Supported s .oneWayProducer q t) ∧
        (p.document.Awaits s .consumer → ∀ id ∈ supportBeans .consumer, t.declares id = true))
      ?_ hrest ⟨t₁, hp₁, hsupported₁ .oneWayProducer nofun, hconsumer₁⟩
    rintro k - q q' ⟨t, hq, honeWay, hconsumer⟩ hstep
    obtain ⟨t', hq', hdeclares, hkept⟩ := hq.step hregistry hstep
    exact ⟨t', hq', fun hawaits => hkept _ nofun nofun (honeWay hawaits),
      fun hawaits id hid => hdeclares id hid (hconsumer hawaits id hid)⟩
  refine ⟨t, hp', fun m hm hawaits => ?_⟩
  cases m with
  | producer => exact absurd rfl hm
  | consumer => exact hconsumer hawaits
  | oneWayProducer =>
      exact (honeWay hawaits).resolve_left (hexhausted .oneWayProducer (by decide)).not_awaits

/-! ## Generating a policy -/

/-- Where a definition declares each support bean at most once, the generated policy declares
exactly once the bean that collects messages, if a one-way producer refers to a batching
endpoint or a consumer that leads a route does, and in the second case also the bean that
keeps track of attempts.  What is declared anew stands directly below the root. -/
theorem declarations_of_generateWith (hregistry : g.registry = .standard)
    {resolvers resolvers' : ResolverChain} {policy : Policy} {definition : String} {d : Document}
    {generated : GeneratedPolicy} (hparse : Document.parse definition = .ok d)
    (haggregator : (d.declarations "aggregatorStrategy").length ≤ 1)
    (hretry : (d.declarations "retrySupport").length ≤ 1)
    (hgenerate : g.generateWith directories resolvers s policy definition =
      .ok (generated, resolvers')) :
    ∃ final, g.resolveKinds directories s policy.name (d.size + addedReferenceLimit) Marker.all
        (start d resolvers) = .ok final ∧
      generated.definition = final.document.serialize ∧
      (d.Awaits s .oneWayProducer ∨ d.Awaits s .consumer →
        (final.document.declarations "aggregatorStrategy").length = 1) ∧
      (d.Awaits s .consumer → (final.document.declarations "retrySupport").length = 1) ∧
      ∀ n ∈ final.document.descendants final.document.root, d.size ≤ n →
        final.document.isNamed beanElement n = true →
          (final.document.attribute? n "id").isSome = true →
            n ∈ final.document.children final.document.root := by
  obtain ⟨d', final, hparse', hfinal, hdefinition⟩ := generateWith_eq_ok hgenerate
  rw [hparse, Except.ok.injEq] at hparse'
  subst hparse'
  obtain ⟨t₀, hshows, hroot, htop⟩ := Document.exists_shows_of_parse hparse
  have ht₀ : d.ShowsRoot t₀ := ⟨hroot, [], hshows⟩
  have hstart : Declared d.size (start d resolvers) t₀ := by
    refine ⟨ht₀, htop, Nat.le_refl _, fun id hid => ?_, fun e he id hlow => ?_⟩
    · rw [← ht₀.length_declarations]
      simp only [supportBeans, List.mem_cons, List.not_mem_nil, or_false] at hid
      rcases hid with rfl | rfl
      · exact haggregator
      · exact hretry
    · exact absurd (ht₀.lt_size (List.mem_map_of_mem he)) (Nat.not_lt_of_le hlow)
  obtain ⟨t, ht, hdeclared⟩ := exists_declared hregistry hstart (references_lt_steps hparse) hfinal
  have honce : ∀ id ∈ supportBeans .consumer, t.declares id = true →
      (final.document.declarations id).length = 1 := by
    intro id hid hdeclares
    have hle := ht.atMostOnce id hid
    rw [Placed.declares_iff_tallyBelow_pos] at hdeclares
    rw [ht.shows.length_declarations]
    omega
  have honeWay := hdeclared .oneWayProducer nofun
  have hconsumer := hdeclared .consumer nofun
  refine ⟨final, hfinal, hdefinition, ?_, fun hawaits => ?_, fun n hn hlow hname hid => ?_⟩
  · rintro (hawaits | hawaits)
    · exact honce _ (by simp [supportBeans]) (honeWay hawaits _ (by simp [supportBeans]))
    · exact honce _ (by simp [supportBeans]) (hconsumer hawaits _ (by simp [supportBeans]))
  · exact honce _ (by simp [supportBeans]) (hconsumer hawaits _ (by simp [supportBeans]))
  · rw [ht.shows.descendants] at hn
    obtain ⟨e, he, rfl⟩ := List.mem_map.mp hn
    have hcontent := ht.shows.content_of_mem he
    obtain ⟨id, hid⟩ := Option.isSome_iff_exists.mp hid
    rw [Document.isNamed_of_content hcontent] at hname
    rw [Document.attribute_of_content hcontent] at hid
    have hdeclares : e.2.declares id = true := by
      rw [Content.declares, hname, hid]
      simp
    have hnode := Document.ShowsRoot.mem_nodes_of_mem_elementsBelow he
    exact ht.shows.mem_children_of_mem_tops (ht.atTop e hnode id hlow hdeclares)

/-- A definition with a route that takes batches and sends to a batching endpoint; it declares
one of the beans itself. -/
def declaringReferences : String :=
  "<b><camelContext><route><from uri=\"logical:q\"/><bean id=\"retrySupport\"/>" ++
    "<to uri=\"log:x\"/><inOnly uri=\"logical:q\"/></route></camelContext></b>"

/-- The document of that definition. -/
def declaringDocument : Document :=
  ⟨#[⟨.element "b" [], none, [1]⟩, ⟨.element "camelContext" [], some 0, [2]⟩,
    ⟨.element "route" [], some 1, [3, 4, 5, 6]⟩,
    ⟨.element "from" [⟨"uri", "logical:q"⟩], some 2, []⟩,
    ⟨.element "bean" [⟨"id", "retrySupport"⟩], some 2, []⟩,
    ⟨.element "to" [⟨"uri", "log:x"⟩], some 2, []⟩,
    ⟨.element "inOnly" [⟨"uri", "logical:q"⟩], some 2, []⟩], 0⟩

/-- Each of the beans is declared once, although two references need them. -/
theorem declarations_of_generateWith_declaring :
    ∃ generated resolvers, ∃ final : Document,
      generateWith ⟨.standard, .empty, .empty⟩ (fun _ => false) .empty batchingSnapshot
        { name := "p" } declaringReferences = .ok (generated, resolvers) ∧
      generated.definition = final.serialize ∧
      (final.declarations "aggregatorStrategy").length = 1 ∧
      (final.declarations "retrySupport").length = 1 := by
  have hparse : Document.parse declaringReferences = .ok declaringDocument :=
    Outcome.of_toOption_eq_some (by decide +kernel)
  have hok : (generateWith ⟨.standard, .empty, .empty⟩ (fun _ => false) .empty batchingSnapshot
      { name := "p" } declaringReferences).isOk = true := by
    decide +kernel
  have hawaits : declaringDocument.Awaits batchingSnapshot .consumer := by
    refine ⟨3, by decide, _, ⟨by decide, "logical:q", "q", by decide, by decide, rfl⟩, by decide,
      fun _ => ⟨2, 1, by decide, by decide, by decide, by decide, by decide⟩⟩
  obtain ⟨⟨generated, resolvers⟩, hgenerate⟩ := Outcome.exists_of_isOk hok
  obtain ⟨final, -, hdefinition, haggregator, hretry, -⟩ :=
    declarations_of_generateWith rfl hparse (by decide) (by decide) hgenerate
  exact ⟨generated, resolvers, final.document, hgenerate, hdefinition,
    haggregator (.inr hawaits), hretry hawaits⟩

end Generator

end RouteCompiler
