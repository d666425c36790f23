import RouteCompiler.Proofs.Generation.Exhaustion

/-!
# A step as edits

A step sets the URI of its reference and may then enclose the element in aggregations, or
expand it, round by round.  What each of these edits keeps, every step keeps.  A step that
does more than set the URI ends with the declaration of the beans that the new elements use.

Main definitions:

- `TreeEdit`: one edit of the tree of the root.
- `Document.Targets`: which endpoint a marker refers to.

Main results:

- Theorem `TreeEdits.keep`: what every edit keeps, several keep.
- Theorem `Step.exists_edits`: every step consists of edits.
-/

namespace RouteCompiler

open RouteCompiler.Route

namespace Route

/-! ## Declared beans -/

namespace Placed

variable {t : Placed} {n : NodeId} {id id' className : String}

theorem declares_append (t b : Placed) (id : String) :
    (t.append b).declares id = (t.declares id || b.elements.any fun e => e.2.declares id) := by
  simp [declares, append, elementsBelow, List.any_append]

/-- The element that declares a bean declares that one only. -/
theorem declares_beanContent (id className id' : String) :
    (beanContent id className).declares id' = (id == id') := by
  simp [beanContent, Content.declares, Content.name?, Content.attribute?, Attribute.find?]

/-- A bean that was made sure of is declared. -/
theorem declares_withBean (t : Placed) (n : NodeId) (id className : String) :
    (t.withBean n id className).declares id = true := by
  rw [withBean]
  split
  · next h => exact h
  · rw [declares_append]
    have hbean := declares_beanContent id className id
    rw [beanContent] at hbean ⊢
    simp [hbean]

/-- Making sure of a bean keeps what is declared. -/
theorem declares_withBean_of_declares (h : t.declares id = true) :
    (t.withBean n id' className).declares id = true := by
  rw [withBean]
  split
  · exact h
  · rw [declares_append, h, Bool.true_or]

theorem declares_withAggregator (t : Placed) (n : NodeId) :
    (t.withAggregator n).declares "aggregatorStrategy" = true :=
  t.declares_withBean ..

theorem declares_withRetrySupport (t : Placed) (n : NodeId) :
    (t.withRetrySupport n).declares "retrySupport" = true :=
  t.declares_withBean ..

end Placed

/-! ## Edits -/

/-- One edit of the tree of the root; new nodes have addresses from the given one on. -/
inductive TreeEdit (s : Snapshot) (low : Nat) : Placed → Placed → Prop
  /-- A marker gets another URI. -/
  | set {f : Frame} {fs : List Frame} {x : NodeId} {c : Content} {cs : List Placed} {m : Marker}
      (uri : String) (hopen : Open (f :: fs)) (hname : c.name? = some m.tagName) :
      TreeEdit s low (plug (f :: fs) (.node x c cs))
        (plug (f :: fs) (.node x (c.setAttribute Uri.attributeKey uri) cs))
  /-- A marker is put inside aggregations. -/
  | enclose {f : Frame} {fs : List Frame} {u : Placed} {m : Marker} {n : NodeId}
      {as : List (NodeId × Nat × Nat)} (hopen : Open (f :: fs))
      (hname : u.content.name? = some m.tagName) (hn : low ≤ n) :
      TreeEdit s low (plug (f :: fs) u) ((plug (f :: fs) (u.enclosedIn as)).withAggregator n)
  /-- A template takes the place of what follows a consumer. -/
  | expand {f : Frame} {fs : List Frame} {u : Placed} {y : Expansion} {maxRetry : Nat}
      {uri : String} {n m : NodeId} (hopen : Open (f :: fs)) (hleads : leads (f :: fs) = true)
      (hphysical : Uri.isLogical uri = false)
      (hfits : y.Fits low (!(Placed.comesNext s f.right).isEmpty)) (hn : low ≤ n) (hm : low ≤ m) :
      TreeEdit s low (plug (f :: fs) u)
        (((plug (⟨f.id, f.content, f.left, y.result s maxRetry uri f.right⟩ :: fs)
          u).withAggregator n).withRetrySupport m)

/-- Several edits, one after the other. -/
abbrev TreeEdits (s : Snapshot) (low : Nat) : Placed → Placed → Prop :=
  Relation.ReflTransGen (TreeEdit s low)

/-- What every edit keeps, several keep. -/
theorem TreeEdits.keep {s : Snapshot} {low : Nat} {I : Placed → Prop} {t t' : Placed}
    (hedit : ∀ t t', TreeEdit s low t t' → I t → I t') (h : TreeEdits s low t t') (ht : I t) :
    I t' := by
  induction h with
  | refl => exact ht
  | tail _ hlast ih => exact hedit _ _ hlast ih

/-- An edit keeps what the top holds. -/
theorem TreeEdit.content {s : Snapshot} {low : Nat} {t t' : Placed} (h : TreeEdit s low t t') :
    t'.content = t.content := by
  cases h with
  | @set f fs => exact content_plug_congr (by rfl) fs
  | @enclose f fs =>
      rw [Placed.withAggregator, content_withBean]
      exact content_plug_congr (by rfl) fs
  | @expand f fs =>
      rw [Placed.withRetrySupport, content_withBean, Placed.withAggregator, content_withBean]
      exact content_plug_congr (by rfl) fs

/-! ## Batching as edits -/

namespace Document.ShowsRoot

variable {d d' : Document} {f : Frame} {fs : List Frame} {x : NodeId} {c : Content}
  {cs : List Placed} {s : Snapshot} {policy : String} {e : Endpoint} {low : Nat}

/-- Batching a consumer is one edit for each setting, if it leads a route, and ends with both
beans declared. -/
theorem edits_batchConsumer {entries : List Characteristic}
    (h : d.ShowsRoot (plug (f :: fs) (.node x c cs))) (hopen : Open (f :: fs))
    (hname : c.name? = some Marker.consumer.tagName) (hphysical : c.IsPhysical)
    (hlow : low ≤ d.size) (hall : Generator.batchAll s policy e x d entries = .ok d') :
    (d' = d ∧ (entries = [] ∨ leads (f :: fs) = false)) ∨ ∃ t', d'.ShowsRoot t' ∧
      low ≤ d'.size ∧ TreeEdits s low (plug (f :: fs) (.node x c cs)) t' ∧
        t'.declares "aggregatorStrategy" = true ∧ t'.declares "retrySupport" = true := by
  induction entries generalizing d f fs with
  | nil =>
      simp only [Generator.batchAll, List.foldlM_nil, pure, Except.pure, Except.ok.injEq] at hall
      exact .inl ⟨hall.symm, .inl rfl⟩
  | cons entry entries ih =>
      obtain ⟨d₁, hprocess, hrest⟩ := Outcome.of_bind_eq_ok hall
      rcases h.processConsumer hname hlow hprocess with ⟨hleads, rfl⟩ |
        ⟨f', n, m, bs, y, maxRetry, hleads, rfl, hfits, hn, hm, -, hplug, -, hsize, hshows⟩
      · rcases h.batchConsumer hname hlow hrest with ⟨-, rfl⟩ | ⟨hnot, -⟩
        · exact .inl ⟨rfl, .inr hleads⟩
        · simp [hleads] at hnot
      · obtain ⟨uri, huri, hlogical⟩ := hphysical
        rw [huri, Option.getD_some] at hplug hshows
        have hedit : TreeEdit s low (plug (f :: fs) (.node x c cs))
            (((plug (⟨f.id, f.content, f.left, y.result s maxRetry uri f.right⟩ :: fs)
              (.node x c cs)).withAggregator n).withRetrySupport m) :=
          .expand hopen hleads hlogical hfits hn hm
        have hretry := Placed.declares_withRetrySupport ((plug (⟨f.id, f.content, f.left,
          y.result s maxRetry uri f.right⟩ :: fs) (.node x c cs)).withAggregator n) m
        have haggregator : (((plug (⟨f.id, f.content, f.left, y.result s maxRetry uri f.right⟩ ::
            fs) (.node x c cs)).withAggregator n).withRetrySupport m).declares
              "aggregatorStrategy" = true :=
          Placed.declares_withBean_of_declares (Placed.declares_withAggregator _ n)
        rw [hplug] at hedit hretry haggregator
        have hopen' := open_addAtEnd (fun g hg => hopen g (List.mem_cons_of_mem f hg)) bs
        have hopen'' : Open (⟨f.id, f.content, f.left, y.result s maxRetry uri f.right⟩ ::
            addAtEnd bs fs) := List.forall_mem_cons.mpr ⟨hopen f List.mem_cons_self, hopen'⟩
        rcases ih hshows hopen'' hsize hrest with
          ⟨rfl, -⟩ | ⟨t', ht', hsize', hedits, hdeclared⟩
        · exact .inr ⟨_, hshows, hsize, .single hedit, haggregator, hretry⟩
        · exact .inr ⟨t', ht', hsize', .head hedit hedits, hdeclared⟩

/-- Batching a marker with a physical URI leaves the document as it is, or it is done by
edits that end with the declaration of the beans that it needs. -/
theorem edits_batchAll {m : Marker} {entries : List Characteristic}
    (h : d.ShowsRoot (plug (f :: fs) (.node x c cs))) (hopen : Open (f :: fs))
    (hname : c.name? = some m.tagName) (hphysical : c.IsPhysical) (hlow : low ≤ d.size)
    (hall : Generator.batchAll s policy e x d entries = .ok d') :
    (d' = d ∧ (entries = [] ∨ m = .producer ∨ m = .consumer ∧ leads (f :: fs) = false)) ∨
      ∃ t', d'.ShowsRoot t' ∧ low ≤ d'.size ∧ TreeEdits s low (plug (f :: fs) (.node x c cs)) t' ∧
        t'.declares "aggregatorStrategy" = true ∧
          (m = .consumer → t'.declares "retrySupport" = true) := by
  cases m with
  | producer =>
      have hmarker : (d.name? x).bind Marker.ofTagName? = some .producer := by
        have hcontent : d.content? x = some c := h.content_plug
        rw [name_of_content hcontent, hname]
        exact Marker.ofTagName_tagName _
      exact .inl ⟨Generator.batchAll_producer hmarker hall, .inr (.inl rfl)⟩
  | oneWayProducer =>
      obtain ⟨as, n, hsettings, -, hn, hsize, hshows⟩ :=
        h.batchProducer (u := .node x c cs) hopen hname hall
      cases hsettings with
      | nil =>
          simp only [Generator.batchAll, List.foldlM_nil, pure, Except.pure, Except.ok.injEq]
            at hall
          exact .inl ⟨hall.symm, .inl rfl⟩
      | cons hfirst hrest =>
          exact .inr ⟨_, hshows, Nat.le_trans hlow hsize,
            .single (.enclose hopen hname (Nat.le_trans hlow hn)),
            Placed.declares_withAggregator _ n, fun hconsumer => by cases hconsumer⟩
  | consumer =>
      rcases h.edits_batchConsumer hopen hname hphysical hlow hall with
        ⟨hkept, hbare⟩ | ⟨t', ht', hsize, hedits, haggregator, hretry⟩
      · exact .inl ⟨hkept, hbare.imp_right fun hleads => .inr ⟨rfl, hleads⟩⟩
      · exact .inr ⟨t', ht', hsize, hedits, haggregator, fun _ => hretry⟩

end Document.ShowsRoot

/-- A node is a marker whose logical URI names an endpoint. -/
def Document.Targets (d : Document) (s : Snapshot) (x : NodeId) (m : Marker) (e : Endpoint) :
    Prop :=
  d.isNamed m.tagName x = true ∧ ∃ uri name, d.attribute? x Uri.attributeKey = some uri ∧
    Uri.endpointName? uri = some name ∧ s.endpoint? name = some e

end Route

namespace Generator

open RouteCompiler.Route

variable {g : Generator} {directories : Directories} {s : Snapshot} {policy : String}
  {m : Marker} {p p' : Progress} {low : Nat} {t : Placed}

/-- A step consists of edits.  It sets the URI of a reference that is not batched, or it ends
with the declaration of the beans that batching needs. -/
theorem Step.exists_edits (hregistry : g.registry = .standard) (ht : p.document.ShowsRoot t)
    (htop : t.content.isElement) (hlow : low ≤ p.document.size)
    (h : Step g directories s policy m p p') :
    ∃ t' x e, p'.document.ShowsRoot t' ∧ low ≤ p'.document.size ∧ TreeEdits s low t t' ∧
      p.document.Targets s x m e ∧
      ((∃ uri, p'.document = p.document.setAttribute x Uri.attributeKey uri) ∧
          (e.batching = [] ∨ m = .producer ∨
            m = .consumer ∧ BatchRetry.leadingRoute? p.document x = none) ∨
        t'.declares "aggregatorStrategy" = true ∧
          (m = .consumer → t'.declares "retrySupport" = true)) := by
  obtain ⟨x, uri, hnext, hresolve⟩ := h
  obtain ⟨c, before, behind, helements, hname, huri, -, -⟩ := nextReference_eq_some ht hnext
  obtain ⟨f, fs, cs, rfl, hopen, -⟩ := exists_plug_of_elementsBelow_eq htop helements
  obtain ⟨name, e, hendpoint, he, hphysical, hall⟩ := exists_batchAll (.inl hregistry) hresolve
  rw [hregistry, entries_standard] at hall
  have hc : c.isElement := Content.isElement_of_name hname
  have hcontent : p.document.content? x = some c := ht.content_plug
  have htargets : p.document.Targets s x m e := by
    refine ⟨?_, uri, name, ?_, hendpoint, he⟩
    · rw [Document.isNamed_of_content hcontent, hname]
      exact beq_self_eq_true _
    · rw [Document.attribute_of_content hcontent, huri]
  have hset := ht.modifyContent (Content.setAttribute Uri.attributeKey
    (Uri.appendOptions e.uri (e.options m.role)))
  have hlow' : low ≤ (p.document.modifyContent x (Content.setAttribute Uri.attributeKey
      (Uri.appendOptions e.uri (e.options m.role)))).size := by simpa using hlow
  have hedit : TreeEdit s low (plug (f :: fs) (.node x c cs)) (plug (f :: fs) (.node x
      (c.setAttribute Uri.attributeKey (Uri.appendOptions e.uri (e.options m.role))) cs)) :=
    .set _ hopen hname
  rcases hset.edits_batchAll hopen (by simpa using hname) (isPhysical_setAttribute hc hphysical)
    hlow' hall with ⟨hkept, hbare⟩ | ⟨t', ht', hsize, hedits, hdeclared⟩
  · refine ⟨_, x, e, hkept ▸ hset, hkept ▸ hlow', .single hedit, htargets,
      .inl ⟨⟨_, hkept⟩, hbare.imp_right (Or.imp_right (And.imp_right fun hleads => ?_))⟩⟩
    have hroute := ht.among.leadingRoute hc
    rw [Placed.id_node, hleads] at hroute
    simpa using hroute
  · exact ⟨t', x, e, ht', hsize, .head hedit hedits, htargets, .inr hdeclared⟩

end Generator

end RouteCompiler
