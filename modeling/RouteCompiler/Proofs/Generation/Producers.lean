import RouteCompiler.Proofs.Generation.Resolving

/-!
# Batching producers

A one-way producer is put inside one aggregation for each setting of the
batching characteristic.  The first setting makes the outermost aggregation, and
the bean that collects messages is declared once, at the end of the root.

Main definitions:

- `Placed.enclosedIn`: an element inside aggregations.

Main results:

- Theorem `ShowsRoot.batchProducer`: what batching a one-way producer does to the
  tree of the root.
-/

namespace RouteCompiler

open RouteCompiler.Route

namespace Route

/-! ## Enclosing -/

/-- What stands at a place is put at the end of a new tree there. -/
theorem Document.ShowsRoot.enclose {d : Document} {f : Frame} {fs : List Frame} {u : Placed}
    (h : d.ShowsRoot (plug (f :: fs) u)) (tree : Tree) :
    (((d.graft tree).1.replace u.id d.size).appendChild d.size u.id).ShowsRoot
      (plug (f :: fs) ((Placed.number d.size tree).append u)) := by
  obtain ⟨hroot, detached, hshows⟩ := h
  have hplace : plug (f :: fs) u = plug fs (.node f.id f.content (f.left ++ u :: f.right)) := by
    simp [plug, Frame.fill]
  rw [hplace] at hshows
  have hreplace := ((hshows.graft tree).perm (List.Perm.swap _ _ _)).replace
  rw [← (Placed.number d.size tree).eta] at hreplace
  have hready : ((d.graft tree).1.replace u.id d.size).Shows
      (plug (f :: fs) (.node (Placed.number d.size tree).id (Placed.number d.size tree).content
        (Placed.number d.size tree).children) :: u :: detached) := by
    simpa [plug, Frame.fill] using hreplace
  have happend := hready.appendChild
  rw [Placed.id_number] at happend
  refine ⟨?_, detached, ?_⟩
  · rw [root_appendChild, root_replace, root_graft, hroot]
    exact id_plug_cons f fs _ _
  · rw [Placed.append, Placed.id_number]
    exact happend

/-- Frames whose outermost one has one more tree at its end. -/
def atEnd (b : Placed) : List Frame → List Frame
  | [] => []
  | [f] => [⟨f.id, f.content, f.left, f.right ++ [b]⟩]
  | f :: g :: fs => f :: atEnd b (g :: fs)

theorem plug_atEnd (b : Placed) (f : Frame) (fs : List Frame) (t : Placed) :
    plug (atEnd b (f :: fs)) t = (plug (f :: fs) t).append b := by
  induction fs generalizing f t with
  | nil => simp [atEnd, plug, Frame.fill, Placed.append]
  | cons g fs ih => exact ih g (f.fill [t])

theorem elements_append {t : Placed} (h : t.content.isElement) (u : Placed) :
    (t.append u).elements = t.elements ++ u.elements := by
  obtain ⟨i, c, cs⟩ := t
  rw [Placed.content_node] at h
  simp [Placed.append, Placed.elements_of_isElement h]

theorem nodes_append (t u : Placed) : (t.append u).nodes = t.nodes ++ u.nodes := by
  rw [Placed.append, Placed.nodes_node, ← t.eta, Placed.nodes_node]
  simp

/-- The declaration of a bean under an address that was free. -/
def Placed.IsBean (low : Nat) (b : Placed) : Prop :=
  ∃ n id className, low ≤ n ∧ b = .node n (beanContent id className) []

/-- Frames whose outermost one has more trees at its end. -/
def addAtEnd (bs : List Placed) (fs : List Frame) : List Frame :=
  bs.foldl (fun fs b => atEnd b fs) fs

theorem exists_atEnd_cons (b : Placed) (f : Frame) (fs : List Frame) :
    ∃ right fs', atEnd b (f :: fs) = ⟨f.id, f.content, f.left, right⟩ :: fs' := by
  cases fs with
  | nil => exact ⟨_, _, rfl⟩
  | cons g fs => exact ⟨_, _, rfl⟩

theorem exists_addAtEnd_cons (bs : List Placed) (f : Frame) (fs : List Frame) :
    ∃ right fs', addAtEnd bs (f :: fs) = ⟨f.id, f.content, f.left, right⟩ :: fs' := by
  induction bs generalizing f fs with
  | nil => exact ⟨f.right, fs, rfl⟩
  | cons b bs ih =>
      obtain ⟨right, fs', hfs'⟩ := exists_atEnd_cons b f fs
      obtain ⟨right', fs'', hfs''⟩ := ih ⟨f.id, f.content, f.left, right⟩ fs'
      refine ⟨right', fs'', ?_⟩
      rw [← hfs'', ← hfs']
      rfl

theorem addAtEnd_cons_cons (bs : List Placed) (f g : Frame) (fs : List Frame) :
    addAtEnd bs (f :: g :: fs) = f :: addAtEnd bs (g :: fs) := by
  induction bs generalizing g fs with
  | nil => rfl
  | cons b bs ih =>
      obtain ⟨right, fs', hnext⟩ := exists_atEnd_cons b g fs
      have hstep : addAtEnd (b :: bs) (f :: g :: fs) = addAtEnd bs (f :: atEnd b (g :: fs)) := rfl
      rw [hstep, hnext, ih, ← hnext]
      rfl

/-- Trees at the end of the outermost frame stand at the end of the top. -/
theorem plug_addAtEnd (bs : List Placed) (f : Frame) (fs : List Frame) (t : Placed) :
    plug (addAtEnd bs (f :: fs)) t = bs.foldl Placed.append (plug (f :: fs) t) := by
  induction bs generalizing f fs with
  | nil => rfl
  | cons b bs ih =>
      obtain ⟨right, fs', hnext⟩ := exists_atEnd_cons b f fs
      have hstep : addAtEnd (b :: bs) (f :: fs) = addAtEnd bs (atEnd b (f :: fs)) := rfl
      rw [hstep, hnext, ih, ← hnext, plug_atEnd, List.foldl_cons]

theorem exists_of_mem_atEnd {b : Placed} {fs : List Frame} {f : Frame} (h : f ∈ atEnd b fs) :
    ∃ g ∈ fs, f.content = g.content ∧ f.left = g.left := by
  induction fs with
  | nil => simp [atEnd] at h
  | cons g fs ih =>
      cases fs with
      | nil =>
          rw [atEnd, List.mem_singleton] at h
          subst h
          exact ⟨g, by simp, rfl, rfl⟩
      | cons k fs =>
          rcases List.mem_cons.mp h with rfl | h
          · exact ⟨f, by simp, rfl, rfl⟩
          · obtain ⟨g', hg', hsame⟩ := ih h
            exact ⟨g', List.mem_cons_of_mem g hg', hsame⟩

/-- Frames keep all but what stands behind the place. -/
theorem exists_of_mem_addAtEnd {bs : List Placed} {fs : List Frame} {f : Frame}
    (h : f ∈ addAtEnd bs fs) : ∃ g ∈ fs, f.content = g.content ∧ f.left = g.left := by
  induction bs generalizing fs with
  | nil => exact ⟨f, h, rfl, rfl⟩
  | cons b bs ih =>
      obtain ⟨g, hg, hcontent, hleft⟩ := ih h
      obtain ⟨g', hg', hcontent', hleft'⟩ := exists_of_mem_atEnd hg
      exact ⟨g', hg', hcontent.trans hcontent', hleft.trans hleft'⟩

theorem open_addAtEnd {fs : List Frame} (hopen : Open fs) (bs : List Placed) :
    Open (addAtEnd bs fs) := by
  intro f hf
  obtain ⟨g, hg, hcontent, -⟩ := exists_of_mem_addAtEnd hf
  rw [hcontent]
  exact hopen g hg

/-- Declaring a bean leads from a place to the same place in the new tree. -/
theorem exists_plug_withBean (n : NodeId) (id className : String) (f : Frame) (fs : List Frame)
    (t : Placed) {low : Nat} (hn : low ≤ n) :
    ∃ bs, (∀ b ∈ bs, Placed.IsBean low b) ∧
      (plug (f :: fs) t).withBean n id className = plug (addAtEnd bs (f :: fs)) t := by
  rw [Placed.withBean]
  split
  · exact ⟨[], by simp, rfl⟩
  · refine ⟨[.node n (beanContent id className) []], ?_, (plug_atEnd _ f fs t).symm⟩
    intro b hb
    exact ⟨n, id, className, hn, List.mem_singleton.mp hb⟩

/-! ## Aggregations -/

namespace Placed

/-- A tree at the end of an aggregation. -/
def enclosed (n size interval : Nat) (t : Placed) : Placed :=
  (number n (BatchRetry.aggregation size interval)).append t

/-- A tree inside aggregations, the first one outermost; each is given with its
address, size and interval. -/
def enclosedIn (aggregates : List (NodeId × Nat × Nat)) (t : Placed) : Placed :=
  aggregates.foldr (fun a t => t.enclosed a.1 a.2.1 a.2.2) t

/-- What stands above a tree at the end of an aggregation. -/
def aggregate (n size interval : Nat) : Frame :=
  ⟨(number n (BatchRetry.aggregation size interval)).id,
    (number n (BatchRetry.aggregation size interval)).content,
    (number n (BatchRetry.aggregation size interval)).children, []⟩

/-- What stands at a place after it was batched with some settings. -/
def batchedAt (fs : List Frame) (t : Placed) (n : NodeId) :
    List (NodeId × Nat × Nat) → Placed
  | [] => plug fs t
  | a :: as => (plug fs (t.enclosedIn (a :: as))).withAggregator n

theorem fill_aggregate (n size interval : Nat) (t : Placed) :
    (aggregate n size interval).fill [t] = t.enclosed n size interval := by
  simp [aggregate, Frame.fill, enclosed, append]

end Placed

theorem aggregation_plain {size interval : Nat} {c : Content}
    (h : c ∈ (BatchRetry.aggregation size interval).contents) : c.IsPlain := by
  simp only [BatchRetry.aggregation, BatchRetry.constant, Tree.element, Tree.text, Tree.contents,
    Tree.contentsAll, List.append_nil, List.cons_append, List.nil_append, List.mem_cons,
    List.not_mem_nil, or_false] at h
  rcases h with rfl | rfl | rfl | rfl | rfl | rfl | rfl
  · refine ⟨(Content.marker_element ..).trans (by decide), ?_, by simp [Content.name?],
      by simp [Content.name?]⟩
    simp [Content.attribute?, Attribute.find?]
  all_goals decide

namespace Placed

theorem elements_number_plain {n size interval : Nat} {e : NodeId × Content}
    (h : e ∈ (number n (BatchRetry.aggregation size interval)).nodes) : e.2.IsPlain :=
  aggregation_plain (content_mem_of_mem_number h)

theorem elements_enclosed (n size interval : Nat) (t : Placed) :
    (t.enclosed n size interval).elements =
      (number n (BatchRetry.aggregation size interval)).elements ++ t.elements :=
  elements_append rfl t

theorem nodes_enclosed (n size interval : Nat) (t : Placed) :
    (t.enclosed n size interval).nodes =
      (number n (BatchRetry.aggregation size interval)).nodes ++ t.nodes :=
  nodes_append ..

/-- Aggregations declare no bean. -/
theorem any_declares_enclosedIn (as : List (NodeId × Nat × Nat)) (t : Placed) (id : String) :
    (t.enclosedIn as).elements.any (fun e => e.2.declares id) =
      t.elements.any fun e => e.2.declares id := by
  induction as with
  | nil => rfl
  | cons a as ih =>
      have hadded : (number a.1 (BatchRetry.aggregation a.2.1 a.2.2)).elements.any
          (fun e => e.2.declares id) = false := by
        refine List.any_eq_false.mpr fun e he => ?_
        simp [(elements_number_plain ((elements_sublist _).subset he)).declares id]
      change ((t.enclosedIn as).enclosed a.1 a.2.1 a.2.2).elements.any _ = _
      rw [elements_enclosed, List.any_append, hadded, ih, Bool.false_or]

end Placed

/-- What stands at a place declares beans only through its elements. -/
theorem declares_plug_congr {f : Frame} {fs : List Frame} (h : Open (f :: fs)) {t u : Placed}
    {id : String} (heq : t.elements.any (fun e => e.2.declares id) =
      u.elements.any fun e => e.2.declares id) :
    (plug (f :: fs) t).declares id = (plug (f :: fs) u).declares id := by
  simp only [Placed.declares, elementsBelow_plug h, List.any_append, heq]

/-! ## Batching -/

/-- The settings of a batching characteristic: how many messages a batch has and
how long it waits. -/
def Batches (e : Endpoint) (c : Characteristic) (a : NodeId × Nat × Nat) : Prop :=
  BatchRetry.kind.positiveValue e c "batchSize" = .ok a.2.1 ∧
    BatchRetry.kind.positiveValue e c "batchInterval" = .ok a.2.2

namespace Document.ShowsRoot

variable {d d' : Document} {f : Frame} {fs : List Frame} {u : Placed}

theorem wrap_eq (d : Document) (element : NodeId) (size interval : Nat) :
    BatchRetry.wrap d element size interval =
      BatchRetry.ensureAggregator
        (((d.graft (BatchRetry.aggregation size interval)).1.replace element d.size).appendChild
          d.size element) := by
  rw [← id_graft d (BatchRetry.aggregation size interval)]
  rfl

/-- Wrapping puts an element inside an aggregation and declares the bean that it
needs. -/
theorem wrap (h : d.ShowsRoot (plug (f :: fs) u)) (size interval : Nat) :
    ∃ n, d.size ≤ n ∧ (BatchRetry.wrap d u.id size interval).ShowsRoot
      ((plug (f :: fs) (u.enclosed d.size size interval)).withAggregator n) := by
  have henclosed := h.enclose (BatchRetry.aggregation size interval)
  have hbean := henclosed.ensureBean "aggregatorStrategy" "io.hodos.runtime.ListAggregator"
  rw [wrap_eq]
  refine ⟨_, ?_, hbean⟩
  rw [size_appendChild, size_replace, size_graft]
  exact Nat.le_add_right ..

theorem le_size_wrap (d : Document) (element : NodeId) (size interval : Nat) :
    d.size ≤ (BatchRetry.wrap d element size interval).size := by
  rw [wrap_eq]
  refine Nat.le_trans ?_ (le_size_ensureBean _ _ _)
  rw [size_appendChild, size_replace, size_graft]
  exact Nat.le_add_right ..

/-- Once the bean is declared, it stays where it is. -/
theorem withAggregator_of_declares {t : Placed} (h : t.declares "aggregatorStrategy")
    (n : NodeId) : t.withAggregator n = t := by
  rw [Placed.withAggregator, Placed.withBean, if_pos h]

/-- Declaring the bean leads from a place to the same place in the new tree, for all
trees that declare the same as the one there. -/
theorem exists_plug_withAggregator (hopen : Open (f :: fs)) (n : NodeId) (u : Placed) :
    ∃ f' fs', Open (f' :: fs') ∧
      ∀ t : Placed, t.elements.any (fun e => e.2.declares "aggregatorStrategy") =
          u.elements.any (fun e => e.2.declares "aggregatorStrategy") →
        (plug (f :: fs) t).withAggregator n = plug (f' :: fs') t ∧
          (plug (f' :: fs') t).declares "aggregatorStrategy" = true := by
  cases hu : (plug (f :: fs) u).declares "aggregatorStrategy" with
  | true =>
      refine ⟨f, fs, hopen, fun t ht => ?_⟩
      have hdeclares := (declares_plug_congr hopen ht).trans hu
      exact ⟨withAggregator_of_declares hdeclares n, hdeclares⟩
  | false =>
      have hopen' : Open (atEnd (.node n (beanContent "aggregatorStrategy"
          "io.hodos.runtime.ListAggregator") []) (f :: fs)) := open_addAtEnd hopen [_]
      have hplug := plug_atEnd
        (.node n (beanContent "aggregatorStrategy" "io.hodos.runtime.ListAggregator") []) f fs
      obtain ⟨right, fs', hcons⟩ := exists_atEnd_cons
        (.node n (beanContent "aggregatorStrategy" "io.hodos.runtime.ListAggregator") []) f fs
      rw [hcons] at hopen' hplug
      refine ⟨_, fs', hopen', fun t ht => ⟨?_, ?_⟩⟩
      · have hdeclares := (declares_plug_congr hopen ht).trans hu
        rw [Placed.withAggregator, Placed.withBean, hdeclares, hplug]
        rfl
      · rw [hplug]
        simp [Placed.declares, Placed.append, Placed.elementsBelow, beanContent,
          Content.declares, Content.name?, Content.attribute?, Attribute.find?]

/-- Batching a one-way producer once wraps it, with the settings of the characteristic. -/
theorem of_processProducer {r : Reference} {x : NodeId} {c : Content}
    (hcontent : d.content? x = some c) (hname : c.name? = some Marker.oneWayProducer.tagName)
    (h : BatchRetry.process r d x = .ok d') :
    ∃ size interval, Batches r.endpoint r.characteristic (d.size, size, interval) ∧
      BatchRetry.wrap d x size interval = d' := by
  have hmarker : (d.name? x).bind Marker.ofTagName? = some .oneWayProducer := by
    rw [name_of_content hcontent, hname]
    exact Marker.ofTagName_tagName _
  simp only [BatchRetry.process, hmarker] at h
  obtain ⟨size, hsize, hwrap⟩ := Outcome.of_bind_eq_ok h
  obtain ⟨interval, hinterval, hd'⟩ := Outcome.of_bind_eq_ok hwrap
  exact ⟨size, interval, ⟨hsize, hinterval⟩, Except.ok.inj hd'⟩

/-- Batching a one-way producer puts it inside one aggregation for each setting. -/
theorem batchProducer {s : Snapshot} {policy : String} {e : Endpoint} {cs : List Characteristic}
    (h : d.ShowsRoot (plug (f :: fs) u)) (hopen : Open (f :: fs))
    (hname : u.content.name? = some Marker.oneWayProducer.tagName)
    (hall : Generator.batchAll s policy e u.id d cs = .ok d') :
    ∃ as n, List.Forall₂ (Batches e) cs as ∧ (∀ a ∈ as, d.size ≤ a.1) ∧ d.size ≤ n ∧
      d.size ≤ d'.size ∧ d'.ShowsRoot (u.batchedAt (f :: fs) n as) := by
  induction cs generalizing d f fs with
  | nil =>
      simp only [Generator.batchAll, List.foldlM_nil, pure, Except.pure, Except.ok.injEq] at hall
      subst hall
      exact ⟨[], d.size, .nil, by simp, Nat.le_refl _, Nat.le_refl _, h⟩
  | cons c cs ih =>
      obtain ⟨d₁, hprocess, hrest⟩ := Outcome.of_bind_eq_ok hall
      obtain ⟨size, interval, hsettings, hd₁⟩ := of_processProducer h.content_plug hname hprocess
      obtain ⟨n, hn, hshows⟩ := h.wrap size interval
      have hgrows := le_size_wrap d u.id size interval
      rw [hd₁] at hshows hgrows
      have hinner : Open (Placed.aggregate d.size size interval :: f :: fs) := by
        intro g hg
        rcases List.mem_cons.mp hg with rfl | hg
        · rfl
        · exact hopen g hg
      obtain ⟨f', fs', hopen', hplug⟩ := exists_plug_withAggregator hinner n u
      have hplace : ∀ t : Placed, plug (Placed.aggregate d.size size interval :: f :: fs) t =
          plug (f :: fs) (t.enclosed d.size size interval) := by
        intro t
        rw [plug, Placed.fill_aggregate]
      rw [← hplace, (hplug u rfl).1] at hshows
      obtain ⟨as, m, hbatches, has, hm, hd', hresult⟩ := ih hshows hopen' hrest
      refine ⟨(d.size, size, interval) :: as, n, .cons hsettings hbatches, ?_, hn,
        Nat.le_trans hgrows hd', ?_⟩
      · intro a ha
        rcases List.mem_cons.mp ha with rfl | ha
        · exact Nat.le_refl _
        · exact Nat.le_trans hgrows (has a ha)
      · have hlast := hplug (u.enclosedIn as)
          (Placed.any_declares_enclosedIn as u "aggregatorStrategy")
        have houter : u.batchedAt (f :: fs) n ((d.size, size, interval) :: as) =
            plug (f' :: fs') (u.enclosedIn as) := by
          rw [← hlast.1, hplace]
          rfl
        rw [houter]
        cases as with
        | nil => exact hresult
        | cons b as =>
            have hkept := withAggregator_of_declares hlast.2 m
            rw [← hkept]
            exact hresult

end Document.ShowsRoot

end Route

end RouteCompiler
