import RouteCompiler.Proofs.Generation.Verdict

/-!
# Which policies keep their actions

A step for consumers keeps the verdict on a definition as long as it loses nothing, and
it loses an action exactly where the verdict says so.  Other steps lose nothing.

Main definitions:

- `Preserves`: all nodes are kept, and the verdict.

Main results:

- Theorem `Resolves.preserves_or_loses`: a step for consumers keeps all nodes or loses
  one.
- Theorem `nodes_kept_iff`: a policy keeps all its nodes, in document order, exactly if
  no action of it is displaced.
-/

namespace RouteCompiler

open RouteCompiler.Route

namespace Route

/-! ## Several rounds -/

theorem nodesBefore_atEnd (b : Placed) (fs : List Frame) :
    nodesBefore (atEnd b fs) = nodesBefore fs := by
  induction fs with
  | nil => rfl
  | cons f fs ih =>
      cases fs with
      | nil => rfl
      | cons g fs => rw [atEnd, nodesBefore, ih, ← nodesBefore]

theorem nodesBehind_atEnd (b : Placed) {fs : List Frame} (h : fs ≠ []) :
    nodesBehind (atEnd b fs) = nodesBehind fs ++ b.nodes := by
  induction fs with
  | nil => exact absurd rfl h
  | cons f fs ih =>
      cases fs with
      | nil => simp [atEnd, nodesBehind]
      | cons g fs => rw [atEnd, nodesBehind, ih (by simp), ← List.append_assoc, ← nodesBehind]

theorem nodesBefore_addAtEnd (bs : List Placed) (fs : List Frame) :
    nodesBefore (addAtEnd bs fs) = nodesBefore fs := by
  induction bs generalizing fs with
  | nil => rfl
  | cons b bs ih => exact (ih (atEnd b fs)).trans (nodesBefore_atEnd b fs)

theorem nodesBehind_addAtEnd (bs : List Placed) {fs : List Frame} (h : fs ≠ []) :
    nodesBehind (addAtEnd bs fs) = nodesBehind fs ++ bs.flatMap Placed.nodes := by
  induction bs generalizing fs with
  | nil => simp [addAtEnd]
  | cons b bs ih =>
      obtain ⟨f, fs, rfl⟩ := List.exists_cons_of_ne_nil h
      obtain ⟨right, fs', hnext⟩ := exists_atEnd_cons b f fs
      have hstep : addAtEnd (b :: bs) (f :: fs) = addAtEnd bs (atEnd b (f :: fs)) := rfl
      rw [hstep, ih (by simp [hnext]), nodesBehind_atEnd b h]
      simp

/-- What stands behind a place, below the same node. -/
def following : List Frame → List Placed
  | [] => []
  | f :: _ => f.right

/-- Actions behind a place that have the name of a slot are old, and stand nowhere else. -/
def Apart (low : Nat) (fs : List Frame) (u : Placed) : Prop :=
  ∀ e ∈ (following fs).flatMap Placed.nodes, e.2.isLateSlot →
    e.1 < low ∧ e.1 ∉ (nodesBefore fs ++ u.nodes ++ nodesBehind fs.tail).map Prod.fst

/-- A change of a tree that keeps all nodes and adds none that a search could take for
a slot. -/
structure Preserves (s : Snapshot) (t t' : Placed) : Prop where
  kept : Kept t.nodes t'.nodes
  late : ∀ e ∈ t'.nodes, e.2.isLateSlot → e ∈ t.nodes
  verdict : t'.displaces s = t.displaces s

theorem Preserves.refl (s : Snapshot) (t : Placed) : Preserves s t t :=
  ⟨.of_sublist (List.Sublist.refl _), fun _ he _ => he, rfl⟩

theorem Preserves.trans {s : Snapshot} {t t' t'' : Placed} (h : Preserves s t t')
    (h' : Preserves s t' t'') : Preserves s t t'' :=
  ⟨h.kept.trans h'.kept, fun e he hlate => h.late e (h'.late e he hlate) hlate,
    h'.verdict.trans h.verdict⟩

namespace Expands

open Placed

variable {s : Snapshot} {uri : String} {low k : Nat} {f : Frame} {fs fs' : List Frame}
  {u : Placed} {e : NodeId × Content}

theorem ne_nil_of_leads (h : leads (f :: fs) = true) : fs ≠ [] := by
  rintro rfl
  simp [leads] at h

/-- The nodes after one round. -/
theorem nodes_round (h : leads (f :: fs) = true) (right bs : List Placed) (u : Placed) :
    (plug (⟨f.id, f.content, f.left, right⟩ :: addAtEnd bs fs) u).nodes =
      nodesBefore (f :: fs) ++ u.nodes ++
        (right.flatMap nodes ++ (nodesBehind fs ++ bs.flatMap nodes)) := by
  rw [nodes_plug, nodesBefore, nodesBehind, nodesBefore_addAtEnd,
    nodesBehind_addAtEnd bs (ne_nil_of_leads h)]
  rfl

theorem le_of_mem_bean {bs : List Placed} (hbs : ∀ b ∈ bs, Placed.IsBean low b)
    (he : e ∈ bs.flatMap nodes) : low ≤ e.1 ∧ e.2.isLateSlot = false := by
  obtain ⟨b, hb, he⟩ := List.mem_flatMap.mp he
  obtain ⟨n, id, className, hn, rfl⟩ := hbs b hb
  simp only [nodes_node, List.flatMap_nil, List.mem_singleton] at he
  rw [he]
  exact ⟨hn, rfl⟩

/-- Nodes that were not there before are new. -/
theorem mem_or_le (h : Expands s uri low k fs fs') (he : e ∈ (plug fs' u).nodes) :
    e ∈ (plug fs u).nodes ∨ low ≤ e.1 := by
  induction h with
  | done fs => exact .inl he
  | @round k maxRetry y f fs fs' bs hleads hdistinct hfits hbeans hrest ih =>
      rcases ih he with he | he
      · rw [nodes_round hleads] at he
        rw [nodes_plug, nodesBehind]
        simp only [List.mem_append] at he ⊢
        rcases he with he | he | he | he
        · exact .inl (.inl he)
        · rcases Expansion.mem_result hfits he with he | hadded
          · exact .inl (.inr (.inl he))
          · exact .inr hadded.le
        · exact .inl (.inr (.inr he))
        · exact .inr (le_of_mem_bean hbeans he).1
      · exact .inr he

section Round

variable {y : Expansion} {maxRetry : Nat} {bs : List Placed}

/-- A round that displaces no action keeps all nodes. -/
theorem preserves_round (hleads : leads (f :: fs) = true)
    (hfits : y.Fits low (!(comesNext s f.right).isEmpty)) (hbeans : ∀ b ∈ bs, IsBean low b)
    (hready : Ready s (f :: fs)) (hu : u.content.isElement)
    (hsettled : u.content.expansions s = [])
    (hcontained : hasLateSlot (contained s f.right) = false) :
    Preserves s (plug (f :: fs) u)
      (plug (⟨f.id, f.content, f.left, y.result s maxRetry uri f.right⟩ :: addAtEnd bs fs) u) where
  kept := by
    apply Kept.of_sublist
    rw [nodes_plug, nodes_round hleads, nodesBehind]
    refine (List.Sublist.refl _).append ?_
    refine (Expansion.nodes_sublist_result hfits hcontained).append ?_
    exact List.sublist_append_left _ _
  late := by
    intro e he hlate
    rw [nodes_round hleads] at he
    rw [nodes_plug, nodesBehind]
    simp only [List.mem_append] at he ⊢
    rcases he with he | he | he | he
    · exact .inl he
    · exact .inr (.inl (Expansion.mem_of_isLateSlot hfits hcontained he hlate))
    · exact .inr (.inr he)
    · rw [(le_of_mem_bean hbeans he).2] at hlate
      cases hlate
  verdict := by
    obtain ⟨g, fs, rfl⟩ := List.exists_cons_of_ne_nil (ne_nil_of_leads hleads)
    have htop : (plug (⟨f.id, f.content, f.left, y.result s maxRetry uri f.right⟩ :: g :: fs)
        u).content.isElement :=
      content_plug_isElement (hready.withRight (y.result s maxRetry uri f.right)).isOpen hu
    have hnone : ∀ ts : List Placed,
        displacedBy s (u.content.expansions s).length ts = false := by
      intro ts
      rw [hsettled]
      rfl
    rw [← addAtEnd_cons_cons, plug_addAtEnd, displaces_foldl_append hbeans htop]
    exact hready.displaces_quiet hleads hu hu (hnone _) (hnone _) rfl
      (Expansion.any_displaces_result hfits hcontained)

/-- What is lost in a round is not brought back in later ones. -/
theorem not_mem_of_lost (hleads : leads (f :: fs) = true) (hbeans : ∀ b ∈ bs, IsBean low b)
    (hrest : Expands s uri low k
      (⟨f.id, f.content, f.left, y.result s maxRetry uri f.right⟩ :: addAtEnd bs fs) fs')
    (hlow : e.1 < low)
    (hout : e.1 ∉ (nodesBefore (f :: fs) ++ u.nodes ++ nodesBehind fs).map Prod.fst)
    (hlost : e.1 ∉ (y.result s maxRetry uri f.right).flatMap ids) : e.1 ∉ (plug fs' u).ids := by
  intro hmem
  obtain ⟨e', he', heq⟩ := List.mem_map.mp hmem
  rw [← heq] at hlow hlost hout
  rcases hrest.mem_or_le he' with he' | hle
  · rw [nodes_round hleads] at he'
    simp only [List.mem_append] at he'
    rw [← map_fst_nodes] at hlost
    rcases he' with (he' | he') | he' | he' | he'
    · exact hout (List.mem_map_of_mem (by simp [he']))
    · exact hout (List.mem_map_of_mem (by simp [he']))
    · exact hlost (List.mem_map_of_mem he')
    · exact hout (List.mem_map_of_mem (by simp [he']))
    · exact Nat.not_le_of_lt hlow (le_of_mem_bean hbeans he').1
  · exact Nat.not_le_of_lt hlow hle

/-- A round that displaces no action leaves the old ones apart. -/
theorem apart_round (hleads : leads (f :: fs) = true)
    (hfits : y.Fits low (!(comesNext s f.right).isEmpty)) (hbeans : ∀ b ∈ bs, IsBean low b)
    (hapart : Apart low (f :: fs) u) (hcontained : hasLateSlot (contained s f.right) = false) :
    Apart low (⟨f.id, f.content, f.left, y.result s maxRetry uri f.right⟩ :: addAtEnd bs fs) u := by
  intro e he hname
  obtain ⟨hlow, hout⟩ := hapart e (Expansion.mem_of_isLateSlot hfits hcontained he hname) hname
  refine ⟨hlow, fun hmem => ?_⟩
  rw [List.tail_cons, nodesBefore, nodesBefore_addAtEnd,
    nodesBehind_addAtEnd bs (ne_nil_of_leads hleads), ← List.append_assoc,
    List.map_append, List.mem_append] at hmem
  rcases hmem with hmem | hmem
  · exact hout hmem
  · obtain ⟨b, hb, heq⟩ := List.mem_map.mp hmem
    rw [← heq] at hlow
    exact Nat.not_le_of_lt hlow (le_of_mem_bean hbeans hb).1

end Round

/-- Without displaced actions the rounds of an expansion keep all nodes. -/
theorem preserves (h : Expands s uri low k fs fs') (hready : Ready s fs)
    (hu : u.content.isElement) (hsettled : u.content.expansions s = [])
    (hquiet : displacedBy s k (following fs) = false) :
    Preserves s (plug fs u) (plug fs' u) := by
  induction h with
  | done fs => exact .refl s _
  | @round k maxRetry y f fs fs' bs hleads hdistinct hfits hbeans hrest ih =>
      have hcontained : hasLateSlot (contained s f.right) = false := hasLateSlot_contained hquiet
      have hresult : displacedBy s k (y.result s maxRetry uri f.right) = false := by
        rw [displacedBy_result hfits hcontained]
        exact hquiet
      have hround : Preserves s (plug (f :: fs) u) (plug (⟨f.id, f.content, f.left,
          y.result s maxRetry uri f.right⟩ :: addAtEnd bs fs) u) :=
        preserves_round hleads hfits hbeans hready hu hsettled hcontained
      obtain ⟨g, fs, rfl⟩ := List.exists_cons_of_ne_nil (ne_nil_of_leads hleads)
      refine hround.trans (ih ?_ hresult)
      rw [← addAtEnd_cons_cons]
      exact (hready.withRight _).addAtEnd bs

/-- An action that is displaced in some round is lost. -/
theorem exists_lost (h : Expands s uri low k fs fs') (hapart : Apart low fs u)
    (hdisplaced : displacedBy s k (following fs) = true) :
    ∃ e ∈ (following fs).flatMap nodes, e.2.isLateSlot ∧ e.1 ∉ (plug fs' u).ids := by
  induction h with
  | done fs => simp [displacedBy] at hdisplaced
  | @round k maxRetry y f fs fs' bs hleads hdistinct hfits hbeans hrest ih =>
      cases hlate : hasLateSlot (contained s f.right) with
      | true =>
          obtain ⟨e, he, hname, hlost⟩ : ∃ e ∈ f.right.flatMap nodes, e.2.isLateSlot ∧
              e.1 ∉ (y.result s maxRetry uri f.right).flatMap ids :=
            Expansion.exists_lost hfits hlate hdistinct fun e he hname => (hapart e he hname).1
          obtain ⟨hlow, hout⟩ := hapart e he hname
          exact ⟨e, he, hname, not_mem_of_lost hleads hbeans hrest hlow hout hlost⟩
      | false =>
          have hresult : displacedBy s k (y.result s maxRetry uri f.right) = true := by
            rw [displacedBy_result hfits hlate]
            exact hdisplaced
          obtain ⟨e, he, hname, hlost⟩ :=
            ih (apart_round hleads hfits hbeans hapart hlate) hresult
          exact ⟨e, Expansion.mem_of_isLateSlot hfits hlate he hname, hname, hlost⟩

end Expands

/-! ## One step -/

namespace Placed

variable {t : Placed} {low : Nat} {e : NodeId × Content}

theorem nodes_sublist_withBean (t : Placed) (n : NodeId) (id className : String) :
    t.nodes.Sublist (t.withBean n id className).nodes := by
  rw [withBean]
  split
  · exact List.Sublist.refl _
  · rw [nodes_append]
    exact List.sublist_append_left _ _

theorem mem_withBean {n : NodeId} {id className : String} (hn : low ≤ n)
    (he : e ∈ (t.withBean n id className).nodes) : e ∈ t.nodes ∨ low ≤ e.1 := by
  rw [withBean] at he
  split at he
  · exact .inl he
  · rw [nodes_append, List.mem_append, nodes_node, List.flatMap_nil, List.mem_singleton] at he
    rcases he with he | he
    · exact .inl he
    · exact .inr (by rw [he]; exact hn)

theorem nodes_sublist_enclosedIn (as : List (NodeId × Nat × Nat)) (t : Placed) :
    t.nodes.Sublist (t.enclosedIn as).nodes := by
  induction as with
  | nil => exact List.Sublist.refl _
  | cons a as ih =>
      have hstep : t.enclosedIn (a :: as) = (t.enclosedIn as).enclosed a.1 a.2.1 a.2.2 := rfl
      rw [hstep, nodes_enclosed]
      exact ih.trans (List.sublist_append_right _ _)

theorem mem_enclosedIn {as : List (NodeId × Nat × Nat)} (has : ∀ a ∈ as, low ≤ a.1)
    (he : e ∈ (t.enclosedIn as).nodes) : e ∈ t.nodes ∨ low ≤ e.1 := by
  induction as with
  | nil => exact .inl he
  | cons a as ih =>
      have hstep : t.enclosedIn (a :: as) = (t.enclosedIn as).enclosed a.1 a.2.1 a.2.2 := rfl
      rw [hstep, nodes_enclosed, List.mem_append] at he
      rcases he with he | he
      · exact .inr (Nat.le_trans (has a (by simp)) (le_of_mem_number _ _ e.1 (List.mem_map_of_mem he)))
      · exact ih (fun a ha => has a (by simp [ha])) he

end Placed

theorem nodes_sublist_plug (fs : List Frame) {u u' : Placed} (h : u.nodes.Sublist u'.nodes) :
    (plug fs u).nodes.Sublist (plug fs u').nodes := by
  rw [nodes_plug, nodes_plug]
  exact ((List.Sublist.refl _).append h).append (List.Sublist.refl _)

theorem mem_plug {fs : List Frame} {u u' : Placed} {low : Nat} {e : NodeId × Content}
    (h : ∀ e ∈ u'.nodes, e ∈ u.nodes ∨ low ≤ e.1) (he : e ∈ (plug fs u').nodes) :
    e ∈ (plug fs u).nodes ∨ low ≤ e.1 := by
  rw [nodes_plug] at he ⊢
  simp only [List.mem_append] at he ⊢
  rcases he with (he | he) | he
  · exact .inl (.inl (.inl he))
  · exact (h e he).imp_left fun he => .inl (.inr he)
  · exact .inl (.inr he)

section Step

variable {s : Snapshot} {low : Nat} {e : Endpoint} {entries : List Characteristic}
  {f : Frame} {fs : List Frame} {u t t' : Placed} {m : Marker}

/-- Batching adds only new nodes. -/
theorem Batched.mem_or_le {x : NodeId × Content} (h : Batched s low e entries fs u m t')
    (hx : x ∈ t'.nodes) : x ∈ (plug fs u).nodes ∨ low ≤ x.1 := by
  cases h with
  | producer => exact .inl hx
  | aside hleads => exact .inl hx
  | expanded hleads hexpands => exact hexpands.mem_or_le hx
  | @enclosed as n hsettings has hn =>
      cases as with
      | nil => exact .inl hx
      | cons a as =>
          rw [Placed.batchedAt, Placed.withAggregator] at hx
          rcases Placed.mem_withBean hn hx with hx | hx
          · exact mem_plug (fun e he => Placed.mem_enclosedIn has he) hx
          · exact .inr hx

/-- Batching that expands nothing keeps all nodes. -/
theorem Batched.nodes_sublist (h : Batched s low e entries fs u m t') (hm : m ≠ .consumer) :
    (plug fs u).nodes.Sublist t'.nodes := by
  cases h with
  | producer => exact List.Sublist.refl _
  | aside hleads => exact absurd rfl hm
  | expanded hleads hexpands => exact absurd rfl hm
  | @enclosed as n hsettings has hn =>
      cases as with
      | nil => exact List.Sublist.refl _
      | cons a as =>
          rw [Placed.batchedAt, Placed.withAggregator]
          refine List.Sublist.trans ?_ (Placed.nodes_sublist_withBean ..)
          exact nodes_sublist_plug fs (Placed.nodes_sublist_enclosedIn (a :: as) u)

/-- A reference that gets another URI is kept, and so is everything around it. -/
theorem kept_plug_setAttribute {x : NodeId} {c : Content} {cs : List Placed}
    (hreference : c.isReference) (fs : List Frame) (uri : String) :
    Kept (plug fs (.node x c cs)).nodes
      (plug fs (.node x (c.setAttribute Uri.attributeKey uri) cs)).nodes := by
  have hkept := Kept.replace (x := x) (.inr ⟨hreference, uri, rfl⟩ :
    c.KeptAs (c.setAttribute Uri.attributeKey uri)) (nodesBefore fs)
      (cs.flatMap Placed.nodes ++ nodesBehind fs)
  simpa [nodes_plug] using hkept

/-- Nodes that were not there before a step are new. -/
theorem Resolves.mem_or_le {entries : Endpoint → List Characteristic}
    (h : Resolves s entries low m t t') {x : NodeId} (hx : x ∈ t'.ids) : x ∈ t.ids ∨ low ≤ x := by
  obtain ⟨hopen, hname, huri, hlogical, hfirst, hendpoint, he, hphysical, hbatched⟩ := h
  obtain ⟨e, hmem, rfl⟩ := List.mem_map.mp hx
  rcases hbatched.mem_or_le hmem with hmem | hle
  · have hids := List.mem_map_of_mem (f := Prod.fst) hmem
    rw [← Placed.ids, ids_plug] at hids
    rw [ids_plug]
    exact .inl hids
  · exact .inr hle

/-- A step for producers keeps all nodes. -/
theorem Resolves.kept {entries : Endpoint → List Characteristic}
    (h : Resolves s entries low m t t') (hm : m ≠ .consumer) : Kept t.nodes t'.nodes := by
  obtain ⟨hopen, hname, huri, hlogical, hfirst, hendpoint, he, hphysical, hbatched⟩ := h
  have hreference := Content.isReference_eq_true.mpr ⟨m, _, hname, huri, hlogical⟩
  exact (kept_plug_setAttribute hreference _ _).trans (.of_sublist (hbatched.nodes_sublist hm))

theorem mem_tail_elementsBefore {g : Frame} {x : NodeId × Content} (hg : g ∈ fs)
    (hx : x ∈ g.left.flatMap Placed.elements) : x ∈ (elementsBefore fs).tail := by
  induction fs with
  | nil => simp at hg
  | cons f fs ih =>
      rw [elementsBefore]
      rcases List.mem_cons.mp hg with rfl | hg
      · cases h : elementsBefore fs with
        | nil => simpa using hx
        | cons => simp [hx]
      · have hne : elementsBefore fs ≠ [] := by
          intro hnil
          have hmem := ih hg
          simp [hnil] at hmem
        rw [List.tail_append_of_ne_nil hne]
        exact List.mem_append_left _ (ih hg)

/-- Where the first consumer that is to be resolved stands, nothing before is expanded. -/
theorem ready_of_first (hopen : Open fs) (hfirst : ∀ b ∈ (elementsBefore fs).tail,
    b.2.name? = some Marker.consumer.tagName → b.2.IsPhysical) : Ready s fs := by
  refine ⟨hopen, fun g hg t ht => Content.expansions_eq_nil fun hname => ?_⟩
  apply hfirst (t.id, t.content) ?_ hname
  refine mem_tail_elementsBefore hg (List.mem_flatMap.mpr ⟨t, ht, ?_⟩)
  rw [Placed.elements_eq_cons (Content.isElement_of_name hname)]
  exact List.mem_cons_self

theorem apart_of_nodup (h : (plug (f :: fs) u).ids.Nodup)
    (hlow : ∀ x ∈ (plug (f :: fs) u).ids, x < low) : Apart low (f :: fs) u := by
  intro e he _
  rw [ids_plug, nodesBehind, List.map_append] at h hlow
  have hmem : e.1 ∈ (f.right.flatMap Placed.nodes).map Prod.fst := List.mem_map_of_mem he
  refine ⟨hlow e.1 (by simp only [List.mem_append]; exact .inr (.inl hmem)), fun hout => ?_⟩
  have hinner := (List.nodup_append.mp h).2.1
  rw [List.tail_cons, List.map_append, List.map_append, List.mem_append] at hout
  rcases hout with hout | hout
  · exact List.disjoint_of_nodup_append h hout (List.mem_append_left _ hmem)
  · exact List.disjoint_of_nodup_append hinner hmem hout

section Consumer

variable {x : NodeId} {c c' : Content} {cs : List Placed}

/-- A consumer in the place of another one has the name of no slot. -/
theorem mem_of_isLateSlot_plug (hname : c'.name? = some Marker.consumer.tagName)
    {e : NodeId × Content} (he : e ∈ (plug fs (.node x c' cs)).nodes) (hlate : e.2.isLateSlot) :
    e ∈ (plug fs (.node x c cs)).nodes := by
  rw [nodes_plug, Placed.nodes_node] at he ⊢
  simp only [List.mem_append, List.mem_cons] at he ⊢
  rcases he with (he | he | he) | he
  · exact .inl (.inl he)
  · rw [he, Content.isLateSlot, hname] at hlate
    cases hlate
  · exact .inl (.inr (.inr he))
  · exact .inr he

theorem routeDisplaces_consumer (hname : c.name? = some Marker.consumer.tagName) :
    (Placed.node x c cs).routeDisplaces s = false := by
  rw [Placed.routeDisplaces, Placed.content_node, hname]
  rfl

theorem displaces_consumer (hname : c.name? = some Marker.consumer.tagName) :
    (Placed.node x c cs).displaces s = cs.any (Placed.displaces s) := by
  rw [Placed.displaces_node s (Content.isElement_of_name hname), hname]
  rfl

end Consumer

/-- A step for consumers keeps all nodes, or an action is displaced and lost. -/
theorem Resolves.preserves_or_loses (h : Resolves s Endpoint.batching low .consumer t t')
    (hnodup : t.ids.Nodup) (hlow : ∀ x ∈ t.ids, x < low) :
    Preserves s t t' ∨ t.displaces s = true ∧ ∃ e ∈ t.nodes, e.2.isLateSlot ∧ e.1 ∉ t'.ids := by
  obtain ⟨hopen, hname, huri, hlogical, hfirst, hendpoint, he, hphysical, hbatched⟩ := h
  rename_i f fs x c cs uri name e
  have hready : Ready s (f :: fs) := ready_of_first hopen hfirst
  have hc : c.isElement := Content.isElement_of_name hname
  have hexpansions : c.expansions s = e.batching := by
    rw [Content.expansions, Content.target_eq_some hname huri hendpoint he]
  -- The reference gets its URI first.
  have hkept : Kept (plug (f :: fs) (.node x c cs)).nodes
      (plug (f :: fs) (.node x (c.setAttribute Uri.attributeKey
        (Uri.appendOptions e.uri (e.options Marker.consumer.role))) cs)).nodes :=
    kept_plug_setAttribute (Content.isReference_eq_true.mpr ⟨_, _, hname, huri, hlogical⟩) ..
  have hset := isPhysical_setAttribute hc hphysical
  have hname' : (c.setAttribute Uri.attributeKey
      (Uri.appendOptions e.uri (e.options Marker.consumer.role))).name? =
        some Marker.consumer.tagName := by
    simpa using hname
  generalize c.setAttribute Uri.attributeKey
    (Uri.appendOptions e.uri (e.options Marker.consumer.role)) = c' at *
  have hc' : c'.isElement := Content.isElement_of_name hname'
  have hnone : c'.expansions s = [] := Content.expansions_eq_nil fun _ => hset
  have hdisplaces : (Placed.node x c' cs).displaces s = (Placed.node x c cs).displaces s := by
    rw [displaces_consumer hname, displaces_consumer hname']
  have hlate : ∀ e ∈ (plug (f :: fs) (.node x c' cs)).nodes, e.2.isLateSlot →
      e ∈ (plug (f :: fs) (.node x c cs)).nodes := by
    intro e he hlate
    exact mem_of_isLateSlot_plug hname' he hlate
  cases hbatched with
  | aside hleads =>
      refine .inl ⟨hkept, hlate, hready.displaces_aside hleads hc hc' ?_ hdisplaces⟩
      rw [routeDisplaces_consumer hname, routeDisplaces_consumer hname']
  | expanded hleads hexpands =>
      cases hdisplaced : Placed.displacedBy s e.batching.length f.right with
      | true =>
          rw [← hexpansions] at hdisplaced
          refine .inr ⟨hready.displaces_of_leads hc hleads hdisplaced, ?_⟩
          rw [hexpansions] at hdisplaced
          have hids : (plug (f :: fs) (.node x c' cs)).ids = (plug (f :: fs) (.node x c cs)).ids := by
            rw [ids_plug, ids_plug, Placed.ids_node, Placed.ids_node]
          rw [← hids] at hnodup hlow
          obtain ⟨e', he', hname', hlost⟩ :=
            hexpands.exists_lost (apart_of_nodup hnodup hlow) hdisplaced
          refine ⟨e', ?_, hname', hlost⟩
          rw [nodes_plug, nodesBehind]
          exact List.mem_append_right _ (List.mem_append_left _ he')
      | false =>
          have hquiet : Preserves s (plug (f :: fs) (.node x c cs))
              (plug (f :: fs) (.node x c' cs)) := by
            refine ⟨hkept, hlate, hready.displaces_quiet hleads hc hc' ?_ ?_ hdisplaces rfl⟩
            · rw [Placed.content_node, hexpansions]
              exact hdisplaced
            · rw [Placed.content_node, hnone]
              rfl
          exact .inl (hquiet.trans (hexpands.preserves hready hc' hnone hdisplaced))

end Step

end Route

namespace Generator

open RouteCompiler.Route

/-! ## Runs -/

variable {g : Generator} {directories : Directories} {s : Snapshot} {policy : String}
  {m : Marker} {p p' : Progress} {t₀ : Placed} {K K' : Placed → Prop}

/-- What was kept of a tree so far is given; or an action is displaced, and a node is lost. -/
def KeptOrLost (s : Snapshot) (t₀ : Placed) (K : Placed → Prop) (p : Progress) : Prop :=
  ∃ t : Placed, p.document.ShowsRoot t ∧ t.content.isElement ∧
    (∀ x ∈ t₀.ids, x < p.document.size) ∧
      (K t ∨ t₀.displaces s = true ∧ ∃ x ∈ t₀.ids, x ∉ t.ids)

/-- What a step keeps or loses.  A node that is lost is not brought back. -/
theorem KeptOrLost.step (hregistry : g.registry = .standard)
    (hK : ∀ t t' low, t.ids.Nodup → (∀ x ∈ t.ids, x < low) →
      Resolves s Endpoint.batching low m t t' → K t →
        K t' ∨ t₀.displaces s = true ∧ ∃ x ∈ t₀.ids, x ∉ t'.ids)
    (hp : KeptOrLost s t₀ K p) (h : Step g directories s policy m p p') :
    KeptOrLost s t₀ K p' := by
  obtain ⟨t, ht, htop, hold, houtcome⟩ := hp
  obtain ⟨t', hresolves, hsize, ht'⟩ := h.exists_resolves (.inl hregistry) ht htop
  rw [hregistry, funext entries_standard] at hresolves
  refine ⟨t', ht', hresolves.content ▸ htop, fun x hx => Nat.lt_of_lt_of_le (hold x hx) hsize, ?_⟩
  rcases houtcome with hkept | ⟨hdisplaces, x, hx, hlost⟩
  · exact hK t t' _ ht.nodup (fun x hx => ht.lt_size hx) hresolves hkept
  · refine .inr ⟨hdisplaces, x, hx, fun hx' => ?_⟩
    rcases hresolves.mem_or_le hx' with hx' | hle
    · exact hlost hx'
    · exact Nat.not_le_of_lt (hold x hx) hle

/-- Resolving consumers keeps all nodes and the verdict, or an action is lost. -/
theorem KeptOrLost.consumer (hregistry : g.registry = .standard)
    (hp : KeptOrLost s t₀ (Preserves s t₀) p) (h : Step g directories s policy .consumer p p') :
    KeptOrLost s t₀ (Preserves s t₀) p' := by
  refine hp.step hregistry (fun t t' low hnodup hlow hresolves hkept => ?_) h
  rcases hresolves.preserves_or_loses hnodup hlow with hstep | ⟨hdisplaces, e, he, hlate, hlost⟩
  · exact .inl (hkept.trans hstep)
  · refine .inr ⟨hkept.verdict ▸ hdisplaces, e.1, ?_, hlost⟩
    exact List.mem_map_of_mem (hkept.late e he hlate)

/-- Resolving producers keeps what is there. -/
theorem KeptOrLost.producer (hregistry : g.registry = .standard) (hm : m ≠ .consumer)
    (hp : KeptOrLost s t₀ (fun t => t₀.displaces s = false ∧ Kept t₀.nodes t.nodes) p)
    (h : Step g directories s policy m p p') :
    KeptOrLost s t₀ (fun t => t₀.displaces s = false ∧ Kept t₀.nodes t.nodes) p' := by
  refine hp.step hregistry (fun t t' low hnodup hlow hresolves hkept => ?_) h
  exact .inl ⟨hkept.1, hkept.2.trans (hresolves.kept hm)⟩

/-- Once no consumer is left, the verdict is that no action is displaced. -/
theorem KeptOrLost.of_exhausted (hp : KeptOrLost s t₀ (Preserves s t₀) p)
    (h : Exhausted .consumer p) :
    KeptOrLost s t₀ (fun t => t₀.displaces s = false ∧ Kept t₀.nodes t.nodes) p := by
  obtain ⟨t, ht, htop, hold, houtcome⟩ := hp
  refine ⟨t, ht, htop, hold, houtcome.imp_left fun hkept => ⟨?_, hkept.kept⟩⟩
  rw [← hkept.verdict]
  apply Placed.displaces_eq_false_of_expansions
  intro e he
  exact Content.expansions_eq_nil fun hname => h.isPhysical_of_mem ht he hname

/-- The loops over all kinds of markers keep all nodes, or an action is displaced and
lost. -/
theorem keptOrLost_of_resolveKinds (hregistry : g.registry = .standard) {steps : Nat}
    (hp : Sound p) (hsteps : p.document.references.length < steps) (ht : p.document.ShowsRoot t₀)
    (htop : t₀.content.isElement)
    (h : g.resolveKinds directories s policy steps Marker.all p = .ok p') :
    KeptOrLost s t₀ (fun t => t₀.displaces s = false ∧ Kept t₀.nodes t.nodes) p' := by
  have hall : Marker.all = .consumer :: [.producer, .oneWayProducer] := rfl
  rw [hall] at h
  obtain ⟨p₁, hkind, hrest⟩ := Outcome.of_bind_eq_ok h
  obtain ⟨-, -, hnone, -⟩ := exists_loops_of_ok (.inl hregistry) hp hsteps hkind
  have hp₁ : Sound p₁ := hp.resolveKind (.inl hregistry) hkind
  have hstart : KeptOrLost s t₀ (Preserves s t₀) p :=
    ⟨t₀, ht, htop, fun x hx => ht.lt_size hx, .inl (.refl s t₀)⟩
  have hconsumers := of_resolveKind (fun p p' hp hstep => hp.consumer hregistry hstep) hkind hstart
  refine of_resolveKinds (fun m hm p p' hp hstep => hp.producer hregistry ?_ hstep) hrest
    (hconsumers.of_exhausted (.of_nextReference hp₁ hnone))
  rintro rfl
  simp at hm

/-! ## Generating a policy -/

/-- A policy keeps every node of its definition, once and in document order, exactly if no
action of it is displaced. -/
theorem nodes_kept_iff (hregistry : g.registry = .standard)
    {resolvers resolvers' : ResolverChain} {policy : Policy} {definition : String} {d : Document}
    {generated : GeneratedPolicy} (hparse : Document.parse definition = .ok d)
    (hgenerate : g.generateWith directories resolvers s policy definition =
      .ok (generated, resolvers')) :
    ∃ (t t' : Placed) (final : Progress), d.Shows [t] ∧ d.root = t.id ∧
      g.resolveKinds directories s policy.name (d.size + addedReferenceLimit) Marker.all
        (start d resolvers) = .ok final ∧
      generated.definition = final.document.serialize ∧ final.document.ShowsRoot t' ∧
      t'.ids.Nodup ∧ (Kept t.nodes t'.nodes ↔ t.displaces s = false) := by
  obtain ⟨d', final, hparse', hfinal, hdefinition⟩ := generateWith_eq_ok hgenerate
  rw [hparse, Except.ok.injEq] at hparse'
  subst hparse'
  obtain ⟨t, hshows, hroot, htop⟩ := Document.exists_shows_of_parse hparse
  obtain ⟨t', ht', -, -, houtcome⟩ := keptOrLost_of_resolveKinds hregistry (sound_start hparse)
    (references_lt_steps hparse) ⟨hroot, [], hshows⟩ htop hfinal
  refine ⟨t, t', final, hshows, hroot, hfinal, hdefinition, ht', ht'.nodup, ?_⟩
  rcases houtcome with ⟨hdisplaces, hkept⟩ | ⟨hdisplaces, x, hx, hlost⟩
  · simp [hdisplaces, hkept]
  · have hnot : ¬ Kept t.nodes t'.nodes := fun hkept => hlost (hkept.mem_ids hx)
    simp [hdisplaces, hnot]

/-- A definition with an action that has the name of a slot. -/
def displacedAction : String :=
  "<camelContext><route><from uri=\"logical:q\"/><NEXT/></route></camelContext>"

/-- The tree of that definition. -/
def displacedTree : Placed :=
  .node 0 (.element "camelContext" []) [.node 1 (.element "route" [])
    [.node 2 (.element "from" [⟨"uri", "logical:q"⟩]) [], .node 3 (.element "NEXT" []) []]]

/-- The document of that definition. -/
def displacedDocument : Document :=
  ⟨#[⟨.element "camelContext" [], none, [1]⟩, ⟨.element "route" [], some 0, [2, 3]⟩,
    ⟨.element "from" [⟨"uri", "logical:q"⟩], some 1, []⟩, ⟨.element "NEXT" [], some 1, []⟩], 0⟩

/-- The action is lost. -/
theorem nodes_kept_iff_displaced :
    ∃ (generated : GeneratedPolicy) (resolvers : ResolverChain) (final : Progress) (t' : Placed),
      generateWith ⟨.standard, .empty, .empty⟩ (fun _ => false) .empty batchingSnapshot
        { name := "p" } displacedAction = .ok (generated, resolvers) ∧
      displacedDocument.ShowsRoot displacedTree ∧
      resolveKinds ⟨.standard, .empty, .empty⟩ (fun _ => false) batchingSnapshot "p"
        (displacedDocument.size + addedReferenceLimit) Marker.all
        (start displacedDocument .empty) = .ok final ∧
      generated.definition = final.document.serialize ∧ final.document.ShowsRoot t' ∧
      ¬ Kept displacedTree.nodes t'.nodes := by
  have hparse : Document.parse displacedAction = .ok displacedDocument :=
    Outcome.of_toOption_eq_some (by decide +kernel)
  have hok : (generateWith ⟨.standard, .empty, .empty⟩ (fun _ => false) .empty batchingSnapshot
      { name := "p" } displacedAction).isOk = true := by
    decide +kernel
  have hstored : displacedDocument.ShowsRoot displacedTree := by
    refine ⟨rfl, [], ⟨?_, ?_⟩⟩
    · intro t ht
      rw [List.mem_singleton.mp ht]
      unfold Document.Stores
      decide
    · decide
  obtain ⟨⟨generated, resolvers⟩, hgenerate⟩ := Outcome.exists_of_isOk hok
  obtain ⟨t, t', final, hshows, hroot, hfinal, hdefinition, ht', -, hiff⟩ :=
    nodes_kept_iff rfl hparse hgenerate
  have htree : t = displacedTree := Document.ShowsRoot.unique ⟨hroot, [], hshows⟩ hstored
  refine ⟨generated, resolvers, final, t', hgenerate, hstored, hfinal, hdefinition, ht', ?_⟩
  rw [← htree, hiff, htree]
  decide +kernel

end Generator

end RouteCompiler
