import RouteCompiler.Proofs.Document.Walk

/-!
# The tree of the root

A generator changes the tree of the root of a document; trees that it took out
of that tree stay in the arena, but no walk from the root meets them.

Main definitions:

- `Document.ShowsAmong`: a tree that stands among others, which an edit of it keeps.
- `Document.ShowsRoot`: what stands at and below the root.

Main results:

- Theorems `ShowsRoot.descendants` and `ShowsRoot.content`: what a walk from the
  root meets, and what it reads there.
-/

namespace RouteCompiler.Route.Document

/-- The document shows a tree among others; there may be yet more. -/
def ShowsAmong (d : Document) (others : List Placed) (t : Placed) : Prop :=
  ∃ gone, d.Shows (t :: (others ++ gone))

/-- The document shows a tree at its root; other trees may be detached. -/
def ShowsRoot (d : Document) (t : Placed) : Prop :=
  d.root = t.id ∧ ∃ detached, d.Shows (t :: detached)

theorem name_of_content {d : Document} {x : NodeId} {c : Content} (h : d.content? x = some c) :
    d.name? x = c.name? := by
  simp [name?, h]

theorem attribute_of_content {d : Document} {x : NodeId} {c : Content}
    (h : d.content? x = some c) (key : String) : d.attribute? x key = c.attribute? key := by
  simp [attribute?, h]

theorem isNamed_of_content {d : Document} {x : NodeId} {c : Content}
    (h : d.content? x = some c) (name : String) :
    d.isNamed name x = (c.name? == some name) := by
  simp [isNamed, name?, h]

namespace ShowsAmong

variable {d : Document} {others : List Placed} {t u s : Placed} {fs : List Frame} {p : NodeId}
  {c : Content} {cs left right : List Placed}

theorem storesAt (h : d.ShowsAmong others (plug fs s)) : d.Stores (holder? fs) s := by
  obtain ⟨gone, hshows⟩ := h
  exact hshows.storesAt

/-- What is read at a place. -/
theorem content_plug (h : d.ShowsAmong others (plug fs s)) : d.content? s.id = some s.content := by
  obtain ⟨gone, hshows⟩ := h
  exact hshows.content_plug

/-- What a node of the tree holds. -/
theorem content (h : d.ShowsAmong others t) {x : NodeId} (hx : (x, c) ∈ t.nodes) :
    d.content? x = some c := by
  obtain ⟨gone, hshows⟩ := h
  exact (hshows.stored t (by simp)).content_of_mem hx

/-- The tree that has the root at its top is the one at the root. -/
theorem showsRoot (h : d.ShowsAmong others t) (hu : u ∈ t :: others) (hroot : d.root = u.id) :
    d.ShowsRoot u := by
  obtain ⟨gone, hshows⟩ := h
  have hmem : u ∈ t :: (others ++ gone) := by
    simp only [List.mem_cons, List.mem_append] at hu ⊢
    tauto
  obtain ⟨before, behind, hsplit⟩ := List.append_of_mem hmem
  rw [hsplit] at hshows
  exact ⟨hroot, before ++ behind, hshows.perm List.perm_middle⟩

/-! ## Edits of one tree -/

/-- A copy of a tree becomes the last one below a node. -/
theorem appendGraft (h : d.ShowsAmong others (plug fs (.node p c cs))) (t : Tree) :
    ((d.graft t).1.appendChild p d.size).ShowsAmong others
      (plug fs (.node p c (cs ++ [.number d.size t]))) := by
  obtain ⟨gone, hshows⟩ := h
  have hid := Placed.id_number d.size t
  have happend := ((hshows.graft t).perm (List.Perm.swap _ _ _)).appendChild
  rw [hid] at happend
  exact ⟨gone, happend⟩

/-- A copy of a tree replaces what stands at a place. -/
theorem replaceGraft (h : d.ShowsAmong others (plug fs (.node p c (left ++ s :: right))))
    (t : Tree) :
    ((d.graft t).1.replace s.id d.size).ShowsAmong others
      (plug fs (.node p c (left ++ .number d.size t :: right))) := by
  obtain ⟨gone, hshows⟩ := h
  have hid := Placed.id_number d.size t
  have hreplace := ((hshows.graft t).perm (List.Perm.swap _ _ _)).replace
  rw [hid] at hreplace
  exact ⟨s :: gone, hreplace.perm (List.perm_middle.symm.cons _)⟩

/-- Neighbours move into the place of a node, which is cut off. -/
theorem replaceWithMany {rs left' right' : List Placed} {fs' : List Frame} {p' : NodeId}
    {c' : Content}
    (h : d.ShowsAmong others (plug fs' (.node p' c' (left' ++ rs ++ right'))))
    (hrest : plug fs' (.node p' c' (left' ++ right')) = plug fs (.node p c (left ++ s :: right)))
    (hparent : d.parent? s.id = some p) :
    (d.replaceWithMany s.id (rs.map Placed.id)).ShowsAmong others
      (plug fs (.node p c (left ++ rs ++ right))) := by
  obtain ⟨gone, hshows⟩ := h
  exact ⟨s :: gone, (hshows.replaceWithMany hrest hparent).perm (List.perm_middle.symm.cons _)⟩

end ShowsAmong

namespace ShowsRoot

variable {d : Document} {t s : Placed} {fs : List Frame} {p : NodeId} {c : Content}
  {cs : List Placed} {x : NodeId}

/-- The tree of the root among no others. -/
theorem among (h : d.ShowsRoot t) : d.ShowsAmong [] t :=
  h.2

/-- A document has one tree at its root. -/
theorem unique {u : Placed} (h : d.ShowsRoot t) (hu : d.ShowsRoot u) : t = u := by
  obtain ⟨hroot, detached, hshows⟩ := h
  obtain ⟨hroot', detached', hshows'⟩ := hu
  exact (hshows.stored t (by simp)).unique (hshows'.stored u (by simp)) (hroot.symm.trans hroot')

/-- A walk from the root meets the elements of its tree. -/
theorem descendants (h : d.ShowsRoot t) :
    d.descendants d.root = t.elementsBelow.map Prod.fst := by
  obtain ⟨hroot, detached, hshows⟩ := h
  rw [hroot, hshows.descendants]
  rfl

theorem tree (h : d.ShowsRoot t) : d.tree d.root = t.toTree := by
  obtain ⟨hroot, detached, hshows⟩ := h
  rw [hroot, hshows.tree]

theorem serialize (h : d.ShowsRoot t) : d.serialize = t.toTree.toText := by
  rw [Document.serialize, h.tree]

/-- What a node of the tree of the root holds. -/
theorem content (h : d.ShowsRoot t) (hx : (x, c) ∈ t.nodes) : d.content? x = some c := by
  obtain ⟨-, detached, hshows⟩ := h
  exact (hshows.stored t (by simp)).content_of_mem hx

theorem mem_nodes_of_mem_elementsBelow {e : NodeId × Content} (h : e ∈ t.elementsBelow) :
    e ∈ t.nodes := by
  obtain ⟨u, hu, he⟩ := List.mem_flatMap.mp h
  cases t with
  | node id c cs =>
      rw [Placed.nodes_node]
      exact List.mem_cons_of_mem _ (List.mem_flatMap.mpr ⟨u, hu, u.elements_sublist.subset he⟩)

/-- What a walk reads at an element that it meets. -/
theorem content_of_mem (h : d.ShowsRoot t) {e : NodeId × Content} (he : e ∈ t.elementsBelow) :
    d.content? e.1 = some e.2 :=
  h.content (mem_nodes_of_mem_elementsBelow he)

/-- A walk from the root reaches the elements of its tree. -/
theorem mem_descendants (h : d.ShowsRoot t) {e : NodeId × Content} (he : e ∈ t.elementsBelow) :
    e.1 ∈ d.descendants d.root := by
  rw [h.descendants]
  exact List.mem_map_of_mem he

theorem isNamed_of_mem (h : d.ShowsRoot t) {e : NodeId × Content} (he : e ∈ t.elementsBelow)
    {name : String} (hname : e.2.name? = some name) : d.isNamed name e.1 = true := by
  rw [isNamed_of_content (h.content_of_mem he), hname]
  exact beq_self_eq_true _

/-- What is read at a place. -/
theorem content_plug (h : d.ShowsRoot (plug fs s)) : d.content? s.id = some s.content := by
  obtain ⟨-, detached, hshows⟩ := h
  exact hshows.content_plug

/-- Addresses of the tree of the root are distinct. -/
theorem nodup (h : d.ShowsRoot t) : t.ids.Nodup := by
  obtain ⟨-, detached, hshows⟩ := h
  exact (List.nodup_append.mp (by simpa using hshows.nodup)).1

theorem lt_size (h : d.ShowsRoot t) (hx : x ∈ t.ids) : x < d.size := by
  obtain ⟨-, detached, hshows⟩ := h
  exact hshows.lt_size (by simp) hx

/-- The root has no parent. -/
theorem parent_root (h : d.ShowsRoot t) : d.parent? d.root = none := by
  obtain ⟨hroot, detached, hshows⟩ := h
  simp [parent?, hroot, (hshows.stored t (by simp)).top]

/-! ## Edits below the root -/

theorem modifyContent (h : d.ShowsRoot (plug fs (.node p c cs))) (f : Content → Content) :
    (d.modifyContent p f).ShowsRoot (plug fs (.node p (f c) cs)) := by
  obtain ⟨hroot, detached, hshows⟩ := h
  refine ⟨hroot.trans (id_plug_congr ?_ fs), detached, hshows.modifyContent f⟩
  rfl

end ShowsRoot

end RouteCompiler.Route.Document
