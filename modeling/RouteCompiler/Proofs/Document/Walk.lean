import RouteCompiler.Proofs.Document.Forest

/-!
# Walks through a forest

The bounds of the walks never cut a walk through a forest short, since a forest
has no more nodes than its arena has places.

Main definitions:

- `Document.placed`: a node with everything below it, as a placed tree.

Main results:

- Theorem `Shows.tree_plug`: the tree read off at a node is the one shown there.
- Theorem `Shows.descendants_plug`: the elements below a node, in document
  order.
- Theorem `Shows.graft`: adding a copy of a tree adds that tree, numbered in
  document order.
-/

namespace RouteCompiler.Route

/-- Induction over trees: a property holds of a tree if it holds of all trees
directly below the top. -/
@[elab_as_elim, induction_eliminator]
theorem Tree.induction {motive : Tree → Prop}
    (node : ∀ content children, (∀ t ∈ children, motive t) → motive (.node content children))
    (t : Tree) : motive t := by
  refine @Tree.rec motive (fun ts => ∀ t ∈ ts, motive t) ?_ ?_ ?_ t
  · exact fun content children ih => node content children ih
  · simp
  · intro t ts ht hts
    simpa using ⟨ht, hts⟩

mutual

/-- What the nodes of a tree hold, in document order. -/
def Tree.contents : Tree → List Content
  | .node content children => content :: contentsAll children

/-- What the nodes of several trees hold, in document order. -/
def Tree.contentsAll : List Tree → List Content
  | [] => []
  | t :: ts => t.contents ++ contentsAll ts

end

theorem Tree.contentsAll_eq_flatMap (ts : List Tree) : contentsAll ts = ts.flatMap contents := by
  induction ts with
  | nil => rfl
  | cons t ts ih => simp [contentsAll, ih]

namespace Placed

/-- A tree has no more nodes than all trees it is one of. -/
theorem length_ids_le_of_mem {t : Placed} {ts : List Placed} (h : t ∈ ts) :
    t.ids.length ≤ (ts.flatMap ids).length := by
  obtain ⟨left, right, rfl⟩ := List.append_of_mem h
  simp only [List.flatMap_append, List.flatMap_cons, List.length_append]
  omega

mutual

/-- Number the nodes of a tree in document order. -/
def number (n : Nat) : Tree → Placed
  | .node content children => .node n content (numberAll (n + 1) children)

/-- Number the nodes of several trees in document order. -/
def numberAll (n : Nat) : List Tree → List Placed
  | [] => []
  | t :: ts => number n t :: numberAll (n + (number n t).ids.length) ts

end

@[simp] theorem id_number (n : Nat) (t : Tree) : (number n t).id = n := by
  cases t
  rfl

@[simp] theorem toTree_number (n : Nat) (t : Tree) : (number n t).toTree = t := by
  induction t generalizing n with
  | node content children ih =>
      have hall : ∀ m, (numberAll m children).map toTree = children := by
        induction children with
        | nil => simp [numberAll]
        | cons t ts ihts =>
            intro m
            rw [numberAll, List.map_cons, ih t (by simp) m,
              ihts (fun u hu => ih u (by simp [hu]))]
      rw [number, toTree_node, hall]

@[simp] theorem toTree_numberAll (n : Nat) (ts : List Tree) :
    (numberAll n ts).map toTree = ts := by
  induction ts generalizing n with
  | nil => simp [numberAll]
  | cons t ts ih => rw [numberAll, List.map_cons, toTree_number, ih]

theorem nodes_map_content (t : Placed) : t.nodes.map Prod.snd = t.toTree.contents := by
  have hall : ∀ ts : List Placed, (∀ u ∈ ts, u.nodes.map Prod.snd = u.toTree.contents) →
      (ts.flatMap nodes).map Prod.snd = Tree.contentsAll (ts.map toTree) := by
    intro ts hts
    induction ts with
    | nil => rfl
    | cons u us ih =>
        rw [List.flatMap_cons, List.map_append, hts u (by simp),
          ih fun v hv => hts v (by simp [hv])]
        rfl
  induction t with
  | node id content children ih =>
      rw [nodes_node, toTree_node, List.map_cons, hall children ih]
      rfl

/-- Numbering keeps what the nodes hold. -/
theorem content_mem_of_mem_number {n : Nat} {t : Tree} {e : NodeId × Content}
    (h : e ∈ (number n t).nodes) : e.2 ∈ t.contents := by
  rw [← toTree_number n t, ← nodes_map_content]
  exact List.mem_map_of_mem h

theorem length_ids_number (n : Nat) (t : Tree) :
    (number n t).ids.length = t.contents.length := by
  have hmap := congrArg List.length (nodes_map_content (number n t))
  rw [toTree_number, List.length_map] at hmap
  rw [ids, List.length_map, hmap]

private theorem le_of_mem_numberAll_of_number {ts : List Tree}
    (h : ∀ t ∈ ts, ∀ n, ∀ x ∈ (number n t).ids, n ≤ x) (n : Nat) :
    ∀ x ∈ (numberAll n ts).flatMap ids, n ≤ x := by
  induction ts generalizing n with
  | nil => simp [numberAll]
  | cons t ts ih =>
      intro x hx
      rw [numberAll, List.flatMap_cons, List.mem_append] at hx
      rcases hx with hx | hx
      · exact h t (by simp) n x hx
      · have := ih (fun u hu => h u (by simp [hu])) _ x hx
        omega

/-- Numbering gives out addresses from the first one on. -/
theorem le_of_mem_number (t : Tree) (n : Nat) : ∀ x ∈ (number n t).ids, n ≤ x := by
  induction t generalizing n with
  | node content children ih =>
      intro x hx
      rw [number, ids_node, List.mem_cons] at hx
      rcases hx with rfl | hx
      · exact Nat.le_refl x
      · have := le_of_mem_numberAll_of_number ih (n + 1) x hx
        omega

theorem le_of_mem_numberAll (ts : List Tree) (n : Nat) :
    ∀ x ∈ (numberAll n ts).flatMap ids, n ≤ x :=
  le_of_mem_numberAll_of_number (fun t _ => le_of_mem_number t) n

end Placed

namespace Document

variable {d : Document} {above : Option NodeId} {t s : Placed} {ts : List Placed}
  {fs : List Frame} {p : NodeId} {c : Content} {cs : List Placed}

/-! ## Trees and document order -/

/-- A node with what lies below it and with their addresses, to a given depth. -/
def placedWithin (d : Document) : Nat → NodeId → Placed
  | 0, id => .node id ((d.content? id).getD (.text "")) []
  | depth + 1, id =>
      .node id ((d.content? id).getD (.text "")) ((d.children id).map (d.placedWithin depth))

/-- A node with everything below it, as a placed tree. -/
def placed (d : Document) (id : NodeId) : Placed :=
  d.placedWithin d.size id

theorem toTree_placedWithin (d : Document) (n : Nat) (x : NodeId) :
    (d.placedWithin n x).toTree = d.treeWithin n x := by
  induction n generalizing x with
  | zero => simp [placedWithin, treeWithin]
  | succ n ih =>
      have hbelow : Placed.toTree ∘ d.placedWithin n = d.treeWithin n := funext ih
      simp [placedWithin, treeWithin, hbelow]

/-- The placed tree at a node is the tree that is written for it, with addresses. -/
theorem toTree_placed (d : Document) (x : NodeId) : (d.placed x).toTree = d.tree x :=
  toTree_placedWithin d d.size x

theorem placedWithin_eq {n : Nat} (h : d.Stores above t) (hn : t.ids.length ≤ n + 1) :
    d.placedWithin n t.id = t := by
  induction n generalizing above t with
  | zero =>
      obtain ⟨id, c, cs⟩ := t
      have hcs : cs = [] := by
        cases cs with
        | nil => rfl
        | cons u us => simp [Placed.ids_eq_cons u] at hn
      simp [placedWithin, h.content, hcs]
  | succ n ih =>
      obtain ⟨id, c, cs⟩ := t
      have hbelow : ∀ u ∈ cs, d.placedWithin n u.id = u := by
        intro u hu
        refine ih ((stores_node.mp h).2 u hu) ?_
        have hle := Placed.length_ids_le_of_mem hu
        simp only [Placed.ids_node, List.length_cons] at hn
        omega
      simpa [placedWithin, h.content, h.children, Function.comp_def] using
        (List.map_congr_left hbelow).trans (List.map_id cs)

theorem treeWithin_eq {n : Nat} (h : d.Stores above t) (hn : t.ids.length ≤ n + 1) :
    d.treeWithin n t.id = t.toTree := by
  rw [← toTree_placedWithin, placedWithin_eq h hn]

theorem weightWithin_eq {n : Nat} (h : d.Stores above t) (hn : t.ids.length ≤ n + 1) :
    d.weightWithin n t.id = t.ids.length := by
  induction n generalizing above t with
  | zero =>
      have hids : t.ids.length = 1 := by
        rw [Placed.ids_eq_cons t] at hn ⊢
        simp only [List.length_cons] at hn ⊢
        omega
      exact hids.symm
  | succ n ih =>
      obtain ⟨id, c, cs⟩ := t
      have hstep : d.weightWithin (n + 1) id =
          1 + ((d.children id).map (d.weightWithin n)).sum := rfl
      have hbelow : ∀ u ∈ cs, d.weightWithin n u.id = u.ids.length := by
        intro u hu
        refine ih ((stores_node.mp h).2 u hu) ?_
        have hle := Placed.length_ids_le_of_mem hu
        simp only [Placed.ids_node, List.length_cons] at hn
        omega
      have hsum : (cs.map fun u => d.weightWithin n u.id) = cs.map fun u => u.ids.length :=
        List.map_congr_left hbelow
      simp only [Placed.id_node, hstep, h.children, List.map_map, Placed.ids_node,
        List.length_cons, List.length_flatMap, Function.comp_def, hsum]
      omega

/-- A walk with enough steps meets the elements of the pending trees. -/
theorem walk_eq {n : Nat} (h : ∀ t ∈ ts, ∃ above, d.Stores above t)
    (hn : (ts.flatMap Placed.ids).length ≤ n) :
    d.walk n (ts.map Placed.id) = (ts.flatMap Placed.elements).map Prod.fst := by
  induction n generalizing ts with
  | zero =>
      cases ts with
      | nil => rfl
      | cons t ts => simp [Placed.ids_eq_cons t] at hn
  | succ n ih =>
      cases ts with
      | nil => rfl
      | cons t ts =>
          obtain ⟨above, ht⟩ := h t (by simp)
          have hrest : ∀ u ∈ ts, ∃ above, d.Stores above u := fun u hu => h u (by simp [hu])
          obtain ⟨id, c, cs⟩ := t
          simp only [List.flatMap_cons, Placed.ids_node, List.length_append,
            List.length_cons] at hn
          cases c with
          | element name attributes =>
              have helement : d.isElement id := by simp [isElement, name?, ht.content, Content.name?]
              have hpending : ∀ u ∈ cs ++ ts, ∃ above, d.Stores above u := by
                intro u hu
                rcases List.mem_append.mp hu with hu | hu
                · exact ⟨_, (stores_node.mp ht).2 u hu⟩
                · exact hrest u hu
              have hwalk := ih hpending (by simp only [List.flatMap_append, List.length_append]; omega)
              simp only [List.map_append] at hwalk
              simp [walk, helement, ht.children, hwalk]
          | text value =>
              have htext : d.isElement id = false := by
                simp [isElement, name?, ht.content, Content.name?]
              simp [walk, htext, ih hrest (by omega)]

private theorem root_graftAll_of_graft {trees : List Tree}
    (ih : ∀ t ∈ trees, ∀ d : Document, (d.graft t).1.root = d.root) (d : Document) (p : NodeId) :
    (d.graftAll p trees).root = d.root := by
  induction trees generalizing d with
  | nil => rfl
  | cons t trees ihtrees =>
      rw [Document.graftAll, ihtrees fun u hu => ih u (by simp [hu])]
      exact ih t (by simp) d

theorem root_graft (d : Document) (t : Tree) : (d.graft t).1.root = d.root := by
  induction t generalizing d with
  | node content children ih =>
      exact root_graftAll_of_graft ih (d.push content).1 (d.push content).2

private theorem size_graftAll_of_graft {trees : List Tree}
    (ih : ∀ t ∈ trees, ∀ d : Document, (d.graft t).1.size = d.size + t.contents.length)
    (d : Document) (p : NodeId) :
    (d.graftAll p trees).size = d.size + (Tree.contentsAll trees).length := by
  induction trees generalizing d with
  | nil => rfl
  | cons t trees ihtrees =>
      rw [Document.graftAll, ihtrees fun u hu => ih u (by simp [hu])]
      simp [ih t (by simp) d, Tree.contentsAll, Nat.add_assoc]

/-- A copy takes one place for each node. -/
theorem size_graft (d : Document) (t : Tree) :
    (d.graft t).1.size = d.size + t.contents.length := by
  induction t generalizing d with
  | node content children ih =>
      have hall := size_graftAll_of_graft ih (d.push content).1 (d.push content).2
      rw [size_push] at hall
      rw [Document.graft, Tree.contents, List.length_cons]
      simp only [hall]
      omega

theorem id_graft (d : Document) (t : Tree) : (d.graft t).2 = d.size := by
  cases t
  rfl

namespace Shows

theorem length_ids_le (h : d.Shows (plug fs s :: ts)) : s.ids.length ≤ d.size := by
  have hlen := h.placed.length_eq
  have hplug := (ids_plug_perm fs s).length_eq
  simp only [List.flatMap_cons, List.length_append, List.length_range] at hlen hplug
  omega

/-- The placed tree read off at a node is the one shown there. -/
theorem placed_plug (h : d.Shows (plug fs s :: ts)) : d.placed s.id = s :=
  placedWithin_eq h.storesAt (by have := h.length_ids_le; omega)

/-- The tree read off at a node is the tree shown there. -/
theorem tree_plug (h : d.Shows (plug fs s :: ts)) : d.tree s.id = s.toTree :=
  treeWithin_eq h.storesAt (by have := h.length_ids_le; omega)

/-- The elements below a node are those of the tree shown there. -/
theorem descendants_plug (h : d.Shows (plug fs s :: ts)) :
    d.descendants s.id = (s.children.flatMap Placed.elements).map Prod.fst := by
  have hlen := h.length_ids_le
  have hstored := h.storesAt
  obtain ⟨id, c, cs⟩ := s
  rw [descendants, weightWithin_eq hstored (by omega), Placed.id_node, hstored.children]
  refine walk_eq (fun u hu => ⟨_, (stores_node.mp hstored).2 u hu⟩) ?_
  simp

/-- The tree read off at a top is the tree shown there. -/
theorem tree (h : d.Shows (t :: ts)) : d.tree t.id = t.toTree :=
  @tree_plug d t ts [] h

/-- The elements below a top are those of the tree shown there. -/
theorem descendants (h : d.Shows (t :: ts)) :
    d.descendants t.id = (t.children.flatMap Placed.elements).map Prod.fst :=
  @descendants_plug d t ts [] h

/-! ## Copies -/

private theorem graftAll_of_graft {trees : List Tree}
    (ih : ∀ t ∈ trees, ∀ {d : Document} {ts : List Placed}, d.Shows ts →
      (d.graft t).1.Shows (.number d.size t :: ts))
    (h : d.Shows (plug fs (.node p c cs) :: ts)) :
    (d.graftAll p trees).Shows
      (plug fs (.node p c (cs ++ Placed.numberAll d.size trees)) :: ts) := by
  induction trees generalizing d cs with
  | nil => simpa [Document.graftAll, Placed.numberAll] using h
  | cons t trees ihtrees =>
      have hcopy := (ih t (by simp) h).perm (List.Perm.swap _ _ _)
      have hid : (d.graft t).2 = (Placed.number d.size t).id := by
        rw [id_graft, Placed.id_number]
      have hlink := hcopy.link
      have hsize : ((d.graft t).1.link p (Placed.number d.size t).id).size =
          d.size + (Placed.number d.size t).ids.length := by
        rw [size_link, size_graft, Placed.length_ids_number]
      have hrest := ihtrees (fun u hu => ih u (by simp [hu])) hlink
      rw [hsize] at hrest
      simpa [Document.graftAll, Placed.numberAll, hid] using hrest

/-- A copy of a tree is a new tree of the forest, numbered in document order. -/
theorem graft (h : d.Shows ts) (t : Tree) : (d.graft t).1.Shows (.number d.size t :: ts) := by
  induction t generalizing d ts with
  | node content children ih =>
      have hpush : (d.push content).1.Shows (plug [] (.node d.size content []) :: ts) :=
        h.push content
      have hall := graftAll_of_graft ih hpush
      rw [size_push] at hall
      exact hall

/-- Copies of trees become the last ones below a node. -/
theorem graftAll (h : d.Shows (plug fs (.node p c cs) :: ts)) (trees : List Tree) :
    (d.graftAll p trees).Shows
      (plug fs (.node p c (cs ++ Placed.numberAll d.size trees)) :: ts) :=
  graftAll_of_graft (fun t _ _ _ h => h.graft t) h

end Shows

end Document

end RouteCompiler.Route
