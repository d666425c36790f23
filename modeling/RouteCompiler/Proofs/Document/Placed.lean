import RouteCompiler.Route.Document.Traversal
import Mathlib.Data.List.Basic
import Mathlib.Data.List.Flatten
import Mathlib.Data.List.Perm.Basic

/-!
# Placed trees

A placed tree is a tree whose nodes carry their addresses.  It is what a
document looks like from one of its nodes: the arena stores links, the placed
tree is what following them shows.

Main definitions:

- `Placed.nodes`, `Placed.elements`: the nodes, and the elements that a walk
  meets, in document order.
- `Placed.entries`: what the arena stores for each node.
- `Frame` and `plug`: a place in a tree, as the path from the place to the top.

Main results:

- Theorem `nodes_plug`: a place splits document order in what is before, inside
  and behind it.
- Theorems `exists_plug_of_mem_ids` and `exists_plug_of_elements_eq`: every node stands
  at a place, and so does every element that a walk meets.
-/

namespace RouteCompiler.Route

/-- A node with its address and everything below it. -/
inductive Placed where
  | node (id : NodeId) (content : Content) (children : List Placed)

namespace Placed

/-- The address of the top node. -/
def id : Placed → NodeId
  | node id _ _ => id

/-- What the top node holds. -/
def content : Placed → Content
  | node _ content _ => content

/-- The trees directly below the top node. -/
def children : Placed → List Placed
  | node _ _ children => children

@[simp] theorem id_node (id : NodeId) (c : Content) (children : List Placed) :
    (node id c children).id = id := rfl

@[simp] theorem content_node (id : NodeId) (c : Content) (children : List Placed) :
    (node id c children).content = c := rfl

@[simp] theorem children_node (id : NodeId) (c : Content) (children : List Placed) :
    (node id c children).children = children := rfl

theorem eta (t : Placed) : node t.id t.content t.children = t := by
  cases t; rfl

/-- Induction over placed trees: a property holds of a tree if it holds of all
trees directly below the top. -/
@[elab_as_elim, induction_eliminator]
theorem induction {motive : Placed → Prop}
    (node : ∀ id content children, (∀ t ∈ children, motive t) → motive (.node id content children))
    (t : Placed) : motive t := by
  refine @Placed.rec motive (fun ts => ∀ t ∈ ts, motive t) ?_ ?_ ?_ t
  · exact fun id content children ih => node id content children ih
  · simp
  · intro t ts ht hts
    simpa using ⟨ht, hts⟩

/-! ## What a tree shows -/

mutual

/-- The tree without its addresses. -/
def toTree : Placed → Tree
  | node _ content children => .node content (toTrees children)

/-- Trees without their addresses. -/
def toTrees : List Placed → List Tree
  | [] => []
  | t :: ts => t.toTree :: toTrees ts

end

mutual

/-- All nodes with what they hold, in document order. -/
def nodes : Placed → List (NodeId × Content)
  | node id content children => (id, content) :: nodesAll children

/-- All nodes of several trees, in document order. -/
def nodesAll : List Placed → List (NodeId × Content)
  | [] => []
  | t :: ts => t.nodes ++ nodesAll ts

end

mutual

/-- The elements that a walk meets, in document order: a walk passes over a text
with all below it. -/
def elements : Placed → List (NodeId × Content)
  | node id (.element name attributes) children =>
      (id, .element name attributes) :: elementsAll children
  | node _ (.text _) _ => []

/-- The elements that a walk through several trees meets. -/
def elementsAll : List Placed → List (NodeId × Content)
  | [] => []
  | t :: ts => t.elements ++ elementsAll ts

end

mutual

/-- What the arena stores for each node of a tree whose top has the given
parent. -/
def entries (parent : Option NodeId) : Placed → List (NodeId × Node)
  | node id content children =>
      (id, ⟨content, parent, children.map Placed.id⟩) :: entriesAll (some id) children

/-- What the arena stores for each node of several trees with one parent. -/
def entriesAll (parent : Option NodeId) : List Placed → List (NodeId × Node)
  | [] => []
  | t :: ts => t.entries parent ++ entriesAll parent ts

end

theorem toTrees_eq_map (ts : List Placed) : toTrees ts = ts.map toTree := by
  induction ts with
  | nil => rfl
  | cons t ts ih => simp [toTrees, ih]

theorem nodesAll_eq_flatMap (ts : List Placed) : nodesAll ts = ts.flatMap nodes := by
  induction ts with
  | nil => rfl
  | cons t ts ih => simp [nodesAll, ih]

theorem elementsAll_eq_flatMap (ts : List Placed) : elementsAll ts = ts.flatMap elements := by
  induction ts with
  | nil => rfl
  | cons t ts ih => simp [elementsAll, ih]

theorem entriesAll_eq_flatMap (parent : Option NodeId) (ts : List Placed) :
    entriesAll parent ts = ts.flatMap (entries parent) := by
  induction ts with
  | nil => rfl
  | cons t ts ih => simp [entriesAll, ih]

@[simp] theorem toTree_node (id : NodeId) (c : Content) (children : List Placed) :
    (node id c children).toTree = .node c (children.map toTree) := by
  simp [toTree, toTrees_eq_map]

theorem content_toTree (t : Placed) : t.toTree.content = t.content := by
  obtain ⟨id, c, children⟩ := t
  rfl

@[simp] theorem nodes_node (id : NodeId) (c : Content) (children : List Placed) :
    (node id c children).nodes = (id, c) :: children.flatMap nodes := by
  simp [nodes, nodesAll_eq_flatMap]

@[simp] theorem elements_element (id : NodeId) (name : String) (attributes : List Attribute)
    (children : List Placed) :
    (node id (.element name attributes) children).elements =
      (id, .element name attributes) :: children.flatMap elements := by
  simp [elements, elementsAll_eq_flatMap]

@[simp] theorem elements_text (id : NodeId) (value : String) (children : List Placed) :
    (node id (.text value) children).elements = [] := by
  simp [elements]

@[simp] theorem entries_node (parent : Option NodeId) (id : NodeId) (c : Content)
    (children : List Placed) :
    (node id c children).entries parent =
      (id, ⟨c, parent, children.map Placed.id⟩) :: children.flatMap (entries (some id)) := by
  simp [entries, entriesAll_eq_flatMap]

/-- The elements that a walk from the top meets. -/
def elementsBelow (t : Placed) : List (NodeId × Content) :=
  t.children.flatMap elements

/-- The addresses of all nodes, in document order. -/
def ids (t : Placed) : List NodeId :=
  t.nodes.map Prod.fst

@[simp] theorem ids_node (id : NodeId) (c : Content) (children : List Placed) :
    (node id c children).ids = id :: children.flatMap ids := by
  simp only [ids, nodes_node, List.map_cons, List.map_flatMap]
  rfl

theorem id_mem_ids (t : Placed) : t.id ∈ t.ids := by
  cases t; simp

theorem ids_eq_cons (t : Placed) : t.ids = t.id :: t.children.flatMap ids := by
  cases t; simp

/-- The addresses of trees are those of their tops and those further down. -/
theorem ids_perm_tops (ts : List Placed) :
    (ts.flatMap ids).Perm
      (ts.map Placed.id ++ ts.flatMap fun t => t.children.flatMap ids) := by
  induction ts with
  | nil => simp
  | cons t ts ih =>
      refine List.perm_iff_count.mpr fun x => ?_
      have hcount := ih.count_eq x
      simp only [List.flatMap_cons, List.map_cons, ids_eq_cons t, List.count_append,
        List.count_cons] at hcount ⊢
      omega

theorem elements_of_isElement {c : Content} (h : c.isElement) (id : NodeId)
    (children : List Placed) :
    (node id c children).elements = (id, c) :: children.flatMap elements := by
  cases c with
  | element name attributes => simp
  | text value => simp [Content.isElement, Content.name?] at h

/-- The elements of a tree are its top and those below. -/
theorem elements_eq_cons {t : Placed} (h : t.content.isElement) :
    t.elements = (t.id, t.content) :: t.elementsBelow := by
  cases t with
  | node id c children => exact elements_of_isElement h id children

/-- The arena stores the content of each node. -/
theorem entries_map_content (parent : Option NodeId) (t : Placed) :
    (t.entries parent).map (fun e => (e.1, e.2.content)) = t.nodes := by
  induction t generalizing parent with
  | node id c children ih =>
      simp only [entries_node, nodes_node, List.map_cons, List.map_flatMap]
      congr 1
      exact List.flatMap_congr fun t ht => ih t ht (some id)

/-- The arena stores one place for each address. -/
theorem entries_map_fst (parent : Option NodeId) (t : Placed) :
    (t.entries parent).map Prod.fst = t.ids := by
  rw [ids, ← entries_map_content parent t, List.map_map]
  rfl

theorem mem_ids_of_mem_entries {parent : Option NodeId} {t : Placed} {e : NodeId × Node}
    (h : e ∈ t.entries parent) : e.1 ∈ t.ids := by
  rw [← entries_map_fst parent t]
  exact List.mem_map_of_mem h

/-- A walk meets nodes of the tree only. -/
theorem elements_sublist (t : Placed) : t.elements.Sublist t.nodes := by
  induction t with
  | node id c children ih =>
      cases c with
      | element name attributes =>
          simp only [elements_element, nodes_node]
          exact List.Sublist.cons_cons _ (List.Sublist.flatMap_right _ ih)
      | text value => simp

end Placed

/-! ## Places in a tree -/

/-- One step up from a place: the node above it, with the trees on both sides of
the place. -/
structure Frame where
  id : NodeId
  content : Content
  left : List Placed
  right : List Placed

/-- The tree of a frame with trees at its place. -/
def Frame.fill (f : Frame) (ts : List Placed) : Placed :=
  .node f.id f.content (f.left ++ ts ++ f.right)

/-- A frame with one more tree on the left of its place. -/
def Frame.add (f : Frame) (t : Placed) : Frame :=
  ⟨f.id, f.content, f.left ++ [t], f.right⟩

/-- Put a tree at a place; the frames lead from the place to the top. -/
def plug : List Frame → Placed → Placed
  | [], t => t
  | f :: fs, t => plug fs (f.fill [t])

/-- The node above a place. -/
def holder? : List Frame → Option NodeId
  | [] => none
  | f :: _ => some f.id

/-- The nodes before a place, in document order. -/
def nodesBefore : List Frame → List (NodeId × Content)
  | [] => []
  | f :: fs => nodesBefore fs ++ (f.id, f.content) :: f.left.flatMap Placed.nodes

/-- The nodes behind a place, in document order. -/
def nodesBehind : List Frame → List (NodeId × Content)
  | [] => []
  | f :: fs => f.right.flatMap Placed.nodes ++ nodesBehind fs

/-- The addresses outside a place. -/
def idsOutside (fs : List Frame) : List NodeId :=
  (nodesBefore fs ++ nodesBehind fs).map Prod.fst

/-- The elements before a place that no text encloses. -/
def elementsBefore : List Frame → List (NodeId × Content)
  | [] => []
  | f :: fs => elementsBefore fs ++ (f.id, f.content) :: f.left.flatMap Placed.elements

/-- The elements behind a place that no text encloses. -/
def elementsBehind : List Frame → List (NodeId × Content)
  | [] => []
  | f :: fs => f.right.flatMap Placed.elements ++ elementsBehind fs

/-- What the arena stores for the nodes outside a place at which a node
stands. -/
def entriesOutside : List Frame → NodeId → List (NodeId × Node)
  | [], _ => []
  | f :: fs, hole =>
      (f.id, ⟨f.content, holder? fs,
        f.left.map Placed.id ++ hole :: f.right.map Placed.id⟩) ::
      (f.left ++ f.right).flatMap (Placed.entries (some f.id)) ++ entriesOutside fs f.id

/-- No text encloses a place. -/
def Open (fs : List Frame) : Prop :=
  ∀ f ∈ fs, f.content.isElement

theorem plug_append (fs gs : List Frame) (t : Placed) :
    plug (fs ++ gs) t = plug gs (plug fs t) := by
  induction fs generalizing t with
  | nil => rfl
  | cons f fs ih => exact ih (f.fill [t])

/-- A place splits document order. -/
theorem nodes_plug (fs : List Frame) (t : Placed) :
    (plug fs t).nodes = nodesBefore fs ++ t.nodes ++ nodesBehind fs := by
  induction fs generalizing t with
  | nil => simp [plug, nodesBefore, nodesBehind]
  | cons f fs ih => simp [plug, ih, Frame.fill, nodesBefore, nodesBehind]

theorem elementsBefore_append (fs gs : List Frame) :
    elementsBefore (fs ++ gs) = elementsBefore gs ++ elementsBefore fs := by
  induction fs with
  | nil => simp [elementsBefore]
  | cons f fs ih => simp [elementsBefore, ih]

theorem ids_plug (fs : List Frame) (t : Placed) :
    (plug fs t).ids =
      (nodesBefore fs).map Prod.fst ++ t.ids ++ (nodesBehind fs).map Prod.fst := by
  simp [Placed.ids, nodes_plug]

theorem ids_plug_perm (fs : List Frame) (t : Placed) :
    (plug fs t).ids.Perm (idsOutside fs ++ t.ids) := by
  rw [ids_plug, idsOutside, List.map_append, List.append_assoc, List.append_assoc]
  exact List.Perm.append_left _ List.perm_append_comm

/-- A place that no text encloses splits the elements in document order. -/
theorem elements_plug {fs : List Frame} (h : Open fs) (t : Placed) :
    (plug fs t).elements = elementsBefore fs ++ t.elements ++ elementsBehind fs := by
  induction fs generalizing t with
  | nil => simp [plug, elementsBefore, elementsBehind]
  | cons f fs ih =>
      have hf : f.content.isElement := h f (by simp)
      rw [plug, ih (fun g hg => h g (by simp [hg])), Frame.fill,
        Placed.elements_of_isElement hf]
      simp [elementsBefore, elementsBehind]

theorem content_plug_isElement {fs : List Frame} (h : Open fs) {t : Placed}
    (ht : t.content.isElement) : (plug fs t).content.isElement := by
  induction fs generalizing t with
  | nil => exact ht
  | cons f fs ih => exact ih (fun g hg => h g (by simp [hg])) (h f (by simp))

/-- The elements below the top, around a place below the top. -/
theorem elementsBelow_plug {f : Frame} {fs : List Frame} (h : Open (f :: fs)) (t : Placed) :
    (plug (f :: fs) t).elementsBelow =
      (elementsBefore (f :: fs)).tail ++ t.elements ++ elementsBehind (f :: fs) := by
  have hfill : (plug (f :: fs) t).content.isElement :=
    content_plug_isElement (fun g hg => h g (by simp [hg])) (t := f.fill [t]) (h f (by simp))
  have helements := elements_plug h t
  rw [Placed.elements_eq_cons hfill, List.append_assoc] at helements
  have hne : elementsBefore (f :: fs) ≠ [] := by simp [elementsBefore]
  rw [List.append_assoc, ← List.tail_append_of_ne_nil hne, ← helements]
  rfl

/-- What the arena stores for a tree is what it stores for the part at a place
and for the part outside. -/
theorem mem_entries_plug {fs : List Frame} {t : Placed} {e : NodeId × Node} :
    e ∈ (plug fs t).entries none ↔
      e ∈ t.entries (holder? fs) ∨ e ∈ entriesOutside fs t.id := by
  induction fs generalizing t with
  | nil => simp [plug, holder?, entriesOutside]
  | cons f fs ih =>
      rw [plug, ih]
      simp only [Frame.fill, Placed.entries_node, Placed.id_node, entriesOutside, holder?,
        List.mem_cons, List.mem_append, List.flatMap_append, List.flatMap_cons,
        List.map_append, List.map_cons, List.append_assoc, List.singleton_append]
      tauto

theorem entriesOutside_map_fst_subset {fs : List Frame} {hole : NodeId} {e : NodeId × Node}
    (h : e ∈ entriesOutside fs hole) : e.1 ∈ idsOutside fs := by
  induction fs generalizing hole with
  | nil => simp [entriesOutside] at h
  | cons f fs ih =>
      have hside : ∀ {ts : List Placed}, e ∈ ts.flatMap (Placed.entries (some f.id)) →
          e.1 ∈ (ts.flatMap Placed.nodes).map Prod.fst := by
        intro ts hts
        obtain ⟨t, ht, he⟩ := List.mem_flatMap.mp hts
        rw [List.map_flatMap]
        exact List.mem_flatMap.mpr ⟨t, ht, Placed.mem_ids_of_mem_entries he⟩
      simp only [entriesOutside, List.flatMap_append, List.mem_cons, List.cons_append,
        List.mem_append] at h
      simp only [idsOutside, nodesBefore, nodesBehind, List.map_append, List.map_cons,
        List.mem_append, List.mem_cons]
      rcases h with rfl | (h | h) | h
      · simp
      · exact .inl (.inr (.inr (hside h)))
      · exact .inr (.inl (hside h))
      · have := ih h
        simp only [idsOutside, List.map_append, List.mem_append] at this
        tauto

/-- What stands at a place has no influence on the top, unless it is the top. -/
theorem id_plug_congr {t u : Placed} (h : t.id = u.id) (fs : List Frame) :
    (plug fs t).id = (plug fs u).id := by
  induction fs generalizing t u with
  | nil => exact h
  | cons f fs ih => exact ih rfl

theorem content_plug_congr {t u : Placed} (h : t.content = u.content) (fs : List Frame) :
    (plug fs t).content = (plug fs u).content := by
  induction fs generalizing t u with
  | nil => exact h
  | cons f fs ih => exact ih rfl

theorem id_plug_cons (f : Frame) (fs : List Frame) (t u : Placed) :
    (plug (f :: fs) t).id = (plug (f :: fs) u).id :=
  @id_plug_congr (f.fill [t]) (f.fill [u]) rfl fs

theorem split_flatMap {α β : Type} {f : α → List β} {as : List α} {before behind : List β}
    {x : β} (h : as.flatMap f = before ++ x :: behind) :
    ∃ left a right before' behind', as = left ++ a :: right ∧ f a = before' ++ x :: behind' ∧
      before = left.flatMap f ++ before' := by
  induction as generalizing before with
  | nil => simp at h
  | cons a as ih =>
      rw [List.flatMap_cons] at h
      rcases List.append_eq_append_iff.mp h with ⟨mid, hbefore, hrest⟩ | ⟨mid, ha, hrest⟩
      · obtain ⟨left, b, right, before', behind', rfl, hb, rfl⟩ := ih hrest
        exact ⟨a :: left, b, right, before', behind', rfl, hb, by simp [hbefore]⟩
      · cases mid with
        | nil =>
            have hlater : as.flatMap f = [] ++ x :: behind := hrest.symm
            obtain ⟨left, b, right, before', behind', rfl, hb, hnil⟩ := ih hlater
            refine ⟨a :: left, b, right, before', behind', rfl, hb, ?_⟩
            rw [List.flatMap_cons, List.append_assoc, ← hnil, ha]
            simp
        | cons y mid =>
            simp only [List.cons_append, List.cons.injEq] at hrest
            obtain ⟨rfl, -⟩ := hrest
            exact ⟨[], a, as, before, mid, rfl, ha, rfl⟩

/-- Every node of a tree stands at a place. -/
theorem exists_plug_of_mem_ids {t : Placed} {x : NodeId} (h : x ∈ t.ids) :
    ∃ fs c children, t = plug fs (.node x c children) := by
  induction t with
  | node id content children ih =>
      rw [Placed.ids_node, List.mem_cons] at h
      rcases h with rfl | h
      · exact ⟨[], content, children, rfl⟩
      · obtain ⟨u, hu, hx⟩ := List.mem_flatMap.mp h
        obtain ⟨fs, c, below, hplug⟩ := ih u hu hx
        obtain ⟨left, right, rfl⟩ := List.append_of_mem hu
        refine ⟨fs ++ [⟨id, content, left, right⟩], c, below, ?_⟩
        rw [plug_append, ← hplug]
        simp [plug, Frame.fill]

/-- Every element that a walk meets stands at a place that no text encloses, behind
the elements that the walk meets before. -/
theorem exists_plug_of_elements_eq {t : Placed} {x : NodeId} {c : Content}
    {before behind : List (NodeId × Content)} (h : t.elements = before ++ (x, c) :: behind) :
    ∃ fs children, t = plug fs (.node x c children) ∧ Open fs ∧ elementsBefore fs = before := by
  induction t generalizing before behind with
  | node id content children ih =>
      cases content with
      | text value => simp at h
      | element name attributes =>
          rw [Placed.elements_element] at h
          cases before with
          | nil =>
              simp only [List.nil_append, List.cons.injEq, Prod.mk.injEq] at h
              obtain ⟨⟨rfl, rfl⟩, -⟩ := h
              exact ⟨[], children, rfl, by simp [Open], rfl⟩
          | cons y before =>
              simp only [List.cons_append, List.cons.injEq] at h
              obtain ⟨rfl, hbelow⟩ := h
              obtain ⟨left, t, right, before', behind', rfl, ht, rfl⟩ := split_flatMap hbelow
              obtain ⟨fs, below, rfl, hopen, rfl⟩ := ih t (by simp) ht
              refine ⟨fs ++ [⟨id, .element name attributes, left, right⟩], below, ?_, ?_, ?_⟩
              · simp [plug_append, plug, Frame.fill]
              · intro f hf
                rcases List.mem_append.mp hf with hf | hf
                · exact hopen f hf
                · rw [List.mem_singleton.mp hf]
                  rfl
              · rw [elementsBefore_append]
                simp [elementsBefore]

/-- An element below the top stands at a place below the top. -/
theorem exists_plug_of_elementsBelow_eq {t : Placed} {x : NodeId} {c : Content}
    {before behind : List (NodeId × Content)} (htop : t.content.isElement)
    (h : t.elementsBelow = before ++ (x, c) :: behind) :
    ∃ f fs children, t = plug (f :: fs) (.node x c children) ∧ Open (f :: fs) ∧
      elementsBefore (f :: fs) = (t.id, t.content) :: before := by
  have helements : t.elements = (t.id, t.content) :: before ++ (x, c) :: behind := by
    rw [Placed.elements_eq_cons htop, List.cons_append, ← h]
  obtain ⟨fs, children, ht, hopen, hbefore⟩ := exists_plug_of_elements_eq helements
  cases fs with
  | nil => simp [elementsBefore] at hbefore
  | cons f fs => exact ⟨f, fs, children, ht, hopen, hbefore⟩

end RouteCompiler.Route
