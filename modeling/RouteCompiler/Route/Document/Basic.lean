import RouteCompiler.Route.Tree

/-!
# Documents

A document is an arena of nodes.  A node is addressed by its place in the arena
and never moves: detaching it only unlinks it from its parent, so an address
stays valid across edits.  Child lists and parent links are stored apart;
every edit here says what it does to each of them.

Main results:

- Lemmas on `parent?`, `children` and `content?` after the basic edits: an edit
  changes the links it names and no others.
-/

namespace RouteCompiler.Route

/-- The address of a node in its document. -/
abbrev NodeId := Nat

/-- One place of the arena. -/
structure Node where
  content : Content
  parent : Option NodeId
  children : List NodeId
  deriving DecidableEq, Repr

/-- An arena of nodes with a distinguished root. -/
structure Document where
  nodes : Array Node
  root : NodeId
  deriving Repr

namespace Document

/-! ## Reading -/

/-- The number of places in the arena. -/
def size (d : Document) : Nat :=
  d.nodes.size

/-- What a node holds. -/
def content? (d : Document) (id : NodeId) : Option Content :=
  d.nodes[id]?.map Node.content

/-- The parent of a node; the root and detached nodes have none. -/
def parent? (d : Document) (id : NodeId) : Option NodeId :=
  d.nodes[id]?.bind Node.parent

/-- The children of a node, in order. -/
def children (d : Document) (id : NodeId) : List NodeId :=
  (d.nodes[id]?.map Node.children).getD []

/-- The name of an element; a text has none. -/
def name? (d : Document) (id : NodeId) : Option String :=
  (d.content? id).bind Content.name?

/-- Whether a node is an element. -/
def isElement (d : Document) (id : NodeId) : Bool :=
  (d.name? id).isSome

/-- Whether a node is an element of that name. -/
def isNamed (d : Document) (name : String) (id : NodeId) : Bool :=
  d.name? id == some name

/-- The value of an attribute of a node. -/
def attribute? (d : Document) (id : NodeId) (key : String) : Option String :=
  (d.content? id).bind (Content.attribute? key)

/-- The children of a node that are elements, in order. -/
def elementChildren (d : Document) (id : NodeId) : List NodeId :=
  (d.children id).filter d.isElement

/-! ## Making nodes -/

/-- The document that holds nothing yet. -/
def empty : Document :=
  ⟨#[], 0⟩

/-- A document whose root is an empty element. -/
def ofRootName (name : String) : Document :=
  ⟨#[⟨.element name [], none, []⟩], 0⟩

/-- Add a detached node without children; its address is the next free one. -/
def push (d : Document) (content : Content) : Document × NodeId :=
  (⟨d.nodes.push ⟨content, none, []⟩, d.root⟩, d.nodes.size)

/-- Add a detached element without attributes. -/
def createElement (d : Document) (name : String) : Document × NodeId :=
  d.push (.element name [])

/-- Add a detached text. -/
def createText (d : Document) (value : String) : Document × NodeId :=
  d.push (.text value)

/-! ## Basic edits -/

/-- Change one node. -/
def modifyNode (d : Document) (id : NodeId) (f : Node → Node) : Document :=
  ⟨d.nodes.modify id f, d.root⟩

/-- Change the content of a node. -/
def modifyContent (d : Document) (id : NodeId) (f : Content → Content) : Document :=
  d.modifyNode id fun n => ⟨f n.content, n.parent, n.children⟩

/-- Set the parent link of a node. -/
def setParent (d : Document) (id : NodeId) (parent : Option NodeId) : Document :=
  d.modifyNode id fun n => ⟨n.content, parent, n.children⟩

/-- Change the child list of a node. -/
def modifyChildren (d : Document) (id : NodeId) (f : List NodeId → List NodeId) : Document :=
  d.modifyNode id fun n => ⟨n.content, n.parent, f n.children⟩

/-- Give an attribute of a node a value: in place if the key is there, else at
the end.  A text stays as it is. -/
def setAttribute (d : Document) (id : NodeId) (key value : String) : Document :=
  d.modifyContent id (Content.setAttribute key value)

/-- Make a node the last child of another. -/
def link (d : Document) (parent child : NodeId) : Document :=
  (d.setParent child (some parent)).modifyChildren parent (· ++ [child])

section Lemmas

variable (d : Document)

theorem getElem_modifyNode (id other : NodeId) (f : Node → Node) :
    (d.modifyNode id f).nodes[other]? =
      if other = id then d.nodes[other]?.map f else d.nodes[other]? := by
  simp only [modifyNode, Array.getElem?_modify, eq_comm]

@[simp] theorem size_modifyNode (id : NodeId) (f : Node → Node) :
    (d.modifyNode id f).size = d.size := by
  simp [modifyNode, size]

/-- Setting a parent link is seen at that node, if the node exists. -/
theorem parent_setParent (id other : NodeId) (parent : Option NodeId) :
    (d.setParent id parent).parent? other =
      if other = id ∧ other < d.size then parent else d.parent? other := by
  simp only [parent?, setParent, getElem_modifyNode, size]
  by_cases h : other = id
  · subst h
    by_cases hlt : other < d.nodes.size
    · simp [hlt]
    · simp [hlt]
  · simp [h]

/-- Setting a parent link changes no child list. -/
@[simp] theorem children_setParent (id other : NodeId) (parent : Option NodeId) :
    (d.setParent id parent).children other = d.children other := by
  simp only [children, setParent, getElem_modifyNode]
  split
  · cases d.nodes[other]? <;> rfl
  · rfl

/-- Changing a child list changes no parent link. -/
@[simp] theorem parent_modifyChildren (id other : NodeId) (f : List NodeId → List NodeId) :
    (d.modifyChildren id f).parent? other = d.parent? other := by
  simp only [parent?, modifyChildren, getElem_modifyNode]
  split
  · cases d.nodes[other]? <;> rfl
  · rfl

/-- A changed child list is seen at its node, if the node exists. -/
theorem children_modifyChildren (id other : NodeId) (f : List NodeId → List NodeId) :
    (d.modifyChildren id f).children other =
      if other = id ∧ other < d.size then f (d.children other) else d.children other := by
  simp only [children, modifyChildren, getElem_modifyNode, size]
  by_cases h : other = id
  · subst h
    by_cases hlt : other < d.nodes.size
    · simp [hlt]
    · simp [hlt]
  · simp [h]

/-- Changing links changes no content. -/
@[simp] theorem content_setParent (id other : NodeId) (parent : Option NodeId) :
    (d.setParent id parent).content? other = d.content? other := by
  simp only [content?, setParent, getElem_modifyNode]
  split
  · cases d.nodes[other]? <;> rfl
  · rfl

/-- Changing links changes no content. -/
@[simp] theorem content_modifyChildren (id other : NodeId) (f : List NodeId → List NodeId) :
    (d.modifyChildren id f).content? other = d.content? other := by
  simp only [content?, modifyChildren, getElem_modifyNode]
  split
  · cases d.nodes[other]? <;> rfl
  · rfl

end Lemmas

/-! ## Restructuring -/

/-- Unlink a node from its parent.  The node and all below it stay usable. -/
def detach (d : Document) (id : NodeId) : Document :=
  match d.parent? id with
  | none => d
  | some parent => (d.setParent id none).modifyChildren parent (·.filter (· != id))

/-- Unlink a node from where it is and make it the last child of another. -/
def appendChild (d : Document) (parent child : NodeId) : Document :=
  (d.detach child).link parent child

/-- Replace the first occurrence of an address in a child list by others. -/
def splice (target : NodeId) (replacements : List NodeId) : List NodeId → List NodeId
  | [] => []
  | c :: cs => if c = target then replacements ++ cs else c :: splice target replacements cs

/-- Put a node where another is, which is left without a parent.  Nothing
happens if the other has no parent. -/
def replace (d : Document) (target replacement : NodeId) : Document :=
  match d.parent? target with
  | none => d
  | some parent =>
      (((d.detach replacement).modifyChildren parent (splice target [replacement])).setParent
        target none).setParent replacement (some parent)

/-- Put several nodes, in order, where another is, which is left without a
parent.  Nothing happens if the other has no parent; nothing but the detaching
happens if the other is not among the children of its parent. -/
def replaceWithMany (d : Document) (target : NodeId) (replacements : List NodeId) : Document :=
  match d.parent? target with
  | none => d
  | some parent =>
      let d := replacements.foldl detach d
      if target ∈ d.children parent then
        let d := (d.modifyChildren parent (splice target replacements)).setParent target none
        replacements.foldl (fun d r => d.setParent r (some parent)) d
      else d

end Document

end RouteCompiler.Route
