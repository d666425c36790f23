import RouteCompiler.Route.Document.Basic

/-!
# Walking through a document

Every walk goes from a node down along child lists.  No path of a document whose
links form a forest is longer than the number of its nodes, and that number
bounds every walk, so walks end in any document.

Main definitions:

- `Document.tree`: a node with everything below it, as a tree.
- `Document.descendants`: the elements below a node in document order.
- `Document.graft` and `Document.copyFrom`: adding copies of trees.
-/

namespace RouteCompiler.Route.Document

/-! ## Trees of a document -/

/-- A node with what lies below it, to a given depth. -/
def treeWithin (d : Document) : Nat → NodeId → Tree
  | 0, id => .node ((d.content? id).getD (.text "")) []
  | depth + 1, id =>
      .node ((d.content? id).getD (.text "")) ((d.children id).map (d.treeWithin depth))

/-- A node with everything below it. -/
def tree (d : Document) (id : NodeId) : Tree :=
  d.treeWithin d.size id

/-- The document as text, from its root. -/
def serialize (d : Document) : String :=
  (d.tree d.root).toText

/-! ## Document order -/

/-- How many nodes a walk from a node meets, to a given depth. -/
def weightWithin (d : Document) : Nat → NodeId → Nat
  | 0, _ => 1
  | depth + 1, id => 1 + ((d.children id).map (d.weightWithin depth)).sum

/-- Walk through pending nodes: an element is met before what lies below it, and
that before the nodes pending behind it.  Texts are passed over. -/
def walk (d : Document) : Nat → List NodeId → List NodeId
  | 0, _ => []
  | _, [] => []
  | steps + 1, id :: pending =>
      if d.isElement id then id :: d.walk steps (d.children id ++ pending)
      else d.walk steps pending

/-- Every element below a node, without the node, in document order. -/
def descendants (d : Document) (id : NodeId) : List NodeId :=
  d.walk (d.weightWithin d.size id) (d.children id)

/-- The first element of a name below a node. -/
def findDescendant? (d : Document) (id : NodeId) (name : String) : Option NodeId :=
  (d.descendants id).find? (d.isNamed name)

/-! ## Copies -/

mutual

/-- Add a detached copy of a tree; the address is that of its top. -/
def graft (d : Document) : Tree → Document × NodeId
  | .node content children =>
      let made := d.push content
      (made.1.graftAll made.2 children, made.2)

/-- Add copies of trees as the last children of a node. -/
def graftAll (d : Document) (parent : NodeId) : List Tree → Document
  | [] => d
  | tree :: trees =>
      let made := d.graft tree
      (made.1.link parent made.2).graftAll parent trees

end

/-- Add a detached copy of a node of another document, with everything below
it. -/
def copyFrom (d other : Document) (id : NodeId) : Document × NodeId :=
  d.graft (other.tree id)

end RouteCompiler.Route.Document
