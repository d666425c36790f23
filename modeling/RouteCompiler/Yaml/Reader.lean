import RouteCompiler.Datum.Codec
import RouteCompiler.Yaml.Node

/-!
# Reading YAML

The nodes of a text become data.  An unquoted scalar is kept as it is written;
what it means depends on what is expected.  Nothing at all is an empty unquoted
scalar.

A reference stands for the last node of its number, wherever it stands, so a
node may be meant within itself.  Such nodes are unfolded as often as data are
read from within each other.
-/

namespace RouteCompiler.Yaml

namespace Node

/-- What nothing can be read from. -/
def unreadable : Datum :=
  .record [(none, .null)]

/-- The datum of a scalar.  Under the tag of integers, a block of lines is read
like an unquoted scalar. -/
def scalarDatum (style : Style) (tag : Option Tag) (text : String) : Datum :=
  match style, tag with
  | .plain, none => .plain text
  | .plain, some tag => .tagged (tag == Tag.null) text
  | .literal, some tag =>
      if tag = Tag.int ∧ !text.isEmpty then .tagged false text else .string (some text)
  | _, _ => .string (some text)

mutual

/-- The datum of a node, given those of numbered nodes. -/
def datum (targets : List (Nat × Datum)) : Node → Datum
  | .scalar style tag text => scalarDatum style tag text
  | .sequence items => .sequence (itemData targets items)
  | .mapping members => .record (memberData targets members)
  | .anchored _ node => node.datum targets
  | .reference n => (targets.lookup n).getD unreadable

/-- The data of items. -/
def itemData (targets : List (Nat × Datum)) : List Node → List Datum
  | [] => []
  | item :: items => item.datum targets :: itemData targets items

/-- The data of members.  A key that is no scalar is no name. -/
def memberData (targets : List (Nat × Datum)) :
    List (Node × Node) → List (Option String × Datum)
  | [] => []
  | (key, value) :: members =>
      ((key.datum targets).text?, value.datum targets) :: memberData targets members

end

mutual

/-- The numbered nodes within a node, in the order in which they begin. -/
def numbered : Node → List (Nat × Node)
  | .anchored n node => (n, node) :: node.numbered
  | .sequence items => itemsNumbered items
  | .mapping members => membersNumbered members
  | .scalar _ _ _ | .reference _ => []

/-- The numbered nodes within items. -/
def itemsNumbered : List Node → List (Nat × Node)
  | [] => []
  | item :: items => item.numbered ++ itemsNumbered items

/-- The numbered nodes within members. -/
def membersNumbered : List (Node × Node) → List (Nat × Node)
  | [] => []
  | (key, value) :: members => key.numbered ++ value.numbered ++ membersNumbered members

end

/-- The data of numbered nodes, with references unfolded a number of times. -/
def targets (nodes : List (Nat × Node)) : Nat → List (Nat × Datum)
  | 0 => []
  | rounds + 1 =>
      let earlier := targets nodes rounds
      nodes.map fun (n, node) => (n, node.datum earlier)

/-- How deeply data may be read from within each other. -/
def depthLimit : Nat :=
  128

/-- The datum of a document. -/
def toDatum (document : Node) : Datum :=
  document.datum (targets document.numbered.reverse depthLimit)

end Node

/-- Read a text that holds one document at most. -/
def parse (text : String) : Option Datum :=
  (Token.ofText? text).bind fun tokens => (Node.ofTokens? tokens).map Node.toDatum

end RouteCompiler.Yaml
