import RouteCompiler.Route.Attribute

/-!
# Route trees

A route tree is an element or a piece of text together with its children, free
of any arena.  This module holds the tree and its one written form: no
declaration, two blanks of indentation per level, an element that holds only
text on one line, an empty element self-closed, attributes in order.
-/

namespace RouteCompiler.Route

/-- What a node holds. -/
inductive Content where
  /-- An element with its ordered attributes. -/
  | element (name : String) (attributes : List Attribute)
  /-- Character data, without entities. -/
  | text (value : String)
  deriving DecidableEq, Repr

namespace Content

/-- The name of an element; a text has none. -/
def name? : Content → Option String
  | element name _ => some name
  | text _ => none

/-- Whether this is an element. -/
def isElement (content : Content) : Bool :=
  content.name?.isSome

/-- The value of an attribute; a text has none. -/
def attribute? (key : String) : Content → Option String
  | element _ attributes => Attribute.find? key attributes
  | text _ => none

/-- Give an attribute a value; a text stays as it is. -/
def setAttribute (key value : String) : Content → Content
  | element name attributes => element name (Attribute.set key value attributes)
  | text value => text value

@[simp] theorem name_setAttribute (key value : String) (content : Content) :
    (content.setAttribute key value).name? = content.name? := by
  cases content <;> rfl

end Content

/-- A node with everything below it. -/
inductive Tree where
  | node (content : Content) (children : List Tree)

namespace Tree

/-- What the top node holds. -/
def content : Tree → Content
  | node content _ => content

/-- The trees directly below the top node. -/
def children : Tree → List Tree
  | node _ children => children

/-- An element with children. -/
def element (name : String) (attributes : List Attribute) (children : List Tree) : Tree :=
  node (.element name attributes) children

/-- A piece of text. -/
def text (value : String) : Tree :=
  node (.text value) []

/-! ## The written form -/

/-- The blanks in front of a line. -/
def indentation (depth : Nat) : List Char :=
  List.replicate (2 * depth) ' '

/-- An attribute as written: in double quotes, with a blank in front. -/
def renderAttribute (a : Attribute) : List Char :=
  ' ' :: a.key.toList ++ '=' :: '"' :: Entity.escape a.value.toList ++ ['"']

/-- A text node on a line among elements, or nothing for an element. -/
def renderInline : Content → List Char
  | .text value => Entity.escape value.toList
  | .element _ _ => []

mutual

/-- The lines of a tree whose top stands at a depth. -/
def render (depth : Nat) : Tree → List Char
  | node (.text value) _ =>
      indentation depth ++ Entity.escape value.toList ++ ['\n']
  | node (.element name attributes) children =>
      let opening :=
        indentation depth ++ '<' :: name.toList ++ attributes.flatMap renderAttribute
      if children.isEmpty then opening ++ "/>\n".toList
      else if children.all fun child => !child.content.isElement then
        opening ++ '>' :: (children.flatMap fun child => renderInline child.content) ++
          "</".toList ++ name.toList ++ ">\n".toList
      else
        opening ++ ">\n".toList ++ renderAll (depth + 1) children ++
          indentation depth ++ "</".toList ++ name.toList ++ ">\n".toList

/-- The lines of several trees at one depth. -/
def renderAll (depth : Nat) : List Tree → List Char
  | [] => []
  | tree :: trees => render depth tree ++ renderAll depth trees

end

/-- The written form of a whole tree. -/
def toText (tree : Tree) : String :=
  String.ofList (render 0 tree)

end Tree

end RouteCompiler.Route
