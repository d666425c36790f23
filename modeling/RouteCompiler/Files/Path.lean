import RouteCompiler.Text.Slice

/-!
# Paths

A path is a text of names with slashes between them.  Repeated slashes, slashes
at the end, and single dots that do not begin the path separate nothing; a
leading dot and every pair of dots are components of their own.
-/

namespace RouteCompiler.Path

open RouteCompiler.Text

/-- A component of a path. -/
inductive Component where
  /-- The slash that an absolute path begins with. -/
  | root
  /-- The dot that a relative path begins with. -/
  | current
  /-- Two dots. -/
  | parent
  /-- A name. -/
  | name (value : String)
  deriving DecidableEq, Repr

/-- What stands between the slashes of a path. -/
def pieces (path : String) : List (List Char) :=
  splitOn '/' path.toList

/-- Whether a piece separates nothing where it does not begin the path. -/
def isTrivial (piece : List Char) : Bool :=
  piece == [] || piece == ['.']

/-- Whether a path begins at the root. -/
def isAbsolute (path : String) : Bool :=
  path.toList.head? == some '/'

/-- The components of pieces that do not begin a path. -/
def innerComponents (pieces : List (List Char)) : List Component :=
  (pieces.filter fun piece => !isTrivial piece).map fun piece =>
    if piece = ['.', '.'] then .parent else .name (String.ofList piece)

/-- The components of a path. -/
def components (path : String) : List Component :=
  match pieces path with
  | [] => []
  | first :: rest =>
      if isAbsolute path then .root :: innerComponents rest
      else if first = ['.'] then .current :: innerComponents rest
      else innerComponents (first :: rest)

/-- Whether a component is a name. -/
def Component.isName : Component → Bool
  | name _ => true
  | _ => false

/-- Whether a text is a single name. -/
def isSingleName (path : String) : Bool :=
  match components path with
  | [.name _] => true
  | _ => false

/-- Whether a text is a path of names only. -/
def isRelative (path : String) : Bool :=
  !path.isEmpty && (components path).all Component.isName

/-! ## Joining and taking apart -/

/-- A path seen from another; an absolute path stands for itself. -/
def join (base path : String) : String :=
  if isAbsolute path then path
  else if base.isEmpty || base.toList.getLast? == some '/' then base ++ path
  else base ++ "/" ++ path

/-- Drop what separates nothing at the end of pieces of which the first begins a
relative path. -/
def dropTrivialEnd : List (List Char) → List (List Char)
  | [] => []
  | [piece] => if piece = [] then [] else [piece]
  | first :: second :: rest =>
      first :: ((second :: rest).reverse.dropWhile isTrivial).reverse

/-- Put slashes between pieces. -/
def joinPieces : List (List Char) → List Char
  | [] => []
  | [piece] => piece
  | piece :: rest => piece ++ '/' :: joinPieces rest

/-- The path without its last component; the root and the empty path have
none. -/
def parent? (path : String) : Option String :=
  if isAbsolute path then
    match ((pieces path).tail.reverse.dropWhile isTrivial) with
    | [] => none
    | _ :: before =>
        let kept := (before.dropWhile isTrivial).reverse
        let inside := if kept.all isTrivial then [] else joinPieces kept
        some (String.ofList ('/' :: inside))
  else
    match (dropTrivialEnd (pieces path)).reverse with
    | [] => none
    | _ :: before => some (String.ofList (joinPieces (dropTrivialEnd before.reverse)))

/-- The last component, if it is a name. -/
def fileName? (path : String) : Option String :=
  match (components path).getLast? with
  | some (.name value) => some value
  | _ => none

/-- The path with another name in place of its last one. -/
def withFileName (path name : String) : String :=
  match fileName? path with
  | some _ => join ((parent? path).getD "") name
  | none => join path name

/-- What follows the last dot of the last name, unless that dot begins it. -/
def extension? (path : String) : Option String :=
  (fileName? path).bind fun name =>
    let cs := name.toList
    let extension := (cs.reverse.takeWhile (· != '.')).reverse
    if cs.length ≤ extension.length + 1 then none else some (String.ofList extension)

/-- Whether the extension of a path is a word of small ASCII letters, in either
case of each letter. -/
def hasExtension (word path : String) : Bool :=
  (extension? path).any fun e => e.toList.map Char.toLower == word.toList

end RouteCompiler.Path
