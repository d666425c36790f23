import RouteCompiler.Yaml.Place

/-!
# Tags and directives

A tag tells the type of what it stands in front of.  It is written in full
between angle brackets, or as a handle with a suffix; what a handle stands for
is told by directives in front of the document, or is known for the usual ones.
-/

namespace RouteCompiler.Yaml

/-! ## Tags -/

/-- A tag, as the octets of its name. -/
abbrev Tag := List Nat

namespace Tag

/-- The tag of a name in ASCII characters. -/
def ofName (name : String) : Tag :=
  name.toList.map Char.toNat

/-- The tag of what stands for nothing. -/
def null : Tag :=
  ofName "tag:yaml.org,2002:null"

/-- The tag of integers. -/
def int : Tag :=
  ofName "tag:yaml.org,2002:int"

/-- The tag that says nothing of the type. -/
def nonSpecific : Tag :=
  ofName "!"

end Tag

/-- A tag as it is written.  One that is written in full has an empty handle. -/
structure WrittenTag where
  handle : String
  suffix : Tag
  deriving DecidableEq, Repr

/-- What handles stand for, the first of a name counting. -/
abbrev Handles := List (String × Tag)

/-- What handles stand for where no directive says otherwise. -/
def usualHandles : Handles :=
  [("!", Tag.ofName "!"), ("!!", Tag.ofName "tag:yaml.org,2002:")]

/-- The tag that is meant by what is written, if its handle is known. -/
def WrittenTag.expand? (tag : WrittenTag) (handles : Handles) : Option Tag :=
  if tag.handle.isEmpty then some tag.suffix
  else (handles.lookup tag.handle).map (· ++ tag.suffix)

/-! ## Reading names -/

/-- Whether a character may stand in the name of a tag; there are more in a name
that is written in full. -/
def isTagChar (inFull : Bool) (c : Char) : Bool :=
  isWordChar c || ";/?:@&=+$.!~*'()".toList.contains c || (inFull && ",[]".toList.contains c)

/-- How many octets follow the first one of a character. -/
def octetsBehind? (octet : Nat) : Option Nat :=
  if octet < 0x80 then some 0
  else if 0xC0 ≤ octet ∧ octet < 0xE0 then some 1
  else if 0xE0 ≤ octet ∧ octet < 0xF0 then some 2
  else if 0xF0 ≤ octet ∧ octet < 0xF8 then some 3
  else none

/-- Read the octets of a name, of which `owed` belong to a character that has
begun.  An octet may be escaped by a percent sign and two digits. -/
def readOctets (inFull : Bool) (owed : Nat) : List Char → Option (List Nat × List Char)
  | '%' :: a :: b :: rest =>
      match hexValue? a, hexValue? b with
      | some high, some low =>
          let octet := high * 16 + low
          let owed? :=
            if owed = 0 then octetsBehind? octet
            else if 0x80 ≤ octet ∧ octet < 0xC0 then some (owed - 1)
            else none
          match owed? with
          | none => none
          | some owed =>
              (readOctets inFull owed rest).map fun (octets, rest) => (octet :: octets, rest)
      | _, _ => none
  | c :: rest =>
      if owed ≠ 0 then none
      else if isTagChar inFull c then
        (readOctets inFull 0 rest).map fun (octets, rest) => (c.toNat :: octets, rest)
      else some ([], c :: rest)
  | [] => if owed = 0 then some ([], []) else none

/-- What counts of the octets of a name: those in front of a zero. -/
def significant (octets : List Nat) : Tag :=
  octets.takeWhile (· != 0)

/-- Read a name that is not empty. -/
def readTagName (inFull : Bool) (cs : List Char) : Option (Tag × List Char) := do
  let (octets, rest) ← readOctets inFull 0 cs
  if octets.isEmpty then none else some (significant octets, rest)

/-- Read a tag, from behind its exclamation mark. -/
def readTagBody : List Char → Option (WrittenTag × List Char)
  | '<' :: rest => do
      let (name, rest) ← readTagName true rest
      match rest with
      | '>' :: rest => some (⟨"", name⟩, rest)
      | _ => none
  | cs =>
      match cs.dropWhile isWordChar with
      | '!' :: rest => do
          let (name, rest) ← readTagName false rest
          return (⟨String.ofList ('!' :: cs.takeWhile isWordChar ++ ['!']), name⟩, rest)
      | _ => do
          let (octets, rest) ← readOctets false 0 cs
          let name := significant octets
          return (if name.isEmpty then ⟨"", Tag.nonSpecific⟩ else ⟨"!", name⟩, rest)

/-- Read the tag that begins at a cursor. -/
def readTag (inFlow : Bool) (c : Cursor) : Option (WrittenTag × Cursor) := do
  let (tag, rest) ← readTagBody (c.rest.drop 1)
  if isGapAhead rest || (inFlow && rest.head? == some ',') then some (tag, c.skipTo rest)
  else none

/-! ## Directives -/

/-- A directive in front of a document. -/
inductive Directive where
  /-- The text is in a version that is known. -/
  | version
  | handle (name : String) (expansion : Tag)
  deriving DecidableEq, Repr

/-- Read a number of at most nine digits. -/
def readVersionNumber (cs : List Char) : Option (Nat × List Char) :=
  let digits := cs.takeWhile Char.isDigit
  if digits.isEmpty || 9 < digits.length then none
  else some (digits.foldl (fun n d => n * 10 + (d.toNat - 48)) 0, cs.drop digits.length)

/-- Read a version, which has to be 1.1 or 1.2. -/
def readVersion (cs : List Char) : Option (List Char) := do
  let (major, rest) ← readVersionNumber cs
  match rest with
  | '.' :: rest =>
      let (minor, rest) ← readVersionNumber rest
      if major = 1 ∧ (minor = 1 ∨ minor = 2) then some rest else none
  | _ => none

/-- Read a handle. -/
def readHandle : List Char → Option (String × List Char)
  | '!' :: rest =>
      let word := rest.takeWhile isWordChar
      match rest.dropWhile isWordChar with
      | '!' :: rest => some (String.ofList ('!' :: word ++ ['!']), rest)
      | rest => if word.isEmpty then some ("!", rest) else none
  | _ => none

/-- Read what a handle stands for, from in front of the handle. -/
def readHandleMeaning (cs : List Char) : Option (Directive × List Char) := do
  let (name, rest) ← readHandle cs
  if !rest.head?.any isSpace then none
  else
    let (expansion, rest) ← readTagName true (rest.dropWhile isSpace)
    if isGapAhead rest then some (.handle name expansion, rest) else none

/-- Read the directive whose percent sign is at a cursor, and go to the next
line. -/
def readDirective (c : Cursor) : Option (Directive × Cursor) := do
  let name := (c.rest.drop 1).takeWhile isWordChar
  let rest := c.rest.drop (1 + name.length)
  let text := rest.dropWhile isSpace
  let (directive, behind) ←
    if !isGapAhead rest then none
    else if name = "YAML".toList then (readVersion text).map fun rest => (.version, rest)
    else if name = "TAG".toList then readHandleMeaning text
    else none
  (c.skipTo behind).lineEnd?.map fun c => (directive, c.step)

end RouteCompiler.Yaml
