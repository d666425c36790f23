import RouteCompiler.Yaml.Block
import RouteCompiler.Yaml.Scalar
import RouteCompiler.Yaml.Tag

/-!
# Tokens of YAML

A text is divided into tokens before its structure is read.  Indentation is
turned into tokens here: a collection begins where a line is indented further
than the collection around it, and ends in front of a line that is indented
less.

What stands in front of a colon is a key, which is known only at the colon.  So
the tokens read so far are a draft, in which the last token of a line, or the
last collection in brackets, may still turn out to be a key.

Main definitions:

- `Token`: what a text consists of.
- `Draft`: tokens read so far, with what reading goes on from.
- `Token.ofText?`: the tokens of a text.
-/

namespace RouteCompiler.Yaml

/-- How a scalar is written. -/
inductive Style where
  | plain
  | quoted
  | literal
  | folded
  deriving DecidableEq, Repr

/-- What a text consists of.  Anchors are numbered, and a reference has the
number of the anchor it means. -/
inductive Token where
  | directive (d : Directive)
  | documentStart
  | documentEnd
  /-- A collection by indentation begins. -/
  | sequenceStart
  | mappingStart
  /-- A collection by indentation ends. -/
  | blockEnd
  /-- A collection in brackets begins or ends. -/
  | listStart
  | listEnd
  | recordStart
  | recordEnd
  /-- An item by indentation begins. -/
  | entry
  /-- The comma between brackets. -/
  | separator
  | key
  | value
  | reference (anchor : Nat)
  | anchor (number : Nat)
  | tag (t : WrittenTag)
  | scalar (style : Style) (text : String)
  deriving DecidableEq, Repr

/-- A token, or a collection in brackets, that may turn out to be a key. -/
structure Key where
  /-- The number of tokens in front of it. -/
  number : Nat
  place : Place
  /-- Whether it must be one: it begins where the members of the collection
  around it begin. -/
  isRequired : Bool

/-- Whether it is too late for a key at a place: it has to end in the line in
which it begins, and within 1024 octets. -/
def Key.isLate (k : Key) (p : Place) : Bool :=
  k.place.line < p.line || k.place.octets + 1024 < p.octets

/-- Tokens read so far, with what reading goes on from. -/
structure Draft where
  cursor : Cursor
  tokens : Array Token
  /-- Where the open collections by indentation begin in their lines, the
  innermost first. -/
  columns : List Nat
  /-- What may turn out to be a key. -/
  candidate : Option Key
  /-- The same for what stands outside of each open bracket, the innermost
  first. -/
  outer : List (Option Key)
  /-- Whether a key may begin here. -/
  allowsKey : Bool
  /-- The names of anchors, each with its number. -/
  anchors : List (String × Nat)

namespace Draft

/-- The draft of a text of which nothing is read. -/
def start (cs : List Char) : Draft :=
  ⟨.start cs, #[], [], none, [], true, []⟩

/-- Whether reading goes on between brackets. -/
def inFlow (d : Draft) : Bool :=
  !d.outer.isEmpty

/-- Where the next token begins in its line. -/
def column (d : Draft) : Nat :=
  d.cursor.column

/-- Left of this column, a line does not belong to the innermost collection by
indentation. -/
def floor (d : Draft) : Nat :=
  match d.columns with
  | [] => 0
  | column :: _ => column + 1

/-! ### Tokens -/

/-- Put a token at the end. -/
def push (d : Draft) (t : Token) : Draft :=
  { d with tokens := d.tokens.push t }

/-- Put a token behind a number of others. -/
def insert (d : Draft) (number : Nat) (t : Token) : Draft :=
  { d with tokens := d.tokens.insertIdxIfInBounds number t }

/-- Put a token at the end, which is written by a number of characters. -/
def pushOver (d : Draft) (n : Nat) (t : Token) : Draft :=
  { d.push t with cursor := d.cursor.skip n }

/-- Put a token at the end, behind which reading goes on at a cursor. -/
def pushTo (d : Draft) (c : Cursor) (t : Token) : Draft :=
  { d.push t with cursor := c }

/-! ### Keys -/

/-- Say whether a key may begin here. -/
def allowKey (d : Draft) (isAllowed : Bool) : Draft :=
  { d with allowsKey := isAllowed }

/-- Whatever may turn out to be a key is none, unless it must be one. -/
def dropCandidate? (d : Draft) : Option Draft :=
  if d.candidate.any Key.isRequired then none else some { d with candidate := none }

/-- The next token may turn out to be a key, if one may begin here. -/
def markCandidate? (d : Draft) : Option Draft :=
  if !d.allowsKey then some d
  else
    d.dropCandidate?.map fun d =>
      let isRequired := !d.inFlow && d.columns.head? == some d.column
      { d with candidate := some ⟨d.tokens.size, d.cursor.place, isRequired⟩ }

/-- Drop what can no longer be a key, unless it must be one. -/
def dropLate? (d : Draft) : Option Draft :=
  let isLate (k : Key) : Bool := k.isLate d.cursor.place
  if (d.candidate :: d.outer).any fun k => k.any fun k => isLate k && k.isRequired then none
  else
    let keep (k : Option Key) : Option Key := k.filter fun k => !isLate k
    some { d with candidate := keep d.candidate, outer := d.outer.map keep }

/-! ### Indentation -/

/-- Open a collection by indentation at a column, behind a number of tokens,
unless one is open there. -/
def openBlock (d : Draft) (column number : Nat) (t : Token) : Draft :=
  if d.inFlow || column < d.floor then d
  else { d.insert number t with columns := column :: d.columns }

/-- Open a collection by indentation where the next token begins. -/
def openBlockHere? (d : Draft) (t : Token) : Option Draft :=
  if d.inFlow then some d
  else if d.allowsKey then some (d.openBlock d.column d.tokens.size t)
  else none

/-- Close the innermost collections by indentation as long as the test holds of
their columns. -/
def closeBlocks (d : Draft) (p : Nat → Bool) : Draft :=
  if d.inFlow then d
  else
    let closed := d.columns.takeWhile p
    { d with
      tokens := d.tokens ++ Array.replicate closed.length .blockEnd
      columns := d.columns.drop closed.length }

/-! ### Between tokens -/

/-- What is found between tokens: where the next one begins, and whether it may
be a key. -/
structure Gap where
  behind : Cursor
  allowsKey : Bool

/-- Go over blanks, line breaks and comments.  A tab may not stand where a key
may begin, and a byte order mark only at the beginning of a line. -/
def skipGap (inFlow inComment allowsKey : Bool) (p : Place) : List Char → Gap
  | [] => ⟨⟨p, []⟩, allowsKey⟩
  | c :: rest =>
      if isBreak c then skipGap inFlow false (allowsKey || !inFlow) (p.after c) rest
      else if inComment || c == ' ' || (c == '\t' && (inFlow || !allowsKey)) ||
          (c == '\uFEFF' && p.column == 0) then
        skipGap inFlow inComment allowsKey (p.after c) rest
      else if c = '#' then skipGap inFlow true allowsKey (p.after c) rest
      else ⟨⟨p, c :: rest⟩, allowsKey⟩

/-- Go to the next token, in front of which keys become late and collections by
indentation end. -/
def toToken? (d : Draft) : Option Draft :=
  let gap := skipGap d.inFlow false d.allowsKey d.cursor.place d.cursor.rest
  let d : Draft := { d with cursor := gap.behind, allowsKey := gap.allowsKey }
  d.dropLate?.map fun d => d.closeBlocks fun column => d.column < column

/-- Close everything, in front of what does not belong to the document. -/
def close? (d : Draft) : Option Draft :=
  (d.closeBlocks fun _ => true).dropCandidate?.map (·.allowKey false)

/-! ### Structure -/

/-- Read a directive. -/
def readDirective? (d : Draft) : Option Draft := do
  let d ← d.close?
  let (directive, c) ← readDirective d.cursor
  return d.pushTo c (.directive directive)

/-- Read an opening bracket. -/
def openFlow? (d : Draft) (t : Token) : Option Draft :=
  d.markCandidate?.map fun d =>
    { d.pushOver 1 t with
      candidate := none, outer := d.candidate :: d.outer, allowsKey := true }

/-- Read a closing bracket.  The collection may turn out to be a key. -/
def closeFlow? (d : Draft) (t : Token) : Option Draft :=
  d.dropCandidate?.map fun d =>
    let d := match d.outer with
      | [] => d
      | candidate :: outer => { d with candidate := candidate, outer := outer }
    (d.pushOver 1 t).allowKey false

/-- Read a comma. -/
def readSeparator? (d : Draft) : Option Draft :=
  d.dropCandidate?.map fun d => (d.pushOver 1 .separator).allowKey true

/-- Read the hyphen of an item. -/
def readEntry? (d : Draft) : Option Draft := do
  let d ← d.openBlockHere? .sequenceStart
  let d ← d.dropCandidate?
  return (d.pushOver 1 .entry).allowKey true

/-- Read the question mark of a key. -/
def readKey? (d : Draft) : Option Draft := do
  let d ← d.openBlockHere? .mappingStart
  let d ← d.dropCandidate?
  return (d.pushOver 1 .key).allowKey (!d.inFlow)

/-- Read the colon of a value.  What may be a key is one, and may be the first of
a collection by indentation. -/
def readValue? (d : Draft) : Option Draft :=
  match d.candidate with
  | some key =>
      let d := (d.insert key.number .key).openBlock key.place.column key.number .mappingStart
      some (({ d with candidate := none }.pushOver 1 .value).allowKey false)
  | none =>
      (d.openBlockHere? .mappingStart).map fun d =>
        (d.pushOver 1 .value).allowKey (!d.inFlow)

/-! ### Nodes -/

/-- Read the name of an anchor, behind its mark. -/
def readAnchorName? (d : Draft) : Option (String × Cursor) :=
  let name := (d.cursor.rest.drop 1).takeWhile isWordChar
  let c := d.cursor.skip (1 + name.length)
  let isEnded := isGapAhead c.rest ||
    c.rest.head?.any fun next => ['?', ':', ',', ']', '}', '%', '@', Char.ofNat 96].contains next
  if name.isEmpty || !isEnded then none else some (String.ofList name, c)

/-- Read a reference to an anchor that stands before it. -/
def readReference? (d : Draft) : Option Draft := do
  let d ← d.markCandidate?
  let (name, c) ← d.readAnchorName?
  let number ← d.anchors.lookup name
  return (d.pushTo c (.reference number)).allowKey false

/-- Read an anchor.  It is numbered by the count of different names before
it. -/
def readAnchor? (d : Draft) : Option Draft := do
  let d ← d.markCandidate?
  let (name, c) ← d.readAnchorName?
  let number := d.anchors.length
  let anchors := (name, number) :: d.anchors.filter fun anchor => anchor.1 != name
  return { (d.pushTo c (.anchor number)).allowKey false with anchors := anchors }

/-- Read a tag. -/
def readTag? (d : Draft) : Option Draft := do
  let d ← d.markCandidate?
  let (tag, c) ← readTag d.inFlow d.cursor
  return (d.pushTo c (.tag tag)).allowKey false

/-- Read a block of lines. -/
def readBlock? (d : Draft) (style : Style) : Option Draft := do
  let d ← d.dropCandidate?
  let (text, c) ← readBlock (style == .folded) d.floor (d.cursor.skip 1)
  return (d.pushTo c (.scalar style text)).allowKey true

/-- Read a quoted scalar by one of the two readers. -/
def readQuoted? (d : Draft) (read : Place → List Char → Option Scalar) : Option Draft := do
  let d ← d.markCandidate?
  let scalar ← read (d.cursor.place.right 1) (d.cursor.rest.drop 1)
  return (d.pushTo scalar.behind (.scalar .quoted scalar.text)).allowKey false

/-- Read a plain scalar.  A key may follow if a line break does. -/
def readPlain? (d : Draft) : Option Draft := do
  let d ← d.markCandidate?
  if !beginsPlain d.inFlow d.cursor.rest then none
  else
    let scalar ← readPlainWord d.inFlow d.floor d.cursor.place d.cursor.rest
    let d := d.pushTo scalar.behind (.scalar .plain scalar.dropGap.text)
    return d.allowKey (scalar.gap.any Piece.isLineBreak)

/-! ### Texts -/

/-- Read the token that begins here. -/
def readToken? (d : Draft) : Option Draft :=
  let atLineStart := d.column == 0
  match d.cursor.rest with
  | [] => none
  | c :: rest =>
      if atLineStart && c == '%' then d.readDirective?
      else if atLineStart && isDocumentMark (c :: rest) then
        d.close?.map (·.pushOver 3 (if c = '-' then .documentStart else .documentEnd))
      else
        match c with
        | '[' => d.openFlow? .listStart
        | '{' => d.openFlow? .recordStart
        | ']' => d.closeFlow? .listEnd
        | '}' => d.closeFlow? .recordEnd
        | ',' => d.readSeparator?
        | '-' => if isGapAhead rest then d.readEntry? else d.readPlain?
        | '?' => if d.inFlow || isGapAhead rest then d.readKey? else d.readPlain?
        | ':' => if d.inFlow || isGapAhead rest then d.readValue? else d.readPlain?
        | '*' => d.readReference?
        | '&' => d.readAnchor?
        | '!' => d.readTag?
        | '|' => if d.inFlow then none else d.readBlock? .literal
        | '>' => if d.inFlow then none else d.readBlock? .folded
        | '\'' => d.readQuoted? readSingleQuoted
        | '"' => d.readQuoted? readDoubleQuoted
        | _ => d.readPlain?

/-- Read all tokens, at most as many as the first argument says. -/
def finish? : Nat → Draft → Option (Array Token)
  | 0, _ => none
  | steps + 1, d =>
      match d.toToken? with
      | none => none
      | some d =>
          if d.cursor.rest.isEmpty then d.close?.map Draft.tokens
          else d.readToken?.bind (finish? steps)

end Draft

/-- The tokens of a text. -/
def Token.ofText? (text : String) : Option (List Token) :=
  if text.toList.all isAllowed then
    let cs := uniformBreaks text.toList
    (Draft.finish? (cs.length + 1) (.start cs)).map Array.toList
  else none

end RouteCompiler.Yaml
