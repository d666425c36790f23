import RouteCompiler.Text.Slice
import RouteCompiler.Yaml.Place

/-!
# Scalars in blocks of lines

A scalar may be a block of lines that are indented alike.  In front of it stands
how its line breaks are read: as they are, or folded as in other scalars, and
which of those at its end are kept.
-/

namespace RouteCompiler.Yaml

open RouteCompiler.Text

/-! ## What stands in front -/

/-- What becomes of the line breaks at the end of a block. -/
inductive Chomping where
  /-- All are dropped. -/
  | strip
  /-- The one behind the last line is kept. -/
  | clip
  /-- All are kept. -/
  | keep
  deriving DecidableEq, Repr

/-- What is said in front of a block. -/
structure BlockHeader where
  chomping : Chomping
  /-- How much further than its surroundings the block is indented, if that is
  said. -/
  indent : Option Nat

/-- What is said of line breaks at the end, if anything is. -/
def readChomping : List Char → Option Chomping × List Char
  | '+' :: rest => (some .keep, rest)
  | '-' :: rest => (some .strip, rest)
  | cs => (none, cs)

/-- What is said of the indentation, if anything is. -/
def readIndent : List Char → Option Nat × List Char
  | c :: rest => if '1' ≤ c ∧ c ≤ '9' then (some (c.toNat - 48), rest) else (none, c :: rest)
  | [] => (none, [])

/-- Read what is said in front of a block, and go to the next line.  Line breaks
and indentation are spoken of in either order, at most once each. -/
def readBlockHeader (c : Cursor) : Option (BlockHeader × Cursor) :=
  let (chomping, rest) := readChomping c.rest
  let (indent, rest) := readIndent rest
  let (chomping, rest) := if chomping.isNone then readChomping rest else (chomping, rest)
  (c.skipTo rest).lineEnd?.map fun c => (⟨chomping.getD .clip, indent⟩, c.step)

/-! ## Indentation -/

/-- The indentation of a block that begins with these lines: that of the first
line that holds more than spaces, or of a longer empty line before it, but not
less than `floor`.  That line may not be indented by tabs. -/
def blockIndent? (floor column longest : Nat) : List Char → Option Nat
  | [] => some (max floor (max longest column))
  | c :: rest =>
      if c = ' ' then blockIndent? floor (column + 1) longest rest
      else if isBreak c then blockIndent? floor 0 (max longest column) rest
      else if c = '\t' then none
      else some (max floor (max longest column))

/-- The lines of a block, without their indentation, and what follows. -/
structure Block where
  body : List Char
  behind : Cursor

/-- Put a character in front. -/
def Block.cons (c : Char) (b : Block) : Block :=
  { b with body := c :: b.body }

mutual

/-- Read a block from within a line of it. -/
def readBlockLine (indent : Nat) (p : Place) : List Char → Option Block
  | [] => some ⟨[], ⟨p, []⟩⟩
  | c :: rest =>
      if isBreak c then (readBlockIndent indent (p.after c) rest).map (.cons c)
      else (readBlockLine indent (p.after c) rest).map (.cons c)

/-- Read a block from where a line is indented.  No tab may stand there. -/
def readBlockIndent (indent : Nat) (p : Place) : List Char → Option Block
  | [] => some ⟨[], ⟨p, []⟩⟩
  | c :: rest =>
      if c = ' ' ∧ p.column < indent then readBlockIndent indent (p.after c) rest
      else if c = '\t' ∧ p.column < indent then none
      else if isBreak c then (readBlockIndent indent (p.after c) rest).map (.cons c)
      else if p.column = indent then (readBlockLine indent (p.after c) rest).map (.cons c)
      else some ⟨[], ⟨p, c :: rest⟩⟩

end

/-! ## Text -/

/-- A text with the line breaks at its end that are kept. -/
def chomp (chomping : Chomping) (cs : List Char) : List Char :=
  let content := dropEndWhile isBreak cs
  let ending := cs.drop content.length
  match chomping with
  | .strip => content
  | .clip => content ++ (if content.isEmpty then [] else ending.take 1)
  | .keep => cs

/-- The line breaks between two lines, of which `first` ends the one before.
Between lines of which neither is laid out by itself, a line feed in front of
others is dropped, and one that stands alone is read as a space. -/
def foldedBreaks (isLaidOut : Bool) (first : Char) (more : List Char) : List Char :=
  if first = '\n' ∧ !isLaidOut then if more.isEmpty then [' '] else more
  else first :: more

mutual

/-- Fold lines, from within one of which it is known whether it is laid out by
itself: it begins with a blank. -/
def foldLine (isLaidOut : Bool) : List Char → List Char
  | [] => []
  | c :: rest => if isBreak c then foldGap isLaidOut c [] rest else c :: foldLine isLaidOut rest

/-- Fold lines, from behind line breaks. -/
def foldGap (isLaidOut : Bool) (first : Char) (more : List Char) : List Char → List Char
  | [] => first :: more
  | c :: rest =>
      if isBreak c then foldGap isLaidOut first (more ++ [c]) rest
      else foldedBreaks (isLaidOut || isSpace c) first more ++ c :: foldLine (isSpace c) rest

end

/-- Fold the lines of a block.  The line breaks in front of all lines are
kept. -/
def foldBlock (cs : List Char) : List Char :=
  let lines := cs.dropWhile isBreak
  cs.takeWhile isBreak ++ foldLine (lines.head?.any isSpace) lines

/-- Read a block of lines whose surroundings are indented less than `floor`, from
behind the mark that tells whether it is folded. -/
def readBlock (isFolded : Bool) (floor : Nat) (c : Cursor) : Option (String × Cursor) := do
  let (header, c) ← readBlockHeader c
  let indent ← match header.indent with
    | some more => some (floor - 1 + more)
    | none => blockIndent? (max floor 1) 0 0 c.rest
  let block ← readBlockIndent indent c.place c.rest
  let body := if isFolded then foldBlock block.body else block.body
  return (String.ofList (chomp header.chomping body), block.behind)

end RouteCompiler.Yaml
