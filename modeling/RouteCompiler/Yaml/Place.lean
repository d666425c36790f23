/-!
# Characters and places in YAML

A text in YAML is read line by line, and where a token begins in its line
matters.  This module supplies the classes of characters, places, and cursors,
which are places with what is left to read.

Every kind of line break is one character here: carriage returns and next-line
characters are written as line feeds before reading begins.

Main results:

- Lemma `Cursor.length_step_lt`: a step leaves less to read.
-/

namespace RouteCompiler.Yaml

/-! ## Characters -/

/-- The characters that may stand in a text. -/
def isAllowed (c : Char) : Bool :=
  let n := c.toNat
  n == 0x09 || n == 0x0A || n == 0x0D || (0x20 ≤ n && n ≤ 0x7E) || n == 0x85 ||
    (0xA0 ≤ n && n ≤ 0xFFFD) || 0x10000 ≤ n

/-- A space or a tab. -/
def isSpace (c : Char) : Bool :=
  c == ' ' || c == '\t'

/-- A line feed, or the separator of lines or of paragraphs. -/
def isBreak (c : Char) : Bool :=
  c == '\n' || c == '\u2028' || c == '\u2029'

/-- The text with one character for every line break. -/
def uniformBreaks : List Char → List Char
  | '\r' :: '\n' :: rest => '\n' :: uniformBreaks rest
  | '\r' :: rest => '\n' :: uniformBreaks rest
  | '\u0085' :: rest => '\n' :: uniformBreaks rest
  | c :: rest => c :: uniformBreaks rest
  | [] => []

/-- Whether a blank, a line break or the end comes next. -/
def isGapAhead : List Char → Bool
  | [] => true
  | c :: _ => isSpace c || isBreak c

/-- Whether a line that begins here begins a document or ends one. -/
def isDocumentMark : List Char → Bool
  | '-' :: '-' :: '-' :: rest => isGapAhead rest
  | '.' :: '.' :: '.' :: rest => isGapAhead rest
  | _ => false

/-- The characters of names: ASCII letters and digits, hyphens and low lines. -/
def isWordChar (c : Char) : Bool :=
  c.isAlphanum || c == '-' || c == '_'

/-- The characters that structure a collection in brackets. -/
def isFlowMark (c : Char) : Bool :=
  c == ',' || c == '[' || c == ']' || c == '{' || c == '}'

/-- The characters that no plain scalar begins with, two exceptions apart. -/
def isIndicator (c : Char) : Bool :=
  ['-', '?', ':', ',', '[', ']', '{', '}', '#', '&', '*', '!', '|', '>', '\'', '"', '%', '@',
    Char.ofNat 96].contains c

/-- The value of a hexadecimal digit. -/
def hexValue? (c : Char) : Option Nat :=
  if '0' ≤ c ∧ c ≤ '9' then some (c.toNat - 48)
  else if 'a' ≤ c ∧ c ≤ 'f' then some (c.toNat - 87)
  else if 'A' ≤ c ∧ c ≤ 'F' then some (c.toNat - 55)
  else none

/-! ## Places -/

/-- A place in a text: the number of lines before it, and what stands before it
in its line, in characters and in octets. -/
structure Place where
  line : Nat
  column : Nat
  octets : Nat

namespace Place

/-- The place behind a character. -/
def after (p : Place) (c : Char) : Place :=
  if isBreak c then ⟨p.line + 1, 0, 0⟩
  else ⟨p.line, p.column + 1, p.octets + c.utf8Size⟩

/-- The place further right in the same line, behind ASCII characters. -/
def right (p : Place) (n : Nat) : Place :=
  { p with column := p.column + n, octets := p.octets + n }

end Place

/-- A place with what is left to read from there. -/
structure Cursor where
  place : Place
  rest : List Char

namespace Cursor

/-- The beginning of a text. -/
def start (cs : List Char) : Cursor :=
  ⟨⟨0, 0, 0⟩, cs⟩

/-- Where the cursor is in its line. -/
def column (c : Cursor) : Nat :=
  c.place.column

/-- Go on by one character. -/
def step (c : Cursor) : Cursor :=
  match c.rest with
  | [] => c
  | next :: rest => ⟨c.place.after next, rest⟩

/-- Go on over ASCII characters of the same line. -/
def skip (c : Cursor) (n : Nat) : Cursor :=
  ⟨c.place.right n, c.rest.drop n⟩

/-- Go on to what is left in the same line, behind ASCII characters. -/
def skipTo (c : Cursor) (rest : List Char) : Cursor :=
  ⟨c.place.right (c.rest.length - rest.length), rest⟩

/-- Go on over characters of the same line. -/
def skipWhile (p : Char → Bool) (c : Cursor) : Cursor :=
  ⟨(c.rest.takeWhile p).foldl Place.after c.place, c.rest.dropWhile p⟩

/-- A step leaves less to read. -/
theorem length_step_lt {c : Cursor} (h : c.rest ≠ []) :
    c.step.rest.length < c.rest.length := by
  unfold step
  split
  · contradiction
  · simp [*]

end Cursor

/-! ## Ends of lines -/

/-- Go to the end of a line in which there is nothing more but a comment. -/
def Cursor.lineEnd? (c : Cursor) : Option Cursor :=
  let c := c.skipWhile isSpace
  let c := if c.rest.head? = some '#' then c.skipWhile fun next => !isBreak next else c
  if c.rest.head?.all isBreak then some c else none

end RouteCompiler.Yaml
