import RouteCompiler.Yaml.Place

/-!
# Scalars in the lines of YAML

A scalar in a line is plain, or in quotes of either kind, and may go on in
further lines.  There a single line break is read as a space, and of several
the first is dropped, unless it is a separator of its own.

A scalar is read in two steps: first its characters are divided into pieces,
which tell what was escaped from what may be folded, then the pieces are
folded.
-/

namespace RouteCompiler.Yaml

/-! ## Pieces -/

/-- A piece of a scalar. -/
inductive Piece where
  /-- A character that is kept. -/
  | char (c : Char)
  /-- A space or a tab, which is dropped next to a line break. -/
  | blank (c : Char)
  | lineBreak (c : Char)
  /-- An escaped line break, which joins two lines. -/
  | joint
  deriving DecidableEq, Repr

namespace Piece

/-- The piece of a character that is not escaped. -/
def ofChar (c : Char) : Piece :=
  if isBreak c then lineBreak c else if isSpace c then blank c else char c

/-- Whether a piece is dropped at the end of a plain scalar. -/
def isGap : Piece → Bool
  | blank _ | lineBreak _ => true
  | _ => false

/-- Whether a piece is a line break that is not escaped. -/
def isLineBreak : Piece → Bool
  | lineBreak _ => true
  | _ => false

/-- What is read for line breaks: a line feed in front of others is dropped, and
one that stands alone is read as a space. -/
def breaks (first : Option Char) (more : List Char) : List Char :=
  match first with
  | none => more
  | some '\n' => if more.isEmpty then [' '] else more
  | some c => c :: more

mutual

/-- Fold pieces behind some blanks, which are kept unless a line break
follows. -/
def fold (blanks : List Char) : List Piece → List Char
  | [] => blanks
  | char c :: rest => blanks ++ c :: fold [] rest
  | blank c :: rest => fold (blanks ++ [c]) rest
  | lineBreak c :: rest => foldBreaks (some c) [] rest
  | joint :: rest => blanks ++ foldBreaks none [] rest

/-- Fold pieces behind line breaks. -/
def foldBreaks (first : Option Char) (more : List Char) : List Piece → List Char
  | [] => breaks first more
  | char c :: rest => breaks first more ++ c :: fold [] rest
  | blank _ :: rest => foldBreaks first more rest
  | lineBreak c :: rest => foldBreaks first (more ++ [c]) rest
  | joint :: rest => breaks first more ++ foldBreaks none [] rest

end

end Piece

/-- A scalar with what follows it. -/
structure Scalar where
  pieces : List Piece
  behind : Cursor

namespace Scalar

/-- A scalar without any piece. -/
def empty (behind : Cursor) : Scalar :=
  ⟨[], behind⟩

/-- Put a piece in front. -/
def cons (piece : Piece) (s : Scalar) : Scalar :=
  { s with pieces := piece :: s.pieces }

/-- The text of a scalar. -/
def text (s : Scalar) : String :=
  String.ofList (Piece.fold [] s.pieces)

/-- What separates a plain scalar from what follows. -/
def gap (s : Scalar) : List Piece :=
  s.pieces.reverse.takeWhile Piece.isGap

/-- Drop what separates a plain scalar from what follows. -/
def dropGap (s : Scalar) : Scalar :=
  { s with pieces := (s.pieces.reverse.dropWhile Piece.isGap).reverse }

end Scalar

/-! ## Quoted scalars -/

/-- Read a scalar in single quotes, from behind the opening quote.  No document
may begin or end within. -/
def readSingleQuoted (p : Place) : List Char → Option Scalar
  | [] => none
  | '\'' :: '\'' :: rest => (readSingleQuoted (p.right 2) rest).map (.cons (.char '\''))
  | '\'' :: rest => some (.empty ⟨p.right 1, rest⟩)
  | c :: rest =>
      if p.column = 0 ∧ isDocumentMark (c :: rest) then none
      else (readSingleQuoted (p.after c) rest).map (.cons (.ofChar c))

/-- The character that an escape letter stands for. -/
def escaped? : Char → Option Char
  | '0' => some '\x00'
  | 'a' => some '\x07'
  | 'b' => some '\x08'
  | 't' => some '\t'
  | '\t' => some '\t'
  | 'n' => some '\n'
  | 'v' => some '\x0b'
  | 'f' => some '\x0c'
  | 'r' => some '\r'
  | 'e' => some '\x1b'
  | ' ' => some ' '
  | '"' => some '"'
  | '/' => some '/'
  | '\\' => some '\\'
  | 'N' => some '\u0085'
  | '_' => some '\u00a0'
  | 'L' => some '\u2028'
  | 'P' => some '\u2029'
  | _ => none

/-- The character whose number hexadecimal digits spell. -/
def hexChar? (digits : List Char) : Option Char :=
  (digits.mapM hexValue?).bind fun values =>
    let n := values.foldl (fun n v => n * 16 + v) 0
    if n.isValidChar then some (Char.ofNat n) else none

/-- Read a scalar in double quotes, from behind the opening quote.  No document
may begin or end within. -/
def readDoubleQuoted (p : Place) : List Char → Option Scalar
  | [] => none
  | '"' :: rest => some (.empty ⟨p.right 1, rest⟩)
  | '\\' :: 'x' :: a :: b :: rest =>
      match hexChar? [a, b] with
      | none => none
      | some c => (readDoubleQuoted (p.right 4) rest).map (.cons (.char c))
  | '\\' :: 'u' :: a :: b :: c :: d :: rest =>
      match hexChar? [a, b, c, d] with
      | none => none
      | some c => (readDoubleQuoted (p.right 6) rest).map (.cons (.char c))
  | '\\' :: 'U' :: a :: b :: c :: d :: e :: f :: g :: h :: rest =>
      match hexChar? [a, b, c, d, e, f, g, h] with
      | none => none
      | some c => (readDoubleQuoted (p.right 10) rest).map (.cons (.char c))
  | '\\' :: letter :: rest =>
      if isBreak letter then
        (readDoubleQuoted (p.after letter) rest).map (.cons .joint)
      else
        match escaped? letter with
        | none => none
        | some c => (readDoubleQuoted (p.right 2) rest).map (.cons (.char c))
  | c :: rest =>
      if p.column = 0 ∧ isDocumentMark (c :: rest) then none
      else (readDoubleQuoted (p.after c) rest).map (.cons (.ofChar c))

/-! ## Plain scalars -/

/-- Whether a plain scalar may begin here. -/
def beginsPlain (inFlow : Bool) : List Char → Bool
  | [] => false
  | '-' :: rest => !isGapAhead rest
  | '?' :: rest | ':' :: rest => !inFlow && !isGapAhead rest
  | c :: _ => !isSpace c && !isBreak c && !isIndicator c

/-- Whether a plain scalar ends in front of a character. -/
def endsPlain (inFlow : Bool) (c : Char) (rest : List Char) : Bool :=
  (c == ':' && isGapAhead rest) || (inFlow && isFlowMark c)

/-- Whether a colon is misplaced in a plain scalar between brackets. -/
def isMisplacedColon (inFlow : Bool) (c : Char) (rest : List Char) : Bool :=
  inFlow && c == ':' && rest.head?.any fun next => isFlowMark next || next == '?'

mutual

/-- Read a plain scalar, from behind a character of it.  Outside of brackets,
lines that begin left of `floor` do not belong to it. -/
def readPlainWord (inFlow : Bool) (floor : Nat) (p : Place) : List Char → Option Scalar
  | [] => some (.empty ⟨p, []⟩)
  | c :: rest =>
      if isBreak c || isSpace c then
        (readPlainGap inFlow floor (isBreak c) (p.after c) rest).map (.cons (.ofChar c))
      else if isMisplacedColon inFlow c rest then none
      else if endsPlain inFlow c rest then some (.empty ⟨p, c :: rest⟩)
      else (readPlainWord inFlow floor (p.after c) rest).map (.cons (.char c))

/-- Read a plain scalar, from within a gap.  A tab may not stand left of `floor`
in a new line. -/
def readPlainGap (inFlow : Bool) (floor : Nat) (isNewLine : Bool) (p : Place) :
    List Char → Option Scalar
  | [] => some (.empty ⟨p, []⟩)
  | c :: rest =>
      if isBreak c then
        (readPlainGap inFlow floor true (p.after c) rest).map (.cons (.ofChar c))
      else if isSpace c then
        if c = '\t' ∧ isNewLine ∧ p.column < floor then none
        else (readPlainGap inFlow floor isNewLine (p.after c) rest).map (.cons (.ofChar c))
      else if c = '#' ∨ (!inFlow ∧ p.column < floor) ∨
          (p.column = 0 ∧ isDocumentMark (c :: rest)) then
        some (.empty ⟨p, c :: rest⟩)
      else if isMisplacedColon inFlow c rest then none
      else if endsPlain inFlow c rest then some (.empty ⟨p, c :: rest⟩)
      else (readPlainWord inFlow floor (p.after c) rest).map (.cons (.char c))

end

end RouteCompiler.Yaml
