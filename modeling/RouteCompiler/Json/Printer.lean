import RouteCompiler.Datum.Basic

/-!
# Writing JSON

A datum is written in one of two forms: compact, without any blank, or laid out
with one item per line and two blanks of indentation per level.  Only the
characters that must be escaped are.
-/

namespace RouteCompiler.Json

/-! ## Strings -/

/-- A hexadecimal digit in small letters. -/
def hexDigit (n : Nat) : Char :=
  if n < 10 then Char.ofNat (n + 48) else Char.ofNat (n + 87)

/-- The four-digit escape of a code unit. -/
def escapeUnit (n : Nat) : List Char :=
  ['\\', 'u', hexDigit (n / 4096 % 16), hexDigit (n / 256 % 16), hexDigit (n / 16 % 16),
    hexDigit (n % 16)]

/-- A character inside a quoted text. -/
def quoteChar (c : Char) : List Char :=
  match c with
  | '"' => ['\\', '"']
  | '\\' => ['\\', '\\']
  | '\n' => ['\\', 'n']
  | '\r' => ['\\', 'r']
  | '\t' => ['\\', 't']
  | '\x08' => ['\\', 'b']
  | '\x0c' => ['\\', 'f']
  | c => if c.toNat < 32 then escapeUnit c.toNat else [c]

/-- A quoted text. -/
def quote (cs : List Char) : List Char :=
  '"' :: (cs.flatMap quoteChar) ++ ['"']

/-- A text, or nothing between the quotes where there is none. -/
def quoteText (s : Option String) : List Char :=
  quote (s.getD "").toList

/-! ## Layout -/

/-- How items are laid out: on one line, or one per line at a depth. -/
inductive Layout where
  | compact
  | lines (depth : Nat)

namespace Layout

/-- The layout of what stands one level deeper. -/
def inner : Layout → Layout
  | compact => compact
  | lines depth => lines (depth + 1)

/-- What stands in front of an item, or of a closing bracket. -/
def newline : Layout → List Char
  | compact => []
  | lines depth => '\n' :: List.replicate (2 * depth) ' '

/-- What stands between the name of a member and its value. -/
def colon : Layout → List Char
  | compact => [':']
  | lines _ => [':', ' ']

end Layout

mutual

/-- A datum in a layout. -/
def render (layout : Layout) : Datum → List Char
  | .null => "null".toList
  | .bool true => "true".toList
  | .bool false => "false".toList
  | .number literal => literal.toList
  | .string value => quoteText value
  | .plain text | .tagged _ text => quote text.toList
  | .list items =>
      if items.isEmpty then "[]".toList
      else '[' :: renderItems layout.inner items ++ layout.newline ++ [']']
  | .sequence items =>
      if items.isEmpty then "[]".toList
      else '[' :: renderItems layout.inner items ++ layout.newline ++ [']']
  | .record members =>
      if members.isEmpty then "{}".toList
      else '{' :: renderMembers layout.inner members ++ layout.newline ++ ['}']

/-- Items with commas between them. -/
def renderItems (layout : Layout) : List Datum → List Char
  | [] => []
  | [item] => layout.newline ++ render layout item
  | item :: items =>
      layout.newline ++ render layout item ++ ',' :: renderItems layout items

/-- Members with commas between them. -/
def renderMembers (layout : Layout) : List (Option String × Datum) → List Char
  | [] => []
  | [(name, value)] =>
      layout.newline ++ quoteText name ++ layout.colon ++ render layout value
  | (name, value) :: members =>
      layout.newline ++ quoteText name ++ layout.colon ++ render layout value ++
        ',' :: renderMembers layout members

end

/-- The text of a datum without any blank. -/
def compact (d : Datum) : String :=
  String.ofList (render .compact d)

/-- A character, as the escapes of its code units if it is not an ASCII one. -/
def asciiChar (c : Char) : List Char :=
  let n := c.toNat
  if n < 128 then [c]
  else if n < 0x10000 then escapeUnit n
  else escapeUnit (0xD7C0 + n / 0x400) ++ escapeUnit (0xDC00 + n % 0x400)

/-- The text of a datum without any blank, in ASCII characters. -/
def compactAscii (d : Datum) : String :=
  String.ofList ((render .compact d).flatMap asciiChar)

/-- The text of a datum with one item per line. -/
def pretty (d : Datum) : String :=
  String.ofList (render (.lines 0) d)

end RouteCompiler.Json
