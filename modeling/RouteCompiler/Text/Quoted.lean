import RouteCompiler.Text.Hidden
import RouteCompiler.Text.Slice

/-!
# Quoted names

Names in summaries stand in double quotes.  A character that would not show is
written as its number.
-/

namespace RouteCompiler.Text

/-- A character inside quotes. -/
def quotedChar (c : Char) : List Char :=
  match c with
  | '"' => ['\\', '"']
  | '\\' => ['\\', '\\']
  | '\n' => ['\\', 'n']
  | '\r' => ['\\', 'r']
  | '\t' => ['\\', 't']
  | '\x00' => ['\\', '0']
  | c =>
      if isShown c then [c]
      else '\\' :: 'u' :: '\x7b' :: Nat.toDigits 16 c.toNat ++ ['\x7d']

/-- A name in quotes. -/
def quoted (s : String) : String :=
  String.ofList ('"' :: s.toList.flatMap quotedChar ++ ['"'])

/-- Names in quotes, between brackets. -/
def quotedList (names : List String) : String :=
  "[" ++ joinWith ", " (names.map quoted) ++ "]"

end RouteCompiler.Text
