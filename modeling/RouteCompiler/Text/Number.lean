/-!
# Unsigned numbers

A number is spelled by decimal digits, after an optional plus sign.
-/

namespace RouteCompiler.Text

/-- The number that decimal digits spell, after an optional plus sign. -/
def unsigned? (cs : List Char) : Option Nat :=
  let digits := match cs with
    | '+' :: rest => rest
    | cs => cs
  if digits.isEmpty || !digits.all Char.isDigit then none
  else some (digits.foldl (fun n c => n * 10 + (c.toNat - 48)) 0)

/-- Such a number, if 64 bits hold it. -/
def word? (cs : List Char) : Option Nat :=
  (unsigned? cs).filter fun n => n < UInt64.size

end RouteCompiler.Text
