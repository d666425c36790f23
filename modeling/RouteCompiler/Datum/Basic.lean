import RouteCompiler.Ordered.Map
import RouteCompiler.Ordered.Set

/-!
# Self-describing data

A datum is what a text in a data format describes before it is known which type
it should become.  Texts in two formats are read: in one every scalar shows its
kind, in the other an unquoted scalar becomes what the expected type makes of
it.
-/

namespace RouteCompiler

/-- A value read from a text that describes itself. -/
inductive Datum where
  | null
  | bool (value : Bool)
  /-- A number, as the characters that spell it. -/
  | number (literal : String)
  /-- A quoted text.  There is none where an escape names one half of a
  surrogate pair: such a literal may be skipped, but it denotes no text. -/
  | string (value : Option String)
  /-- An unquoted scalar whose kind is left to the reader. -/
  | plain (text : String)
  /-- An unquoted scalar that is said to stand for nothing, or for something. -/
  | tagged (isNull : Bool) (text : String)
  /-- Items in order; they may stand for the members of a record, by place. -/
  | list (items : List Datum)
  /-- Items in order that never stand for a record. -/
  | sequence (items : List Datum)
  /-- Members in the order they are written, repeated names included.  A name
  that denotes no text is none. -/
  | record (members : List (Option String × Datum))
deriving Inhabited

namespace Datum

/-- The datum of a text. -/
def ofString (s : String) : Datum :=
  .string (some s)

/-- The datum of a natural number, in decimal digits. -/
def ofNat (n : Nat) : Datum :=
  .number (toString n)

/-- A member of a record to be written, unless it is left out. -/
structure Member where
  name : String
  value : Datum
  isWritten : Bool

namespace Member

/-- A member that is always written. -/
def always (name : String) (value : Datum) : Member :=
  ⟨name, value, true⟩

/-- A member that is left out on a condition. -/
def omitIf (isLeftOut : Bool) (name : String) (value : Datum) : Member :=
  ⟨name, value, !isLeftOut⟩

end Member

/-- A record of the members that are written. -/
def ofMembers (members : List Member) : Datum :=
  .record ((members.filter Member.isWritten).map fun m => (some m.name, m.value))

end Datum

end RouteCompiler
