import RouteCompiler.Datum.Basic

/-!
# Encoding and decoding

A type that is stored or exchanged has an encoding as a datum and a decoder.
Decoding never converts: a number is no text, and a fraction is no count.  An
unquoted scalar is a text where a text is expected, and so on for the other
kinds.

A record is decoded by the names of its members.  Members of other names are
passed over, a member that occurs twice is refused, and a list stands for a
record whose members it holds by place.
-/

namespace RouteCompiler

/-- Encoding as a datum, and decoding. -/
class Codec (α : Type) where
  encode : α → Datum
  decode : Datum → Option α

export Codec (encode decode)

namespace Datum

/-! ## Scalars -/

/-- The digits of a number without a zero in front of others, as a number. -/
def digitsValue? (base : Nat) (cs : List Char) : Option Nat :=
  let digit? (c : Char) : Option Nat :=
    let value :=
      if '0' ≤ c ∧ c ≤ '9' then c.toNat - 48
      else if 'a' ≤ c ∧ c ≤ 'f' then c.toNat - 87
      else if 'A' ≤ c ∧ c ≤ 'F' then c.toNat - 55
      else 16
    if value < base then some value else none
  if cs.isEmpty then none
  else (cs.mapM digit?).map fun digits => digits.foldl (fun n d => n * base + d) 0

/-- The count that a number literal spells: digits only. -/
def literalCount? (literal : String) : Option Nat :=
  digitsValue? 10 literal.toList

/-- The count that an unquoted scalar spells: digits, after an optional plus
sign, in one of four bases.  A zero in front of other decimal digits is
refused. -/
def plainCount? (text : String) : Option Nat :=
  let unsigned := match text.toList with
    | '+' :: rest => rest
    | cs => cs
  match unsigned with
  | '0' :: 'x' :: rest => digitsValue? 16 rest
  | '0' :: 'o' :: rest => digitsValue? 8 rest
  | '0' :: 'b' :: rest => digitsValue? 2 rest
  | '0' :: _ :: _ => none
  | cs => digitsValue? 10 cs

/-- Whether a text is a word for nothing. -/
def isNullWord (text : String) : Bool :=
  text == "~" || text == "null" || text == "Null" || text == "NULL"

/-- Whether a datum says that there is nothing, if it can say so. -/
def isNothing? : Datum → Option Bool
  | null => some true
  | plain text => some (text.isEmpty || isNullWord text)
  | tagged true text => if isNullWord text then some true else none
  | _ => some false

/-- The text of an unquoted scalar. -/
def plainText? : Datum → Option String
  | plain text | tagged _ text => some text
  | _ => none

/-- Whether a datum is an unquoted scalar without a character. -/
def isEmptyScalar (d : Datum) : Bool :=
  d.plainText? == some ""

/-- The text of a datum. -/
def text? : Datum → Option String
  | string value => value
  | d => d.plainText?

/-- The count of a datum, below 2^64. -/
def count? (d : Datum) : Option Nat :=
  let n := match d with
    | number literal => literalCount? literal
    | d => d.plainText?.bind plainCount?
  n.filter (· < UInt64.size)

/-- The items of a datum. -/
def items? : Datum → Option (List Datum)
  | list items => some items
  | sequence items => some items
  | d => if d.isEmptyScalar then some [] else none

/-- The members of a datum whose names are free. -/
def entries? : Datum → Option (List (String × Datum))
  | record members => members.mapM fun (name, value) => name.map fun n => (n, value)
  | d => if d.isEmptyScalar then some [] else none

/-- The name of one of several constants: a text, or a record that has that name
for its only member, with nothing as its value. -/
def constant? : Datum → Option String
  | record [(some name, null)] => some name
  | record _ => none
  | d => d.text?

/-! ## Records -/

/-- Members by name. -/
abbrev Fields := String → Option Datum

/-- The members of a datum that stands for a record with the given member
names. -/
def fields? (names : List String) : Datum → Option Fields
  | record members => do
      let members ← members.mapM fun (name, value) => name.map fun n => (n, value)
      let known := (members.map Prod.fst).filter names.contains
      if known.Nodup then some fun name => members.lookup name else none
  | list items =>
      if items.length ≤ names.length then some fun name => (names.zip items).lookup name
      else none
  | d => if d.isEmptyScalar then some fun _ => none else none

/-- A member that must be there. -/
def Fields.required {α : Type} [Codec α] (fields : Fields) (name : String) : Option α :=
  (fields name).bind decode

/-- A member that has a default. -/
def Fields.optional {α : Type} [Codec α] (fields : Fields) (name : String) (default : α) :
    Option α :=
  match fields name with
  | none => some default
  | some value => decode value

end Datum

/-! ## General types -/

instance : Codec String where
  encode := .ofString
  decode := Datum.text?

instance : Codec UInt64 where
  encode n := .ofNat n.toNat
  decode d := d.count?.map UInt64.ofNat

instance {α : Type} [Codec α] : Codec (List α) where
  encode items := .list (items.map encode)
  decode d := d.items?.bind fun items => items.mapM decode

instance {α : Type} [Codec α] : Codec (Option α) where
  encode
    | none => .null
    | some a => encode a
  decode d := d.isNothing?.bind fun isNothing =>
    if isNothing then some none else (decode d).map some

instance {α : Type} [Ord α] [Std.TransOrd α] [Codec α] :
    Codec (SortedSet α) where
  encode s := encode s.elements
  decode d := (decode d : Option (List α)).map .ofList

instance {α : Type} [Codec α] : Codec (SortedMap String α) where
  encode m := .record (m.entries.map fun entry => (some entry.1, encode entry.2))
  decode d := do
    let entries ← d.entries?
    let entries ← entries.mapM fun (name, value) => (decode value).map fun a => (name, a)
    return .ofList entries

end RouteCompiler
