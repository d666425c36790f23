import RouteCompiler.Route.Entity

/-!
# Attributes of an element

An element has an ordered list of attributes with distinct keys.  This module
holds look-up and update in such a list, and the reader for the written form:
keys are separated from values by an equals sign, values stand in quotes, and
blanks are free around both.

Main results:

- Lemmas `find_set_self` and `find_set_of_ne`: setting a key changes the value
  of that key only.
-/

namespace RouteCompiler.Route

open RouteCompiler.Text

/-- A key with its value. -/
structure Attribute where
  key : String
  value : String
  deriving DecidableEq, Repr

namespace Attribute

/-! ## Look-up and update -/

/-- The value of a key. -/
def find? (key : String) : List Attribute → Option String
  | [] => none
  | a :: rest => if a.key = key then some a.value else find? key rest

/-- Give a key a value: in place if the key is there, else at the end. -/
def set (key value : String) : List Attribute → List Attribute
  | [] => [⟨key, value⟩]
  | a :: rest => if a.key = key then ⟨key, value⟩ :: rest else a :: set key value rest

/-- A key has the value it was given. -/
@[simp] theorem find_set_self (key value : String) (attributes : List Attribute) :
    find? key (set key value attributes) = some value := by
  induction attributes with
  | nil => simp [set, find?]
  | cons a rest ih =>
      simp only [set]
      split
      · simp [find?]
      · next h => simp [find?, h, ih]

/-- Setting a key leaves every other key as it was. -/
theorem find_set_of_ne {key other : String} (value : String) (h : other ≠ key)
    (attributes : List Attribute) :
    find? other (set key value attributes) = find? other attributes := by
  induction attributes with
  | nil => simp [set, find?, h.symm]
  | cons a rest ih =>
      simp only [set]
      split
      · next heq => simp [find?, heq, h.symm]
      · simp [find?, ih]

/-! ## Reading -/

/-- Why the attributes of a tag cannot be read.  Positions count bytes from the
beginning of the tag's content. -/
inductive Fault where
  /-- A key is followed by something else than an equals sign. -/
  | keyAlone (position : Nat)
  /-- A key occurs a second time. -/
  | repeatedKey (position previous : Nat)
  /-- Nothing follows an equals sign. -/
  | missingValue (position : Nat)
  /-- A value does not begin with a quote. -/
  | unquotedValue (position : Nat)
  /-- The closing quote of a value is missing. -/
  | unclosedValue (position : Nat) (quote : Char)
  /-- A value is not well written. -/
  | value (fault : Entity.Fault)
  deriving DecidableEq, Repr

namespace Fault

/-- The text of a fault in the attributes of a tag. -/
def message : Fault → String
  | keyAlone position =>
      s!"position {position}: attribute key must be directly followed by `=` or space"
  | repeatedKey position previous =>
      s!"position {position}: duplicated attribute, previous declaration at position {previous}"
  | missingValue position =>
      s!"position {position}: `=` must be followed by an attribute value"
  | unquotedValue position =>
      s!"position {position}: attribute value must be enclosed in `\"` or `'`"
  | unclosedValue position quote =>
      s!"position {position}: missing closing quote `{quote}` in attribute value"
  | value fault => fault.message

end Fault

/-- A key goes on to the next equals sign or blank. -/
def inKey (c : Char) : Bool :=
  !(c == '=' || isBlank c)

/-- The quotes that enclose a value. -/
def isQuote (c : Char) : Bool :=
  c == '"' || c == '\''

/-- A key with its position, and the text behind the equals sign. -/
def readKey (total : Nat) (cs : List Char) : Except Fault ((List Char × Nat) × List Char) :=
  match cs with
  | [] => .error (.keyAlone total)
  | first :: more =>
      match (more.dropWhile inKey).dropWhile isBlank with
      | '=' :: rest =>
          .ok ((first :: more.takeWhile inKey, total - byteLength (first :: more)), rest)
      | unread => .error (.keyAlone (total - byteLength unread))

/-- A quoted value as written, and the text behind its closing quote. -/
def readValue (total : Nat) (cs : List Char) : Except Fault (List Char × List Char) :=
  match cs.dropWhile isBlank with
  | [] => .error (.missingValue total)
  | quote :: body =>
      if isQuote quote then
        match cutAt [quote] body with
        | some cut => .ok cut
        | none => .error (.unclosedValue total quote)
      else .error (.unquotedValue (total - byteLength (quote :: body)))

/-- Reading a key leaves less text. -/
theorem readKey_length {total : Nat} {cs rest : List Char} {key : List Char × Nat}
    (h : readKey total cs = .ok (key, rest)) : rest.length < cs.length := by
  unfold readKey at h
  split at h
  · simp at h
  · next first more =>
    have h₁ := length_dropWhile_le inKey more
    have h₂ := length_dropWhile_le isBlank (more.dropWhile inKey)
    split at h
    · next heq =>
      simp only [Except.ok.injEq, Prod.mk.injEq] at h
      rw [heq] at h₂
      simp only [List.length_cons, h.2] at h₂ ⊢
      omega
    · simp at h

/-- Reading a value leaves no more text. -/
theorem readValue_length {total : Nat} {cs written rest : List Char}
    (h : readValue total cs = .ok (written, rest)) : rest.length ≤ cs.length := by
  have hle := length_dropWhile_le isBlank cs
  unfold readValue at h
  split at h
  · simp at h
  · next quote body heq =>
    rw [heq] at hle
    split at h
    · split at h
      · next cut hcut =>
        simp only [Except.ok.injEq] at h
        subst h
        have := cutAt_length hcut
        simp only [List.length_cons] at hle
        omega
      · simp at h
    · simp at h

/-- Read attributes from a text that is the rest of a tag's content of `total`
bytes; `earlier` holds the keys already read, with their positions.  Faults are
reported from the left. -/
def readFrom (total : Nat) (earlier : List (List Char × Nat)) (cs : List Char) :
    Except Fault (List Attribute) :=
  if cs.all isBlank then .ok []
  else
    match _hkey : readKey total (cs.dropWhile isBlank) with
    | .error fault => .error fault
    | .ok ((key, position), afterKey) =>
        match earlier.lookup key with
        | some previous => .error (.repeatedKey position previous)
        | none =>
            match _hvalue : readValue total afterKey with
            | .error fault => .error fault
            | .ok (written, rest) => do
                let value ← (Entity.unescape written).mapError .value
                let others ← readFrom total ((key, position) :: earlier) rest
                return ⟨String.ofList key, String.ofList value⟩ :: others
termination_by cs.length
decreasing_by
  have h₁ := readKey_length _hkey
  have h₂ := readValue_length _hvalue
  have h₃ := length_dropWhile_le isBlank cs
  omega

/-- The name of a tag: its content up to the first blank. -/
def tagName (content : List Char) : List Char :=
  content.takeWhile fun c => !isBlank c

/-- The attributes of a tag: what follows its name. -/
def ofTagContent (content : List Char) : Except Fault (List Attribute) :=
  readFrom (byteLength content) [] (content.dropWhile fun c => !isBlank c)

end Attribute

end RouteCompiler.Route
