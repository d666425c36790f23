import RouteCompiler.Text.Slice

/-!
# Character data in markup

Five characters are written as named entities in text and in attribute values.
Reading accepts those names and numeric character references, and reports
anything else that follows an ampersand.

Main results:

- Lemma `unescape_escape`: reading undoes writing, for every text.
- Lemma `not_mem_escape_of_special`: the written form holds neither a tag
  bracket nor a quote.
-/

namespace RouteCompiler.Route.Entity

open RouteCompiler.Text

/-! ## Writing -/

/-- The written form of one character. -/
def escapeChar : Char → List Char
  | '<' => "&lt;".toList
  | '>' => "&gt;".toList
  | '&' => "&amp;".toList
  | '\'' => "&apos;".toList
  | '"' => "&quot;".toList
  | c => [c]

/-- Write a text with the five special characters as entities. -/
def escape (cs : List Char) : List Char :=
  cs.flatMap escapeChar

/-! ## Faults -/

/-- Why the digits of a character reference denote no character. -/
inductive ReferenceFault where
  /-- The digits begin with a sign. -/
  | signed
  /-- There are no digits. -/
  | noDigits
  /-- Something that is no digit of the base stands among the digits. -/
  | notADigit
  /-- The number needs more than 32 bits. -/
  | tooLarge
  /-- The number is zero. -/
  | zero
  /-- No character has this number. -/
  | noCharacter (code : Nat)
  deriving DecidableEq, Repr

namespace ReferenceFault

/-- The text of a fault in a character reference. -/
def message : ReferenceFault → String
  | signed => "unexpected number sign"
  | noDigits => "cannot parse integer from empty string"
  | notADigit => "invalid digit found in string"
  | tooLarge => "number too large to fit in target type"
  | zero => "0x0 character is not permitted in XML"
  | noCharacter code => s!"`{code}` is not a valid codepoint"

end ReferenceFault

/-- Why a written text cannot be read.  Offsets count bytes of the written
text. -/
inductive Fault where
  /-- An ampersand without a semicolon before the next ampersand. -/
  | unterminated (start stop : Nat)
  /-- An entity whose name is not known. -/
  | unknown (start stop : Nat) (name : String)
  /-- A character reference that denotes no character. -/
  | reference (fault : ReferenceFault)
  deriving DecidableEq, Repr

namespace Fault

/-- The text of a fault in character data. -/
def message : Fault → String
  | unterminated start stop =>
      s!"Error while escaping character at range {start}..{stop}: Cannot find ';' after '&'"
  | unknown start stop name => s!"at {start}..{stop}: unrecognized entity `{name}`"
  | reference fault => "invalid character reference: " ++ fault.message

end Fault

/-! ## Character references -/

/-- The value of a digit in a base up to sixteen. -/
def digitValue? (base : Nat) (c : Char) : Option Nat :=
  let value :=
    if '0' ≤ c ∧ c ≤ '9' then some (c.toNat - '0'.toNat)
    else if 'a' ≤ c ∧ c ≤ 'f' then some (c.toNat - 'a'.toNat + 10)
    else if 'A' ≤ c ∧ c ≤ 'F' then some (c.toNat - 'A'.toNat + 10)
    else none
  value.filter (· < base)

/-- Read digits from the left, in 32 bits: of several problems the first one is
reported. -/
def readDigits (base : Nat) : Nat → List Char → Except ReferenceFault Nat
  | value, [] => .ok value
  | value, c :: cs =>
      match digitValue? base c with
      | none => .error .notADigit
      | some digit =>
          let next := value * base + digit
          if next < UInt32.size then readDigits base next cs else .error .tooLarge

/-- The number written after the number sign of a character reference. -/
def referenceNumber (base : Nat) : List Char → Except ReferenceFault Nat
  | [] => .error .noDigits
  | c :: cs =>
      if c = '+' ∨ c = '-' then .error .signed else readDigits base 0 (c :: cs)

/-- The character that a number denotes. -/
def characterOf (code : Nat) : Except ReferenceFault Char :=
  if code = 0 then .error .zero
  else if h : code.isValidChar then .ok (Char.ofNatAux code h)
  else .error (.noCharacter code)

/-- The character of a reference, given what follows its number sign: decimal
digits, or hexadecimal ones after a small x. -/
def resolveReference (digits : List Char) : Except ReferenceFault Char :=
  match digits with
  | 'x' :: hex => referenceNumber 16 hex >>= characterOf
  | decimal => referenceNumber 10 decimal >>= characterOf

/-! ## Reading -/

/-- The character that a named entity stands for. -/
def named? (name : List Char) : Option Char :=
  if name = "lt".toList then some '<'
  else if name = "gt".toList then some '>'
  else if name = "amp".toList then some '&'
  else if name = "apos".toList then some '\''
  else if name = "quot".toList then some '"'
  else none

/-- The character of an entity, given the byte offset of its ampersand and the
text between the ampersand and the semicolon. -/
def resolve (start : Nat) (name : List Char) : Except Fault Char :=
  match name with
  | '#' :: digits => (resolveReference digits).mapError .reference
  | _ =>
      match named? name with
      | some c => .ok c
      | none =>
          .error (.unknown (start + 1) (start + 1 + byteLength name) (String.ofList name))

/-- An entity ends at a semicolon, and another ampersand may not come first. -/
def endsEntity (c : Char) : Bool :=
  c == ';' || c == '&'

/-- Read a written text of which all but the given rest has been read; `total`
is the byte length of the whole. -/
def unescapeFrom (total : Nat) : List Char → Except Fault (List Char)
  | [] => .ok []
  | c :: cs =>
      if c = '&' then
        let name := cs.takeWhile fun c => !endsEntity c
        let start := total - byteLength (c :: cs)
        match _hrest : cs.dropWhile fun c => !endsEntity c with
        | ';' :: rest => do
            let c ← resolve start name
            let tail ← unescapeFrom total rest
            return c :: tail
        | _ => .error (.unterminated start total)
      else do
        let tail ← unescapeFrom total cs
        return c :: tail
termination_by cs => cs.length
decreasing_by
  · have := length_dropWhile_le (fun c => !endsEntity c) cs
    rw [_hrest] at this
    simp at this ⊢
    omega
  · simp

/-- Read a written text. -/
def unescape (cs : List Char) : Except Fault (List Char) :=
  unescapeFrom (byteLength cs) cs

/-! ## Reading undoes writing -/

/-- The written form of a text holds no tag bracket and no quote. -/
theorem not_mem_escape_of_special {c : Char} (cs : List Char)
    (hc : c = '<' ∨ c = '>' ∨ c = '\'' ∨ c = '"') : c ∉ escape cs := by
  simp only [escape, List.mem_flatMap, not_exists, not_and]
  intro d _
  unfold escapeChar
  split <;> rcases hc with rfl | rfl | rfl | rfl <;> simp_all [eq_comm]

/-- A character that is no ampersand stands for itself. -/
theorem unescapeFrom_plain {c : Char} (hc : c ≠ '&') (total : Nat) (cs : List Char) :
    unescapeFrom total (c :: cs) = (do
      let tail ← unescapeFrom total cs
      return c :: tail) := by
  rw [unescapeFrom, if_neg hc]

/-- An entity ends at the first semicolon. -/
theorem unescapeFrom_entity {name rest : List Char} (h : ∀ c ∈ name, endsEntity c = false)
    (total : Nat) :
    unescapeFrom total ('&' :: (name ++ ';' :: rest)) = (do
      let c ← resolve (total - byteLength ('&' :: (name ++ ';' :: rest))) name
      let tail ← unescapeFrom total rest
      return c :: tail) := by
  have hname : ∀ c ∈ name, (!endsEntity c) = true := fun c hc => by rw [h c hc]; rfl
  have htake : (name ++ ';' :: rest).takeWhile (fun c => !endsEntity c) = name :=
    takeWhile_append_of_head hname (by simp [endsEntity])
  have hdrop : (name ++ ';' :: rest).dropWhile (fun c => !endsEntity c) = ';' :: rest :=
    dropWhile_append_of_head hname (by simp [endsEntity])
  rw [unescapeFrom]
  simp only [if_pos, htake]
  split
  · next rest' heq =>
    obtain rfl : rest = rest' := by simpa [hdrop] using heq
    rfl
  · next hno => exact absurd hdrop (hno rest)

private theorem unescapeFrom_named (name : List Char) {total : Nat} {rest : List Char} {c : Char}
    (hname : ∀ d ∈ name, endsEntity d = false) (hc : named? name = some c)
    (hhash : name.head? ≠ some '#') :
    unescapeFrom total ('&' :: name ++ ';' :: rest) =
      (unescapeFrom total rest).map (c :: ·) := by
  have hresolve : ∀ start, resolve start name = .ok c := by
    intro start
    unfold resolve
    split
    · simp at hhash
    · simp [hc]
  rw [List.cons_append, unescapeFrom_entity hname, hresolve]
  cases unescapeFrom total rest <;> rfl

/-- Reading the written form of a text gives that text back, whatever follows
it. -/
theorem unescapeFrom_escape (total : Nat) (cs rest : List Char) :
    unescapeFrom total (escape cs ++ rest) =
      (unescapeFrom total rest).map (cs ++ ·) := by
  induction cs with
  | nil => cases h : unescapeFrom total rest <;> simp [escape, h, Except.map]
  | cons c cs ih =>
      have hstep : unescapeFrom total (escapeChar c ++ (escape cs ++ rest)) =
          (unescapeFrom total (escape cs ++ rest)).map (c :: ·) := by
        unfold escapeChar
        split
        · exact unescapeFrom_named ("lt".toList) (by simp [endsEntity]) (by decide) (by decide)
        · exact unescapeFrom_named ("gt".toList) (by simp [endsEntity]) (by decide) (by decide)
        · exact unescapeFrom_named ("amp".toList) (by simp [endsEntity]) (by decide) (by decide)
        · exact unescapeFrom_named ("apos".toList) (by simp [endsEntity]) (by decide) (by decide)
        · exact unescapeFrom_named ("quot".toList) (by simp [endsEntity]) (by decide) (by decide)
        · next hamp _ _ =>
          simp only [List.cons_append, List.nil_append]
          rw [unescapeFrom_plain (by simpa using hamp)]
          cases unescapeFrom total (escape cs ++ rest) <;> rfl
      have hcons : escape (c :: cs) ++ rest = escapeChar c ++ (escape cs ++ rest) := by
        simp [escape]
      rw [hcons, hstep, ih]
      cases unescapeFrom total rest <;> rfl

/-- Reading undoes writing. -/
theorem unescape_escape (cs : List Char) : unescape (escape cs) = .ok cs := by
  have h := unescapeFrom_escape (byteLength (escape cs)) cs []
  simp only [List.append_nil] at h
  simp [unescape, h, unescapeFrom, Except.map]

end RouteCompiler.Route.Entity
