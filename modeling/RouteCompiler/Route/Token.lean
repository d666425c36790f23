import RouteCompiler.Text.Slice

/-!
# Markup tokens

A route definition is read leniently as a sequence of tokens: character data,
verbatim sections, tags and closing tags.  Comments, processing instructions and
document type declarations are passed over.  Each token keeps the text that was
still unread behind it, from which the position of a fault is found.

Main results:

- Lemma `next_length`: every step of the scanner reads at least one character,
  so scanning ends.
-/

namespace RouteCompiler.Route

open RouteCompiler.Text

/-- A piece of markup that has an end mark of its own. -/
inductive Construct where
  | tag
  | verbatim
  | comment
  | documentType
  | instruction
  deriving DecidableEq, Repr

/-- Why no further token can be read. -/
inductive TokenFault where
  /-- The end mark of a construct is missing, or its opening mark is not
  complete. -/
  | unclosed (what : Construct)
  /-- Markup that begins with an exclamation mark and is of no known kind. -/
  | unknownMarkup
  /-- A document type declaration without a name. -/
  | unnamedDocumentType
  deriving DecidableEq, Repr

/-- One token of a route definition. -/
inductive Token where
  /-- Character data as written, with entities, blank at neither end. -/
  | text (written : List Char)
  /-- The content of a verbatim section. -/
  | verbatim (content : List Char)
  /-- What stands between the brackets of a tag: name and attributes.  An empty
  element has no closing tag, and its final slash is not part of the content. -/
  | tag (content : List Char) (isEmpty : Bool)
  /-- A closing tag. -/
  | close (name : List Char)
  /-- The text cannot be read further. -/
  | broken (fault : TokenFault)
  deriving DecidableEq, Repr

namespace Token

/-! ## Marks -/

/-- The mark that opens a verbatim section, without its bracket. -/
def verbatimMark : List Char := "![CDATA[".toList

/-- The mark that opens a document type declaration, without its bracket. -/
def documentTypeMark : List Char := "!DOCTYPE".toList

/-- Whether a text begins with a mark of ASCII letters, in either case of each
letter. -/
def beginsIgnoringCase (mark cs : List Char) : Bool :=
  (cs.take mark.length).map Char.toUpper == mark.map Char.toUpper

/-! ## Cutting at end marks -/

/-- Cut after the closing bracket that matches, brackets inside being nested. -/
def cutNested : Nat → List Char → Option (List Char × List Char)
  | _, [] => none
  | depth, c :: cs =>
      match c, depth with
      | '>', 0 => some ([], cs)
      | '>', inner + 1 => (cutNested inner cs).map fun cut => (c :: cut.1, cut.2)
      | '<', _ => (cutNested (depth + 1) cs).map fun cut => (c :: cut.1, cut.2)
      | _, _ => (cutNested depth cs).map fun cut => (c :: cut.1, cut.2)

/-- Cut at the first closing bracket that stands outside quotes; the first
argument is the quote that is open. -/
def cutTag : Option Char → List Char → Option (List Char × List Char)
  | _, [] => none
  | none, c :: cs =>
      if c = '>' then some ([], cs)
      else
        let quote := if c = '"' ∨ c = '\'' then some c else none
        (cutTag quote cs).map fun cut => (c :: cut.1, cut.2)
  | some quote, c :: cs =>
      let still := if c = quote then none else some quote
      (cutTag still cs).map fun cut => (c :: cut.1, cut.2)

/-- What follows a nested bracket is shorter than the text that was cut. -/
theorem cutNested_length {depth : Nat} {cs inside rest : List Char}
    (h : cutNested depth cs = some (inside, rest)) : rest.length < cs.length := by
  induction cs generalizing depth inside with
  | nil => simp [cutNested] at h
  | cons c cs ih =>
      simp only [cutNested] at h
      split at h
      · simp only [Option.some.injEq, Prod.mk.injEq] at h
        simp [← h.2]
      all_goals
        obtain ⟨⟨i, r⟩, hcut, heq⟩ := Option.map_eq_some_iff.mp h
        simp only [Prod.mk.injEq] at heq
        obtain ⟨rfl, rfl⟩ := heq
        exact Nat.lt_succ_of_lt (ih hcut)

/-- What follows a tag is shorter than the text that was cut. -/
theorem cutTag_length {quote : Option Char} {cs inside rest : List Char}
    (h : cutTag quote cs = some (inside, rest)) : rest.length < cs.length := by
  induction cs generalizing quote inside with
  | nil => cases quote <;> simp [cutTag] at h
  | cons c cs ih =>
      have hstep : ∀ {q : Option Char},
          (cutTag q cs).map (fun cut => (c :: cut.1, cut.2)) = some (inside, rest) →
            rest.length < (c :: cs).length := by
        intro q hq
        obtain ⟨⟨i, r⟩, hcut, heq⟩ := Option.map_eq_some_iff.mp hq
        simp only [Prod.mk.injEq] at heq
        obtain ⟨rfl, rfl⟩ := heq
        exact Nat.lt_succ_of_lt (ih hcut)
      cases quote with
      | none =>
          simp only [cutTag] at h
          split at h
          · simp only [Option.some.injEq, Prod.mk.injEq] at h
            simp [← h.2]
          · exact hstep h
      | some q => exact hstep (by simpa [cutTag] using h)

/-! ## One step of the scanner -/

/-- What one step of the scanner finds: a token, or nothing where a construct
is passed over; and the text left unread. -/
abbrev Step := Option Token × List Char

/-- Stop at a fault, with the text left unread at that point. -/
def stop (fault : TokenFault) (unread : List Char) : Step :=
  (some (.broken fault), unread)

/-- A verbatim section, from its exclamation mark on. -/
def scanVerbatim (cs : List Char) : Step :=
  match cutAt "]]>".toList cs with
  | none => stop (.unclosed .verbatim) []
  | some (inside, rest) =>
      if verbatimMark.isPrefixOf inside then
        (some (.verbatim (inside.drop verbatimMark.length)), rest)
      else stop (.unclosed .verbatim) rest

/-- A comment, from its exclamation mark on.  The end mark may not overlap the
opening one, and the opening mark is checked only once an end is found. -/
def scanComment (cs : List Char) : Step :=
  match cutAt "-->".toList (cs.drop 3) with
  | none => stop (.unclosed .comment) []
  | some (_, rest) =>
      if "!--".toList.isPrefixOf cs then (none, rest)
      else stop (.unclosed .comment) rest

/-- A document type declaration, from its exclamation mark on. -/
def scanDocumentType (cs : List Char) : Step :=
  match cutNested 0 cs with
  | none => stop (.unclosed .documentType) []
  | some (inside, rest) =>
      if beginsIgnoringCase documentTypeMark inside then
        if (inside.drop documentTypeMark.length).all isBlank then
          stop .unnamedDocumentType rest
        else (none, rest)
      else stop (.unclosed .documentType) rest

/-- A processing instruction, from its question mark on.  That question mark
may not be the one of the end mark. -/
def scanInstruction (cs : List Char) : Step :=
  match cutAt "?>".toList cs with
  | none => stop (.unclosed .instruction) []
  | some ([], rest) => stop (.unclosed .instruction) rest
  | some (_ :: _, rest) => (none, rest)

/-- The token of a tag, given what stands between its brackets.  The name of a
closing tag loses the blanks behind it, unless it is all blank. -/
def ofTag (content : List Char) : Token :=
  match content with
  | '/' :: name =>
      let trimmed := dropEndWhile isBlank name
      .close (if trimmed.isEmpty then name else trimmed)
  | _ =>
      if content.getLast? = some '/' then .tag content.dropLast true
      else .tag content false

/-- A tag, from behind its opening bracket on. -/
def scanTag (cs : List Char) : Step :=
  match cutTag none cs with
  | none => stop (.unclosed .tag) []
  | some (content, rest) => (some (ofTag content), rest)

/-- Markup, from behind its opening bracket on; what kind it is shows in its
first characters. -/
def scanMarkup (cs : List Char) : Step :=
  match cs with
  | [] => stop (.unclosed .tag) []
  | '!' :: '[' :: _ => scanVerbatim cs
  | '!' :: '-' :: _ => scanComment cs
  | '!' :: 'D' :: _ => scanDocumentType cs
  | '!' :: 'd' :: _ => scanDocumentType cs
  | '!' :: _ => stop .unknownMarkup cs
  | '?' :: _ => scanInstruction cs
  | _ => scanTag cs

/-- The next step on a text that does not begin with a blank: character data up
to the next bracket, or markup. -/
def next? (cs : List Char) : Option Step :=
  match cs.dropWhile isBlank with
  | [] => none
  | '<' :: inside => some (scanMarkup inside)
  | c :: more =>
      let written := (c :: more).takeWhile (· != '<')
      some (some (.text (dropEndWhile isBlank written)), (c :: more).dropWhile (· != '<'))

private theorem scanMarkup_length (cs : List Char) : (scanMarkup cs).2.length ≤ cs.length := by
  have hcut : ∀ {pattern ds inside rest : List Char}, ds.length ≤ cs.length →
      cutAt pattern ds = some (inside, rest) → rest.length ≤ cs.length :=
    fun hle h => Nat.le_trans (cutAt_length h) hle
  unfold scanMarkup
  split
  · simp [stop]
  · unfold scanVerbatim
    split
    · simp [stop]
    · next h => split <;> exact hcut (Nat.le_refl _) h
  · unfold scanComment
    split
    · simp [stop]
    · next h => split <;> exact hcut (List.drop_sublist _ _).length_le h
  · unfold scanDocumentType
    split
    · simp [stop]
    · next h => (repeat' split) <;> exact Nat.le_of_lt (cutNested_length h)
  · unfold scanDocumentType
    split
    · simp [stop]
    · next h => (repeat' split) <;> exact Nat.le_of_lt (cutNested_length h)
  · simp [stop]
  · unfold scanInstruction
    split
    · simp [stop]
    · next h => exact hcut (Nat.le_refl _) h
    · next h => exact hcut (Nat.le_refl _) h
  · unfold scanTag
    split
    · simp [stop]
    · next h => exact Nat.le_of_lt (cutTag_length h)

/-- Every step leaves less text than it was given. -/
theorem next_length {cs rest : List Char} {token : Option Token}
    (h : next? cs = some (token, rest)) : rest.length < cs.length := by
  have hle := length_dropWhile_le isBlank cs
  unfold next? at h
  split at h
  · simp at h
  · next inside heq =>
    rw [heq] at hle
    have := scanMarkup_length inside
    simp only [Option.some.injEq] at h
    simp only [h, List.length_cons] at this hle
    omega
  · next c more hc heq =>
    rw [heq] at hle
    simp only [Option.some.injEq, Prod.mk.injEq] at h
    have hc' : c ≠ '<' := hc
    have := length_dropWhile_le (· != '<') more
    rw [← h.2]
    simp only [List.length_cons, List.dropWhile_cons, bne_iff_ne, ne_eq, hc',
      not_false_eq_true, if_true] at hle ⊢
    omega

/-! ## The whole text -/

/-- The tokens of a text, each with the text left unread behind it.  Nothing
follows a fault. -/
def scan (cs : List Char) : List (Token × List Char) :=
  match _h : next? cs with
  | none => []
  | some (none, rest) => scan rest
  | some (some (.broken fault), rest) => [(.broken fault, rest)]
  | some (some token, rest) => (token, rest) :: scan rest
termination_by cs.length
decreasing_by all_goals exact next_length (by assumption)

end Token

end RouteCompiler.Route
