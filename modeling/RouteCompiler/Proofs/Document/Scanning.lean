import RouteCompiler.Route.Document.Reader
import Mathlib.Data.List.TakeWhile

/-!
# Reading what was written

The scanner takes the written form of a tag, of a closing tag and of a text apart
into one token each, whatever is written behind it, and the attributes of a tag are
read as they were written.

Main definitions:

- `IsKey`, `IsName` and `IsValue`: the keys, names and texts that can be written.
- `IsSplitTag`: the tags that the reader splits as they were written.
- `IsLegible`: the elements whose tags are cut out of their written form.

Main results:

- Theorems `scan_opening`, `scan_empty`, `scan_closing` and `scan_text`: the token
  of each written piece.
- Lemma `scan_characters`: the token of any character data in front of a tag.
- Theorem `ofTagContent_written`: the attributes of a written tag.
-/

namespace RouteCompiler.Route

open RouteCompiler.Text

/-! ## What can be written -/

/-- The characters of names and keys. -/
def isNameCharacter (c : Char) : Bool :=
  !(isBlank c || c == '"' || c == '\'' || c == '<' || c == '>' || c == '=' || c == '/')

/-- A key that can be written. -/
structure IsKey (key : List Char) : Prop where
  nonempty : key ≠ []
  plain : ∀ c ∈ key, isNameCharacter c = true

/-- A name that can be written: it does not look like other markup. -/
structure IsName (name : List Char) : Prop extends IsKey name where
  markup : ∀ c ∈ name.head?, c ≠ '!' ∧ c ≠ '?'

/-- A text that can be written: it does not lose anything at its ends. -/
structure IsValue (value : List Char) : Prop where
  nonempty : value ≠ []
  head : ∀ c ∈ value.head?, isWhitespace c = false
  last : ∀ c ∈ value.getLast?, isWhitespace c = false

theorem isNameCharacter_iff {c : Char} :
    isNameCharacter c = true ↔ isBlank c = false ∧ c ≠ '"' ∧ c ≠ '\'' ∧ c ≠ '<' ∧ c ≠ '>' ∧
      c ≠ '=' ∧ c ≠ '/' := by
  simp [isNameCharacter, and_assoc]

theorem isBlank_eq_false_of_isWhitespace {c : Char} (h : isWhitespace c = false) :
    isBlank c = false := by
  by_contra hblank
  rw [Bool.not_eq_false] at hblank
  rw [isWhitespace_of_isBlank hblank] at h
  cases h

/-! ## The written form of a text -/

theorem escapeChar_ne_nil (c : Char) : Entity.escapeChar c ≠ [] := by
  unfold Entity.escapeChar
  split <;> simp

theorem isBlank_of_mem_escapeChar {c : Char} (hc : isBlank c = false) :
    ∀ d ∈ Entity.escapeChar c, isBlank d = false := by
  have hall : (Entity.escapeChar c).all (fun d => !isBlank d) = true := by
    unfold Entity.escapeChar
    split
    case h_6 => simpa using hc
    all_goals decide
  intro d hd
  simpa using List.all_eq_true.mp hall d hd

theorem escape_cons (c : Char) (cs : List Char) :
    Entity.escape (c :: cs) = Entity.escapeChar c ++ Entity.escape cs := by
  simp [Entity.escape]

theorem escape_append (cs ds : List Char) :
    Entity.escape (cs ++ ds) = Entity.escape cs ++ Entity.escape ds := by
  simp [Entity.escape]

theorem head_append_of_ne_nil {cs ds : List Char} (h : cs ≠ []) :
    (cs ++ ds).head? = cs.head? := by
  cases cs with
  | nil => exact absurd rfl h
  | cons c cs => rfl

/-- A text that can be written has no blank at the ends of its written form. -/
theorem IsValue.escape {value : List Char} (h : IsValue value) :
    Entity.escape value ≠ [] ∧
      (∀ c, (Entity.escape value).head? = some c → isBlank c = false) ∧
      ∀ c, (Entity.escape value).getLast? = some c → isBlank c = false := by
  refine ⟨?_, ?_, ?_⟩
  · intro hnil
    cases value with
    | nil => exact h.nonempty rfl
    | cons c cs =>
        rw [escape_cons] at hnil
        exact escapeChar_ne_nil c (List.append_eq_nil_iff.mp hnil).1
  · intro d hd
    cases value with
    | nil => exact absurd rfl h.nonempty
    | cons c cs =>
        have hc := isBlank_eq_false_of_isWhitespace (h.head c rfl)
        rw [escape_cons, head_append_of_ne_nil (escapeChar_ne_nil c)] at hd
        exact isBlank_of_mem_escapeChar hc d (List.mem_of_mem_head? hd)
  · intro d hd
    rcases List.eq_nil_or_concat value with hnil | ⟨cs, c, hvalue⟩
    · exact absurd hnil h.nonempty
    · rw [List.concat_eq_append] at hvalue
      have hc := isBlank_eq_false_of_isWhitespace (h.last c (by simp [hvalue]))
      have hsingle : Entity.escape [c] = Entity.escapeChar c := by simp [Entity.escape]
      rw [hvalue, escape_append, hsingle, List.getLast?_append,
        List.getLast?_eq_some_getLast (escapeChar_ne_nil c), Option.some_or, Option.some.injEq]
        at hd
      exact isBlank_of_mem_escapeChar hc d (hd ▸ List.getLast_mem _)

/-! ## Cutting -/

/-- What stands before a character is taken by a test that fails at that character. -/
theorem takeWhile_append_cons {p : Char → Bool} {cs ds : List Char} {c : Char}
    (h : ∀ d ∈ cs, p d = true) (hc : p c = false) : (cs ++ c :: ds).takeWhile p = cs :=
  Text.takeWhile_append_of_head h (by simpa using hc)

theorem dropWhile_append_cons {p : Char → Bool} {cs ds : List Char} {c : Char}
    (h : ∀ d ∈ cs, p d = true) (hc : p c = false) : (cs ++ c :: ds).dropWhile p = c :: ds :=
  Text.dropWhile_append_of_head h (by simpa using hc)

/-- A text is split in one way at the first character that fails a test. -/
theorem append_cons_inj {p : Char → Bool} {cs ds xs ys : List Char} {c d : Char}
    (hcs : ∀ e ∈ cs, p e = true) (hc : p c = false) (hds : ∀ e ∈ ds, p e = true)
    (hd : p d = false) (h : cs ++ c :: xs = ds ++ d :: ys) : cs = ds ∧ c :: xs = d :: ys := by
  constructor
  · have htake := congrArg (List.takeWhile p) h
    rwa [takeWhile_append_cons hcs hc, takeWhile_append_cons hds hd] at htake
  · have hdrop := congrArg (List.dropWhile p) h
    rwa [dropWhile_append_cons hcs hc, dropWhile_append_cons hds hd] at hdrop

/-- A text is split in one way at the first occurrence of a character. -/
theorem append_separator_inj {cs ds xs ys : List Char} {c : Char} (hcs : c ∉ cs) (hds : c ∉ ds)
    (h : cs ++ c :: xs = ds ++ c :: ys) : cs = ds ∧ xs = ys := by
  have hbefore : ∀ {es : List Char}, c ∉ es → ∀ e ∈ es, (e != c) = true := by
    intro es hes e he
    rw [bne_iff_ne]
    rintro rfl
    exact hes he
  obtain ⟨hsame, hrest⟩ :=
    append_cons_inj (hbefore hcs) (by simp) (hbefore hds) (by simp) h
  exact ⟨hsame, (List.cons.inj hrest).2⟩

/-- What stands before the first occurrence of a character does not hold it. -/
theorem not_mem_of_cutAt {c : Char} {cs before rest : List Char}
    (h : cutAt [c] cs = some (before, rest)) : c ∉ before := by
  induction cs generalizing before with
  | nil => cases h
  | cons d cs ih =>
      simp only [cutAt, List.isPrefixOf, Bool.and_true, beq_iff_eq] at h
      split at h
      · obtain ⟨rfl, -⟩ := Prod.mk.inj (Option.some.inj h)
        exact List.not_mem_nil
      · next hne =>
        obtain ⟨cut, hcut, heq⟩ := Option.map_eq_some_iff.mp h
        obtain ⟨rfl, rfl⟩ := Prod.mk.inj heq
        rw [List.mem_cons, not_or]
        exact ⟨hne, ih hcut⟩

/-- Blanks behind a text without a blank at its end are dropped. -/
theorem dropEndWhile_append {cs blanks : List Char} (hblanks : ∀ c ∈ blanks, isBlank c = true)
    (hlast : ∀ c, cs.getLast? = some c → isBlank c = false) :
    dropEndWhile isBlank (cs ++ blanks) = cs := by
  have hreverse : ∀ c ∈ blanks.reverse, isBlank c = true := by
    intro c hc
    exact hblanks c (List.mem_reverse.mp hc)
  rw [dropEndWhile, List.reverse_append, List.dropWhile_append_of_pos hreverse]
  cases hcs : cs.reverse with
  | nil =>
      rw [List.reverse_eq_nil_iff.mp hcs]
      rfl
  | cons c rest =>
      have hc : isBlank c = false := by
        apply hlast
        rw [List.getLast?_eq_head?_reverse, hcs]
        rfl
      rw [List.dropWhile_cons_of_neg (by simp [hc]), ← hcs, List.reverse_reverse]

namespace Token

theorem cutTag_append_plain {cs : List Char} (h : ∀ c ∈ cs, c ≠ '>' ∧ c ≠ '"' ∧ c ≠ '\'')
    (ds : List Char) :
    cutTag none (cs ++ ds) = (cutTag none ds).map fun cut => (cs ++ cut.1, cut.2) := by
  induction cs with
  | nil => simp
  | cons c cs ih =>
      obtain ⟨hbracket, hdouble, hsingle⟩ := h c (by simp)
      have hquote : ¬ (c = '"' ∨ c = '\'') := by simp [hdouble, hsingle]
      have hrest := ih fun d hd => h d (by simp [hd])
      simp only [List.cons_append, cutTag, if_neg hbracket, if_neg hquote, hrest, Option.map_map]
      rfl

theorem cutTag_append_quoted {cs : List Char} (h : '"' ∉ cs) (ds : List Char) :
    cutTag (some '"') (cs ++ '"' :: ds) =
      (cutTag none ds).map fun cut => (cs ++ '"' :: cut.1, cut.2) := by
  induction cs with
  | nil => simp [cutTag]
  | cons c cs ih =>
      rw [List.mem_cons, not_or] at h
      have hrest := ih h.2
      simp only [List.cons_append, cutTag, if_neg (Ne.symm h.1), hrest, Option.map_map]
      rfl

/-- The quote that is open behind a character. -/
def nextQuote : Option Char → Char → Option Char
  | none, c => if c = '"' ∨ c = '\'' then some c else none
  | some quote, c => if c = quote then none else some quote

/-- Cutting ends at a bracket outside quotes, or goes on behind a character. -/
theorem cutTag_cons (quote : Option Char) (c : Char) (cs : List Char) :
    cutTag quote (c :: cs) = if quote = none ∧ c = '>' then some ([], cs)
      else (cutTag (nextQuote quote c) cs).map fun cut => (c :: cut.1, cut.2) := by
  cases quote with
  | none => simp [cutTag, nextQuote]
  | some q => simp [cutTag, nextQuote]

theorem cutTag_cons_eq_some {quote : Option Char} {c : Char} {cs inside rest : List Char} :
    cutTag quote (c :: cs) = some (inside, rest) ↔
      (quote = none ∧ c = '>') ∧ inside = [] ∧ rest = cs ∨
        ¬(quote = none ∧ c = '>') ∧ ∃ more, inside = c :: more ∧
          cutTag (nextQuote quote c) cs = some (more, rest) := by
  rw [cutTag_cons]
  by_cases hstop : quote = none ∧ c = '>'
  · simp [hstop, eq_comm]
  · rw [if_neg hstop, Option.map_eq_some_iff]
    constructor
    · rintro ⟨cut, hcut, heq⟩
      obtain ⟨rfl, rfl⟩ := Prod.mk.inj heq
      exact .inr ⟨hstop, cut.1, rfl, hcut⟩
    · rintro (⟨hstop', -⟩ | ⟨-, more, rfl, hcut⟩)
      · exact absurd hstop' hstop
      · exact ⟨(more, rest), hcut, rfl⟩

theorem cutTag_append_of_cut {quote : Option Char} {cs : List Char}
    (h : cutTag quote (cs ++ ['>']) = some (cs, [])) (ds : List Char) :
    cutTag quote (cs ++ ds) = (cutTag none ds).map fun cut => (cs ++ cut.1, cut.2) := by
  induction cs generalizing quote with
  | nil =>
      rcases cutTag_cons_eq_some.mp h with ⟨⟨rfl, -⟩, -⟩ | ⟨-, more, hmore, -⟩
      · simp
      · cases hmore
  | cons c cs ih =>
      rcases cutTag_cons_eq_some.mp h with ⟨-, hnil, -⟩ | ⟨hgoes, more, hmore, hcut⟩
      · cases hnil
      · obtain rfl := (List.cons.inj hmore).2
        rw [List.cons_append, cutTag_cons, if_neg hgoes, ih hcut, Option.map_map]
        rfl

/-- What is cut off would be cut off from anything. -/
theorem of_cutTag_eq_some {quote : Option Char} {cs inside rest : List Char}
    (h : cutTag quote cs = some (inside, rest)) :
    cs = inside ++ '>' :: rest ∧ cutTag quote (inside ++ ['>']) = some (inside, []) := by
  induction cs generalizing quote inside with
  | nil => cases quote <;> cases h
  | cons c cs ih =>
      rcases cutTag_cons_eq_some.mp h with ⟨hstop, rfl, rfl⟩ | ⟨hgoes, more, rfl, hcut⟩
      · rw [hstop.2]
        exact ⟨rfl, cutTag_cons_eq_some.mpr (.inl ⟨⟨hstop.1, rfl⟩, rfl, rfl⟩)⟩
      · obtain ⟨hcs, hmore⟩ := ih hcut
        rw [hcs]
        exact ⟨rfl, cutTag_cons_eq_some.mpr (.inr ⟨hgoes, more, rfl, hmore⟩)⟩

theorem cutTag_eq_none {quote : Char} {cs : List Char} (h : quote ∉ cs) :
    cutTag (some quote) cs = none := by
  induction cs with
  | nil => rfl
  | cons c cs ih =>
      rw [List.mem_cons, not_or] at h
      have hquote : nextQuote (some quote) c = some quote := if_neg (Ne.symm h.1)
      rw [cutTag_cons, if_neg (by simp), hquote, ih h.2]
      rfl

/-- Where no quote stands at the end of what is cut off, the end could be left out. -/
theorem cutTag_of_append {quote : Option Char} {cs ds : List Char}
    (hquote : ∀ q ∈ quote, q = '"' ∨ q = '\'') (hds : ∀ d ∈ ds, d ≠ '"' ∧ d ≠ '\'')
    (h : cutTag quote (cs ++ (ds ++ ['>'])) = some (cs ++ ds, [])) :
    cutTag quote (cs ++ ['>']) = some (cs, []) := by
  induction cs generalizing quote with
  | nil =>
      cases quote with
      | none => rfl
      | some q =>
          have hnone : q ∉ ds ++ ['>'] := by
            intro hq
            rcases List.mem_append.mp hq with hq | hq
            · rcases hquote q rfl with rfl | rfl
              · exact (hds _ hq).1 rfl
              · exact (hds _ hq).2 rfl
            · rw [List.mem_singleton] at hq
              rcases hquote q rfl with rfl | rfl
              · exact absurd hq (by decide)
              · exact absurd hq (by decide)
          rw [List.nil_append, cutTag_eq_none hnone] at h
          cases h
  | cons c cs ih =>
      rcases cutTag_cons_eq_some.mp h with ⟨-, hnil, -⟩ | ⟨hgoes, more, hmore, hcut⟩
      · cases hnil
      · have hnext : ∀ q ∈ nextQuote quote c, q = '"' ∨ q = '\'' := by
          intro q hq
          cases quote with
          | none =>
              rw [nextQuote] at hq
              split at hq
              · next hc =>
                obtain rfl := Option.some.inj hq
                exact hc
              · cases hq
          | some q' =>
              rw [nextQuote] at hq
              split at hq
              · cases hq
              · obtain rfl := Option.some.inj hq
                exact hquote q' rfl
        obtain rfl := (List.cons.inj hmore).2
        exact cutTag_cons_eq_some.mpr (.inr ⟨hgoes, cs, rfl, ih hnext hcut⟩)

/-- The bracket that closes a tag is found right behind a text and not inside it: quotes
come in pairs, and brackets stand only between quotes. -/
def IsPaired (cs : List Char) : Prop :=
  cutTag none (cs ++ ['>']) = some (cs, [])

instance (cs : List Char) : Decidable (IsPaired cs) :=
  inferInstanceAs (Decidable (cutTag none (cs ++ ['>']) = some (cs, [])))

/-- Behind a text with paired quotes the search for the bracket goes on as in front of
it. -/
theorem IsPaired.cutTag_append {cs : List Char} (h : IsPaired cs) (ds : List Char) :
    cutTag none (cs ++ ds) = (cutTag none ds).map fun cut => (cs ++ cut.1, cut.2) :=
  cutTag_append_of_cut h ds

theorem isPaired_of_plain {cs : List Char} (h : ∀ c ∈ cs, c ≠ '>' ∧ c ≠ '"' ∧ c ≠ '\'') :
    IsPaired cs := by
  rw [IsPaired, cutTag_append_plain h]
  simp [cutTag]

theorem IsPaired.append {cs ds : List Char} (h : IsPaired cs) (h' : IsPaired ds) :
    IsPaired (cs ++ ds) := by
  rw [IsPaired, List.append_assoc, h.cutTag_append, h']
  rfl

theorem IsPaired.of_append {cs ds : List Char} (h : IsPaired (cs ++ ds))
    (hds : ∀ d ∈ ds, d ≠ '"' ∧ d ≠ '\'') : IsPaired cs := by
  rw [IsPaired, List.append_assoc] at h
  exact cutTag_of_append (by simp) hds h

theorem isPaired_slash : IsPaired ['/'] := rfl

/-- The slash of an empty element closes no quote. -/
theorem IsPaired.of_append_slash {cs : List Char} (h : IsPaired (cs ++ ['/'])) : IsPaired cs := by
  apply h.of_append
  intro c hc
  rw [List.mem_singleton.mp hc]
  decide

theorem IsPaired.of_cons {c : Char} {cs : List Char} (h : IsPaired (c :: cs))
    (hc : c ≠ '"' ∧ c ≠ '\'') : IsPaired cs := by
  rcases cutTag_cons_eq_some.mp h with ⟨-, hnil, -⟩ | ⟨-, more, hmore, hcut⟩
  · cases hnil
  · obtain rfl := (List.cons.inj hmore).2
    have hquote : nextQuote none c = none := if_neg (by simp [hc])
    rw [hquote] at hcut
    exact hcut

/-- No bracket follows a part with paired quotes of what is cut off. -/
theorem IsPaired.not_bracket {front back : List Char} (h : IsPaired (front ++ '>' :: back)) :
    ¬ IsPaired front := by
  intro hfront
  have hcut := hfront.cutTag_append ('>' :: (back ++ ['>']))
  rw [IsPaired, List.append_assoc, List.cons_append, hcut] at h
  simp [cutTag] at h

end Token

/-! ## Tags -/

/-- What stands between the brackets of a written tag. -/
def writtenTag (name : String) (attributes : List Attribute) : List Char :=
  name.toList ++ attributes.flatMap Tree.renderAttribute

/-- An element whose tag can be written. -/
structure IsTag (name : String) (attributes : List Attribute) : Prop where
  name : IsName name.toList
  keys : ∀ a ∈ attributes, IsKey a.key.toList
  distinct : (attributes.map Attribute.key).Nodup

instance (key : List Char) : Decidable (IsKey key) :=
  decidable_of_iff (key ≠ [] ∧ key.all isNameCharacter = true)
    ⟨fun h => ⟨h.1, List.all_eq_true.mp h.2⟩, fun h => ⟨h.nonempty, List.all_eq_true.mpr h.plain⟩⟩

instance (name : List Char) : Decidable (IsName name) :=
  decidable_of_iff (IsKey name ∧ name.head?.all (fun c => c != '!' && c != '?') = true)
    ⟨fun h => ⟨h.1, by simpa [Option.all_eq_true] using h.2⟩,
      fun h => ⟨h.toIsKey, by simpa [Option.all_eq_true] using h.markup⟩⟩

instance (value : List Char) : Decidable (IsValue value) :=
  decidable_of_iff (value ≠ [] ∧ value.head?.all (fun c => !isWhitespace c) = true ∧
      value.getLast?.all (fun c => !isWhitespace c) = true)
    ⟨fun h => ⟨h.1, by simpa [Option.all_eq_true] using h.2.1,
        by simpa [Option.all_eq_true] using h.2.2⟩,
      fun h => ⟨h.nonempty, by simpa [Option.all_eq_true] using h.head,
        by simpa [Option.all_eq_true] using h.last⟩⟩

instance (name : String) (attributes : List Attribute) : Decidable (IsTag name attributes) :=
  decidable_of_iff (IsName name.toList ∧
      attributes.all (fun a => decide (IsKey a.key.toList)) = true ∧
        (attributes.map Attribute.key).Nodup)
    ⟨fun h => ⟨h.1, by simpa using h.2.1, h.2.2⟩,
      fun h => ⟨h.name, by simpa using h.keys, h.distinct⟩⟩

theorem IsKey.not_cut {key : List Char} (h : IsKey key) :
    ∀ c ∈ key, c ≠ '>' ∧ c ≠ '"' ∧ c ≠ '\'' := by
  intro c hc
  obtain ⟨-, hdouble, hsingle, -, hbracket, -⟩ := isNameCharacter_iff.mp (h.plain c hc)
  exact ⟨hbracket, hdouble, hsingle⟩

theorem IsKey.not_blank {key : List Char} (h : IsKey key) : ∀ c ∈ key, isBlank c = false := by
  intro c hc
  exact (isNameCharacter_iff.mp (h.plain c hc)).1

theorem IsKey.ne_slash {key : List Char} (h : IsKey key) : ∀ c ∈ key, c ≠ '/' := by
  intro c hc
  exact (isNameCharacter_iff.mp (h.plain c hc)).2.2.2.2.2.2

/-- A key as the reader splits it off: it begins with something that is not blank, and goes
on to the next equals sign or blank. -/
structure IsSplitKey (key : List Char) : Prop where
  nonempty : key ≠ []
  head : ∀ c ∈ key.head?, isBlank c = false
  tail : ∀ c ∈ key.tail, Attribute.inKey c = true

/-- An element as the reader splits its tag. -/
structure IsSplitTag (name : String) (attributes : List Attribute) : Prop where
  unbroken : ∀ c ∈ name.toList, isBlank c = false
  markup : ∀ c ∈ name.toList.head?, c ≠ '/' ∧ c ≠ '!' ∧ c ≠ '?'
  keys : ∀ a ∈ attributes, IsSplitKey a.key.toList
  distinct : (attributes.map Attribute.key).Nodup

/-- The tags of an element are cut out of its written form as they were written.  An empty
element has one tag, which is closed by a slash; any other has two. -/
structure IsLegible (name : String) (attributes : List Attribute) (isEmpty : Bool) : Prop where
  paired : Token.IsPaired (writtenTag name attributes)
  marked : isEmpty = true → writtenTag name attributes ≠ []
  opens : isEmpty = false → (writtenTag name attributes).getLast? ≠ some '/'
  closes : isEmpty = false → Token.IsPaired name.toList

theorem isLegible_iff {name : String} {attributes : List Attribute} {isEmpty : Bool} :
    IsLegible name attributes isEmpty ↔ Token.IsPaired (writtenTag name attributes) ∧
      (isEmpty = true → writtenTag name attributes ≠ []) ∧
      (isEmpty = false → (writtenTag name attributes).getLast? ≠ some '/') ∧
      (isEmpty = false → Token.IsPaired name.toList) :=
  ⟨fun h => ⟨h.paired, h.marked, h.opens, h.closes⟩, fun h => ⟨h.1, h.2.1, h.2.2.1, h.2.2.2⟩⟩

instance (name : String) (attributes : List Attribute) (isEmpty : Bool) :
    Decidable (IsLegible name attributes isEmpty) :=
  decidable_of_iff _ isLegible_iff.symm

theorem isBlank_of_inKey {c : Char} (h : isNameCharacter c = true) : Attribute.inKey c = true := by
  obtain ⟨hblank, -, -, -, -, hequals, -⟩ := isNameCharacter_iff.mp h
  simp [Attribute.inKey, hblank, hequals]

theorem IsKey.split {key : List Char} (h : IsKey key) : IsSplitKey key := by
  constructor
  · exact h.nonempty
  · intro c hc
    exact h.not_blank c (List.mem_of_mem_head? hc)
  · intro c hc
    exact isBlank_of_inKey (h.plain c (List.mem_of_mem_tail hc))

theorem IsSplitKey.not_blank {key : List Char} (h : IsSplitKey key) :
    ∀ c ∈ key, isBlank c = false := by
  intro c hc
  cases key with
  | nil => cases hc
  | cons first more =>
      rcases List.mem_cons.mp hc with rfl | hc
      · exact h.head c rfl
      · have hin := h.tail c hc
        rw [Attribute.inKey, Bool.not_eq_true', Bool.or_eq_false_iff] at hin
        exact hin.2

/-- A tag that can be written is split as it was written. -/
theorem IsTag.split {name : String} {attributes : List Attribute} (h : IsTag name attributes) :
    IsSplitTag name attributes := by
  constructor
  · exact h.name.not_blank
  · intro c hc
    exact ⟨h.name.ne_slash c (List.mem_of_mem_head? hc), h.name.markup c hc⟩
  · intro a ha
    exact (h.keys a ha).split
  · exact h.distinct

namespace Token

variable {name : String} {attributes : List Attribute}

theorem isPaired_renderAttribute {a : Attribute} (h : IsKey a.key.toList) :
    IsPaired (Tree.renderAttribute a) := by
  have hfront : ∀ c ∈ ' ' :: a.key.toList ++ ['='], c ≠ '>' ∧ c ≠ '"' ∧ c ≠ '\'' := by
    intro c hc
    rcases List.mem_append.mp hc with hc | hc
    · rcases List.mem_cons.mp hc with rfl | hc
      · decide
      · exact h.not_cut c hc
    · rw [List.mem_singleton.mp hc]
      decide
  have hvalue : '"' ∉ Entity.escape a.value.toList :=
    Entity.not_mem_escape_of_special _ (by simp)
  have hquoted : IsPaired ('"' :: (Entity.escape a.value.toList ++ ['"'])) := by
    rw [IsPaired, List.cons_append, cutTag, if_neg (by decide), List.append_assoc]
    have hcut := cutTag_append_quoted hvalue ['>']
    simp only [List.cons_append, List.nil_append] at hcut ⊢
    rw [if_pos (by decide), hcut]
    rfl
  have hsplit : Tree.renderAttribute a = (' ' :: a.key.toList ++ ['=']) ++
      '"' :: (Entity.escape a.value.toList ++ ['"']) := by
    simp [Tree.renderAttribute]
  rw [hsplit]
  exact (isPaired_of_plain hfront).append hquoted

/-- A bracket is not found inside a tag that can be written. -/
theorem isPaired_writtenTag (h : IsTag name attributes) : IsPaired (writtenTag name attributes) := by
  have hattributes : IsPaired (attributes.flatMap Tree.renderAttribute) := by
    obtain ⟨-, hkeys, -⟩ := h
    induction attributes with
    | nil => rfl
    | cons a attributes ih =>
        rw [List.flatMap_cons]
        exact (isPaired_renderAttribute (hkeys a (by simp))).append
          (ih fun b hb => hkeys b (by simp [hb]))
  exact (isPaired_of_plain h.name.not_cut).append hattributes

theorem getLast_renderAttribute (a : Attribute) :
    (Tree.renderAttribute a).getLast? = some '"' := by
  rw [Tree.renderAttribute, List.getLast?_concat]

theorem getLast_writtenTag (h : IsTag name attributes) :
    (writtenTag name attributes).getLast? ≠ some '/' := by
  intro hlast
  rw [writtenTag, List.getLast?_append] at hlast
  rcases List.eq_nil_or_concat attributes with hnil | ⟨front, a, hattributes⟩
  · rw [hnil, List.flatMap_nil, List.getLast?_nil, Option.none_or] at hlast
    exact h.name.ne_slash _ (List.mem_of_getLast? hlast) rfl
  · rw [hattributes, List.concat_eq_append, List.flatMap_append, List.getLast?_append,
      List.flatMap_singleton, getLast_renderAttribute] at hlast
    simp at hlast

/-- What can be written is legible. -/
theorem isLegible_of_isTag (h : IsTag name attributes) (isEmpty : Bool) :
    IsLegible name attributes isEmpty := by
  constructor
  · exact isPaired_writtenTag h
  · intro _ hnil
    exact h.name.nonempty (List.append_eq_nil_iff.mp hnil).1
  · intro _
    exact getLast_writtenTag h
  · intro _
    exact isPaired_of_plain h.name.not_cut

/-- A written tag does not look like other markup. -/
theorem head_writtenTag (h : IsSplitTag name attributes) :
    ∀ c ∈ (writtenTag name attributes).head?, c ≠ '/' ∧ c ≠ '!' ∧ c ≠ '?' := by
  intro c hc
  rw [writtenTag] at hc
  cases hname : name.toList with
  | nil =>
      rw [hname, List.nil_append] at hc
      cases attributes with
      | nil => cases hc
      | cons a attributes =>
          have hblank : c = ' ' := by
            simpa [Tree.renderAttribute, eq_comm] using hc
          rw [hblank]
          decide
  | cons d rest =>
      rw [hname] at hc
      have hmarkup := h.markup
      rw [hname] at hmarkup
      exact hmarkup c hc

/-- Nor does it with what ends the tag. -/
theorem head_writtenTag_append (h : IsSplitTag name attributes) {c : Char}
    (hc : c ≠ '!' ∧ c ≠ '?') (cs : List Char) :
    ∀ d ∈ (writtenTag name attributes ++ c :: cs).head?, d ≠ '!' ∧ d ≠ '?' := by
  intro d hd
  cases htag : writtenTag name attributes with
  | nil =>
      rw [htag, List.nil_append] at hd
      exact Option.some.inj hd ▸ hc
  | cons e rest =>
      rw [htag, List.cons_append] at hd
      exact (head_writtenTag h d (by rw [htag]; exact hd)).2

/-- What does not look like other markup is a tag. -/
theorem scanMarkup_eq {cs : List Char} (hne : cs ≠ [])
    (h : ∀ c ∈ cs.head?, c ≠ '!' ∧ c ≠ '?') : scanMarkup cs = scanTag cs := by
  cases cs with
  | nil => exact absurd rfl hne
  | cons c rest =>
      have hc := h c rfl
      unfold scanMarkup
      split <;> simp_all

theorem ofTag_opening {content : List Char} (hhead : ∀ c ∈ content.head?, c ≠ '/')
    (hlast : content.getLast? ≠ some '/') : ofTag content = .tag content false := by
  unfold ofTag
  split
  · exact absurd rfl (hhead '/' rfl)
  · rw [if_neg hlast]

theorem ofTag_empty {content : List Char} (hhead : ∀ c ∈ content.head?, c ≠ '/')
    (hne : content ≠ []) : ofTag (content ++ ['/']) = .tag content true := by
  unfold ofTag
  split
  · next heq =>
    cases content with
    | nil => exact absurd rfl hne
    | cons c rest =>
        rw [List.cons_append, List.cons.injEq] at heq
        exact absurd heq.1 (hhead c rfl)
  · rw [if_pos (by simp), List.dropLast_concat]

theorem ofTag_closing {name : List Char} (h : ∀ c ∈ name, isBlank c = false) :
    ofTag ('/' :: name) = .close name := by
  have hkept : dropEndWhile isBlank name = name := by
    have hnone : dropEndWhile isBlank (name ++ []) = name :=
      dropEndWhile_append (by simp) fun c hc => h c (List.mem_of_getLast? hc)
    rwa [List.append_nil] at hnone
  rw [ofTag, hkept]
  simp

/-! ## Tokens -/

theorem scan_eq_nil {cs : List Char} (h : next? cs = none) : scan cs = [] := by
  rw [scan]
  split
  · rfl
  · next hskip => simp [h] at hskip
  · next hbroken => simp [h] at hbroken
  · next hnext => simp [h] at hnext

theorem scan_eq_scan {cs rest : List Char} (h : next? cs = some (none, rest)) :
    scan cs = scan rest := by
  rw [scan]
  split
  · next hnone => simp [h] at hnone
  · next hskip =>
    rw [h, Option.some.injEq, Prod.mk.injEq] at hskip
    rw [hskip.2]
  · next hbroken => simp [h] at hbroken
  · next hnext => simp [h] at hnext

theorem scan_eq_broken {cs rest : List Char} {fault : TokenFault}
    (h : next? cs = some (some (.broken fault), rest)) : scan cs = [(.broken fault, rest)] := by
  rw [scan]
  split
  · next hnone => simp [h] at hnone
  · next hskip => simp [h] at hskip
  · next hbroken =>
    rw [h, Option.some.injEq, Prod.mk.injEq, Option.some.injEq] at hbroken
    rw [hbroken.1, hbroken.2]
  · next hwhole hnext =>
    rw [h, Option.some.injEq, Prod.mk.injEq, Option.some.injEq] at hnext
    exact absurd hnext.1.symm (hwhole fault)

theorem scan_eq_cons {cs rest : List Char} {token : Token}
    (h : next? cs = some (some token, rest)) (hwhole : ∀ fault, token ≠ .broken fault) :
    scan cs = (token, rest) :: scan rest := by
  rw [scan]
  split
  · next hnone => simp [h] at hnone
  · next hskip => simp [h] at hskip
  · next fault _ hbroken =>
    rw [h, Option.some.injEq, Prod.mk.injEq, Option.some.injEq] at hbroken
    exact absurd hbroken.1 (hwhole fault)
  · next hnext =>
    rw [h, Option.some.injEq, Prod.mk.injEq, Option.some.injEq] at hnext
    rw [hnext.1, hnext.2]

/-- The scanner passes over blanks. -/
theorem scan_blanks {blanks : List Char} (h : ∀ c ∈ blanks, isBlank c = true) (cs : List Char) :
    scan (blanks ++ cs) = scan cs := by
  have hnext : next? (blanks ++ cs) = next? cs := by
    rw [next?, List.dropWhile_append_of_pos h]
    rfl
  rw [scan.eq_def (blanks ++ cs), scan.eq_def cs]
  split <;> split <;> grind

/-- Nothing but blanks is left. -/
theorem scan_of_blank {cs : List Char} (h : ∀ c ∈ cs, isBlank c = true) : scan cs = [] := by
  have hnil : scan [] = [] := by
    rw [scan]
    rfl
  have hscan := scan_blanks h []
  rwa [List.append_nil, hnil] at hscan

theorem scan_markup {cs rest : List Char} {token : Token}
    (h : scanMarkup cs = (some token, rest)) (hwhole : ∀ fault, token ≠ .broken fault) :
    scan ('<' :: cs) = (token, rest) :: scan rest := by
  refine scan_eq_cons ?_ hwhole
  rw [next?, List.dropWhile_cons_of_neg (by decide)]
  simp only [h]

theorem scan_opening (h : IsSplitTag name attributes) (hlegible : IsLegible name attributes false)
    (cs : List Char) :
    scan ('<' :: (writtenTag name attributes ++ '>' :: cs)) =
      (.tag (writtenTag name attributes) false, cs) :: scan cs := by
  have hhead := head_writtenTag h
  have hmarkup := head_writtenTag_append h (c := '>') (by decide) cs
  apply scan_markup
  · rw [scanMarkup_eq (by simp) hmarkup, scanTag, hlegible.paired.cutTag_append]
    simp [cutTag, ofTag_opening (fun c hc => (hhead c hc).1) (hlegible.opens rfl)]
  · intro fault
    exact Token.noConfusion

theorem scan_empty (h : IsSplitTag name attributes) (hlegible : IsLegible name attributes true)
    (cs : List Char) :
    scan ('<' :: (writtenTag name attributes ++ '/' :: '>' :: cs)) =
      (.tag (writtenTag name attributes) true, cs) :: scan cs := by
  have hhead := head_writtenTag h
  have hne := hlegible.marked rfl
  have hmarkup := head_writtenTag_append h (c := '/') (by decide) ('>' :: cs)
  apply scan_markup
  · rw [scanMarkup_eq (by simp) hmarkup, scanTag, hlegible.paired.cutTag_append]
    simp [cutTag, ofTag_empty (fun c hc => (hhead c hc).1) hne]
  · intro fault
    exact Token.noConfusion

theorem scan_closing {name : List Char} (h : ∀ c ∈ name, isBlank c = false)
    (hpaired : IsPaired name) (cs : List Char) :
    scan ('<' :: '/' :: (name ++ '>' :: cs)) = (.close name, cs) :: scan cs := by
  apply scan_markup
  · have hslash : IsPaired (['/'] ++ name) := isPaired_slash.append hpaired
    have hend : cutTag none ('>' :: cs) = some ([], cs) := by rw [cutTag, if_pos rfl]
    have hcut : cutTag none ('/' :: (name ++ '>' :: cs)) = some ('/' :: name, cs) := by
      have happend := hslash.cutTag_append ('>' :: cs)
      rw [hend, Option.map_some, List.append_nil] at happend
      exact happend
    have hmarkup : scanMarkup ('/' :: (name ++ '>' :: cs)) =
        scanTag ('/' :: (name ++ '>' :: cs)) := rfl
    rw [hmarkup, scanTag, hcut]
    simp [ofTag_closing h]
  · intro fault
    exact Token.noConfusion

/-- Character data in front of a bracket is one token, without the blanks at its end. -/
theorem scan_characters {c : Char} {more : List Char} (hc : isBlank c = false)
    (h : '<' ∉ c :: more) (cs : List Char) :
    scan (c :: more ++ '<' :: cs) =
      (.text (dropEndWhile isBlank (c :: more)), '<' :: cs) :: scan ('<' :: cs) := by
  have hbracket : ∀ d ∈ c :: more, (d != '<') = true := by
    intro d hd
    rw [bne_iff_ne]
    rintro rfl
    exact h hd
  have hwritten : (c :: more ++ '<' :: cs).takeWhile (· != '<') = c :: more :=
    takeWhile_append_cons hbracket (by decide)
  have hrest : (c :: more ++ '<' :: cs).dropWhile (· != '<') = '<' :: cs :=
    dropWhile_append_cons hbracket (by decide)
  apply scan_eq_cons
  · rw [next?, List.cons_append, List.dropWhile_cons_of_neg (by simp [hc])]
    split
    · next hnil => cases hnil
    · next hopen => exact absurd (List.cons.inj hopen).1 (by simpa using hbracket c (by simp))
    · next d ds _ hcons => rw [← hcons, ← List.cons_append, hwritten, hrest]
  · intro fault
    exact Token.noConfusion

/-- A text in front of a bracket, with blanks between them. -/
theorem scan_text {value blanks : List Char} (h : IsValue value)
    (hblanks : ∀ c ∈ blanks, isBlank c = true) (cs : List Char) :
    scan (Entity.escape value ++ blanks ++ '<' :: cs) =
      (.text (Entity.escape value), '<' :: cs) :: scan ('<' :: cs) := by
  obtain ⟨hne, hhead, hlast⟩ := h.escape
  have hbracket : '<' ∉ Entity.escape value ++ blanks := by
    intro hc
    rcases List.mem_append.mp hc with hc | hc
    · exact Entity.not_mem_escape_of_special value (by simp) hc
    · exact absurd (hblanks _ hc) (by decide)
  have htrimmed := dropEndWhile_append hblanks hlast
  cases hvalue : Entity.escape value with
  | nil => exact absurd hvalue hne
  | cons c more =>
      rw [hvalue] at hhead hbracket htrimmed
      rw [List.cons_append] at hbracket htrimmed ⊢
      rw [scan_characters (hhead c rfl) hbracket, htrimmed]

end Token

/-! ## Attributes -/

namespace Attribute

theorem readKey_written {key : List Char} (h : IsSplitKey key) (total : Nat) (cs : List Char) :
    ∃ position, readKey total (key ++ '=' :: cs) = .ok ((key, position), cs) := by
  cases key with
  | nil => exact absurd rfl h.nonempty
  | cons c more =>
      have hkey : (more ++ '=' :: cs).takeWhile inKey = more :=
        takeWhile_append_cons h.tail (by decide)
      have hrest : (more ++ '=' :: cs).dropWhile inKey = '=' :: cs :=
        dropWhile_append_cons h.tail (by decide)
      refine ⟨total - byteLength (c :: (more ++ '=' :: cs)), ?_⟩
      rw [List.cons_append, readKey]
      simp only [hkey, hrest]
      rfl

theorem cutAt_quote {written : List Char} (h : '"' ∉ written) (cs : List Char) :
    cutAt ['"'] (written ++ '"' :: cs) = some (written, cs) := by
  induction written with
  | nil => rfl
  | cons c written ih =>
      rw [List.mem_cons, not_or] at h
      have hprefix : ['"'].isPrefixOf (c :: (written ++ '"' :: cs)) = false := by
        simp [List.isPrefixOf, h.1]
      rw [List.cons_append, cutAt, hprefix, ih h.2]
      rfl

theorem readValue_written (total : Nat) (value cs : List Char) :
    readValue total ('"' :: (Entity.escape value ++ '"' :: cs)) =
      .ok (Entity.escape value, cs) := by
  have hquote : '"' ∉ Entity.escape value := Entity.not_mem_escape_of_special value (by simp)
  rw [readValue, List.dropWhile_cons_of_neg (by decide)]
  simp only [cutAt_quote hquote]
  rfl

/-- One attribute is read, then those behind it. -/
theorem readFrom_cons {total position : Nat} {earlier : List (List Char × Nat)}
    {cs key afterKey written rest value : List Char} (hblank : cs.all isBlank = false)
    (hkey : readKey total (cs.dropWhile isBlank) = .ok ((key, position), afterKey))
    (hearlier : earlier.lookup key = none)
    (hvalue : readValue total afterKey = .ok (written, rest))
    (hwritten : Entity.unescape written = .ok value) :
    readFrom total earlier cs =
      (readFrom total ((key, position) :: earlier) rest).map
        fun others => ⟨String.ofList key, String.ofList value⟩ :: others := by
  rw [readFrom, if_neg (by simp [hblank])]
  split
  · next hfault => simp [hkey] at hfault
  · next hread =>
    rw [hkey, Except.ok.injEq, Prod.mk.injEq, Prod.mk.injEq] at hread
    obtain ⟨⟨rfl, rfl⟩, rfl⟩ := hread
    split
    · next hrepeated => simp [hearlier] at hrepeated
    · split
      · next hfault => simp [hvalue] at hfault
      · next hread =>
        rw [hvalue, Except.ok.injEq, Prod.mk.injEq] at hread
        obtain ⟨rfl, rfl⟩ := hread
        rw [hwritten]
        cases readFrom total ((key, position) :: earlier) rest <;> rfl

/-- The attributes of a written tag are read in order. -/
theorem readFrom_written {attributes : List Attribute}
    (hkeys : ∀ a ∈ attributes, IsSplitKey a.key.toList)
    (hdistinct : (attributes.map Attribute.key).Nodup) (total : Nat)
    (earlier : List (List Char × Nat))
    (hearlier : ∀ a ∈ attributes, earlier.lookup a.key.toList = none) :
    readFrom total earlier (attributes.flatMap Tree.renderAttribute) = .ok attributes := by
  induction attributes generalizing earlier with
  | nil =>
      rw [readFrom]
      rfl
  | cons a attributes ih =>
      have hkey := hkeys a (by simp)
      obtain ⟨hnew, hdistinct⟩ := List.nodup_cons.mp hdistinct
      have hsplit : (a :: attributes).flatMap Tree.renderAttribute =
          ' ' :: (a.key.toList ++ '=' :: '"' :: (Entity.escape a.value.toList ++
            '"' :: attributes.flatMap Tree.renderAttribute)) := by
        simp [Tree.renderAttribute]
      have hfront : ∀ cs, (' ' :: (a.key.toList ++ cs)).dropWhile isBlank = a.key.toList ++ cs := by
        intro cs
        cases hcons : a.key.toList with
        | nil => exact absurd hcons hkey.nonempty
        | cons c more =>
            have hc : isBlank c = false := hkey.not_blank c (by simp [hcons])
            rw [List.dropWhile_cons_of_pos (by decide), List.cons_append,
              List.dropWhile_cons_of_neg (by simp [hc])]
      obtain ⟨position, hread⟩ := readKey_written hkey total
        ('"' :: (Entity.escape a.value.toList ++ '"' :: attributes.flatMap Tree.renderAttribute))
      have hrest := ih (fun b hb => hkeys b (by simp [hb])) hdistinct
        ((a.key.toList, position) :: earlier) (by
          intro b hb
          have hne : b.key.toList ≠ a.key.toList := by
            intro heq
            rw [String.toList_inj] at heq
            exact hnew (heq ▸ List.mem_map_of_mem hb)
          rw [List.lookup_cons, beq_false_of_ne hne]
          exact hearlier b (by simp [hb]))
      have hstep := readFrom_cons (by simp [isBlank])
        ((congrArg (readKey total) (hfront _)).trans hread) (hearlier a (by simp))
        (readValue_written total a.value.toList _) (Entity.unescape_escape _)
      rw [hsplit, hstep, hrest, String.ofList_toList, String.ofList_toList]
      rfl

theorem tagName_written {name : String} {attributes : List Attribute}
    (h : IsSplitTag name attributes) : tagName (writtenTag name attributes) = name.toList := by
  have hname : ∀ c ∈ name.toList, (!isBlank c) = true := by
    intro c hc
    rw [h.unbroken c hc]
    rfl
  rw [tagName, writtenTag]
  cases attributes with
  | nil => simpa using hname
  | cons a attributes => exact takeWhile_append_cons hname (by decide)

theorem ofTagContent_written {name : String} {attributes : List Attribute}
    (h : IsSplitTag name attributes) :
    ofTagContent (writtenTag name attributes) = .ok attributes := by
  have hname : ∀ c ∈ name.toList, (!isBlank c) = true := by
    intro c hc
    rw [h.unbroken c hc]
    rfl
  have hrest : (writtenTag name attributes).dropWhile (fun c => !isBlank c) =
      attributes.flatMap Tree.renderAttribute := by
    rw [writtenTag]
    cases attributes with
    | nil => simpa using hname
    | cons a attributes => exact dropWhile_append_cons hname (by decide)
  rw [ofTagContent, hrest]
  exact readFrom_written h.keys h.distinct _ [] fun a _ => rfl

end Attribute

end RouteCompiler.Route
