import RouteCompiler.Proofs.Document.Rereading
import RouteCompiler.Proofs.Document.Trimming

/-!
# Pieces of character data

What stands in an element that holds no other element is character data, verbatim sections and
comments.  The scanner makes at most one token of each of them.  It takes blanks off character
data and passes over what is blank altogether, so that a token says less than its piece, but
nothing is missing that would not be trimmed off.

Main definitions:

- `Piece`: character data, a verbatim section or a comment.
- `Piece.AreWhole`: pieces that are found again where they are written.
- `Piece.read`: the characters that a piece stands for.

Main results:

- Lemma `unescape_append`: entities are read in every part of a text as in the whole.
- Lemma `tokens_writtenAll`: the tokens of written pieces.
- Lemmas `exists_read_of_token` and `exists_read_of_no_token`: a piece and its token say the
  same, up to white space at the ends.
-/

namespace RouteCompiler.Route

open RouteCompiler.Text

/-! ## Cutting -/

/-- What is cut off at the end of a text would be cut off from anything that begins so. -/
theorem cutAt_append {pattern cs : List Char} (h : cutAt pattern (cs ++ pattern) = some (cs, []))
    (rest : List Char) : cutAt pattern (cs ++ pattern ++ rest) = some (cs, rest) := by
  induction cs with
  | nil =>
      cases pattern with
      | nil => cases rest <;> simp [cutAt]
      | cons c pattern => simp [cutAt]
  | cons c cs ih =>
      simp only [List.cons_append, cutAt] at h ⊢
      split at h
      · cases h
      · next hnot =>
        obtain ⟨cut, hcut, heq⟩ := Option.map_eq_some_iff.mp h
        obtain ⟨⟨rfl⟩, hrest⟩ := Prod.mk.inj heq
        have hnot' : pattern.isPrefixOf (c :: (cut.1 ++ pattern ++ rest)) = false := by
          rw [← Bool.not_eq_true, List.isPrefixOf_iff_prefix]
          rw [List.isPrefixOf_iff_prefix] at hnot
          have hfront : c :: (cut.1 ++ pattern) <+: c :: (cut.1 ++ pattern ++ rest) :=
            List.prefix_append (c :: (cut.1 ++ pattern)) rest
          exact fun hprefix =>
            hnot (List.prefix_of_prefix_length_le hprefix hfront (by simp; omega))
        rw [hnot', ih (hcut.trans (congrArg some (Prod.ext rfl hrest)))]
        rfl

/-- A pattern is not found in front of its first character. -/
theorem cutAt_append_of_not_mem {c : Char} {pattern front : List Char}
    (hfirst : pattern.head? = some c) (h : c ∉ front) (cs : List Char) :
    cutAt pattern (front ++ cs) = (cutAt pattern cs).map fun cut => (front ++ cut.1, cut.2) := by
  obtain ⟨more, rfl⟩ := List.head?_eq_some_iff.mp hfirst
  induction front with
  | nil => simp
  | cons d front ih =>
      rw [List.mem_cons, not_or] at h
      simp only [List.cons_append, cutAt, List.isPrefixOf, beq_false_of_ne h.1, Bool.false_and,
        Bool.false_eq_true, if_false, ih h.2, Option.map_map]
      rfl

/-! ## Entities -/

namespace Entity

variable {total total' start : Nat} {cs ds us vs : List Char}

/-- Which character an entity stands for does not depend on where it stands. -/
theorem resolve_start {name : List Char} {c : Char} (h : resolve start name = .ok c)
    (start' : Nat) : resolve start' name = .ok c := by
  unfold resolve at h ⊢
  split at h
  · exact h
  · split at h
    · exact h
    · cases h

/-- Entities are read in the beginning of a text, and in what follows, as in the whole. -/
theorem unescapeFrom_append (h : unescapeFrom total cs = .ok us)
    (h' : unescapeFrom total' ds = .ok vs) :
    unescapeFrom total' (cs ++ ds) = .ok (us ++ vs) := by
  induction cs using unescapeFrom.induct total generalizing us with
  | case1 =>
      rw [unescapeFrom] at h
      rw [← Except.ok.inj h]
      exact h'
  | case2 cs rest hrest ih =>
      have hname : ∀ c ∈ cs.takeWhile (fun c => !endsEntity c), endsEntity c = false :=
        fun c hc => by simpa using List.mem_takeWhile_imp hc
      have hcs : cs = cs.takeWhile (fun c => !endsEntity c) ++ ';' :: rest := by
        rw [← hrest, List.takeWhile_append_dropWhile]
      rw [hcs, unescapeFrom_entity hname] at h
      obtain ⟨c, hc, h⟩ := Outcome.of_bind_eq_ok h
      obtain ⟨tail, htail, h⟩ := Outcome.of_bind_eq_ok h
      rw [hcs, List.cons_append, List.append_assoc, List.cons_append, unescapeFrom_entity hname,
        resolve_start hc, ih htail, ← Except.ok.inj h]
      rfl
  | case3 cs hno =>
      rw [unescapeFrom] at h
      simp only [if_pos] at h
      cases h
  | case4 c cs hc ih =>
      rw [unescapeFrom_plain hc] at h
      obtain ⟨tail, htail, h⟩ := Outcome.of_bind_eq_ok h
      rw [List.cons_append, unescapeFrom_plain hc, ih htail, ← Except.ok.inj h]
      rfl

/-- Entities are read in every part of a text as in the whole. -/
theorem unescape_append (h : unescape cs = .ok us) (h' : unescape ds = .ok vs) :
    unescape (cs ++ ds) = .ok (us ++ vs) := by
  have hnil : unescapeFrom (byteLength (cs ++ ds)) [] = .ok [] := by rw [unescapeFrom]
  have hrest := unescapeFrom_append h' hnil
  rw [List.append_nil, List.append_nil] at hrest
  exact unescapeFrom_append h hrest

/-- A text without ampersands stands for itself. -/
theorem unescape_of_plain (h : '&' ∉ cs) : unescape cs = .ok cs := by
  rw [unescape]
  generalize byteLength cs = total
  induction cs with
  | nil => rw [unescapeFrom]
  | cons c cs ih =>
      rw [List.mem_cons, not_or] at h
      rw [unescapeFrom_plain (Ne.symm h.1), ih h.2]
      rfl

end Entity

/-! ## Pieces -/

/-- A piece of what is written in an element that holds no other element. -/
inductive Piece where
  /-- Character data as written, with entities. -/
  | text (written : List Char)
  /-- A verbatim section. -/
  | verbatim (content : List Char)
  | comment (content : List Char)

namespace Piece

/-- Whether a piece is character data. -/
def isText : Piece → Bool
  | text _ => true
  | verbatim _ | comment _ => false

/-- A piece with its marks. -/
def written : Piece → List Char
  | text written => written
  | verbatim content => '<' :: (Token.verbatimMark ++ content ++ "]]>".toList)
  | comment content => '<' :: ("!--".toList ++ content ++ "-->".toList)

/-- Pieces one behind the other. -/
def writtenAll (pieces : List Piece) : List Char :=
  pieces.flatMap written

/-- A piece does not end before its end. -/
def IsWhole : Piece → Prop
  | text written => '<' ∉ written
  | verbatim content => cutAt "]]>".toList (content ++ "]]>".toList) = some (content, [])
  | comment content => cutAt "-->".toList (content ++ "-->".toList) = some (content, [])

instance : DecidablePred IsWhole
  | text written => inferInstanceAs (Decidable ('<' ∉ written))
  | verbatim content =>
      inferInstanceAs (Decidable (cutAt "]]>".toList (content ++ "]]>".toList) = _))
  | comment content =>
      inferInstanceAs (Decidable (cutAt "-->".toList (content ++ "-->".toList) = _))

/-- Pieces that are found again where they are written: each of them ends at its end, and
something stands between character data. -/
structure AreWhole (pieces : List Piece) : Prop where
  whole : ∀ piece ∈ pieces, piece.IsWhole
  apart : pieces.IsChain fun piece next => (piece.isText && next.isText) = false

theorem AreWhole.tail {piece : Piece} {pieces : List Piece} (h : AreWhole (piece :: pieces)) :
    AreWhole pieces :=
  ⟨fun next hnext => h.whole next (List.mem_cons_of_mem _ hnext), h.apart.tail⟩

/-- Between the tag of an element and its closing tag stand some pieces.  An empty element has
no closing tag. -/
def Fill (pieces : List Piece) (unread : List Char) : Bool → Prop
  | true => pieces = []
  | false => ∃ rest, unread = writtenAll pieces ++ '<' :: '/' :: rest

/-- The characters that a piece stands for. -/
def read : Piece → Except Entity.Fault (List Char)
  | text written => Entity.unescape written
  | verbatim content => .ok content
  | comment _ => .ok []

/-- The token of a piece, unless the scanner passes over it. -/
def token? : Piece → Option Token
  | text written =>
      if written.all isBlank then none
      else some (.text (dropEndWhile isBlank (written.dropWhile isBlank)))
  | verbatim content => some (.verbatim content)
  | comment _ => none

end Piece

/-! ## The tokens of pieces -/

namespace Token

/-- Character data in front of a bracket is a token, unless it is blank. -/
theorem tokens_text {written : List Char} (h : '<' ∉ written) (rest : List Char) :
    tokens (written ++ '<' :: rest) =
      (Piece.text written).token?.toList ++ tokens ('<' :: rest) := by
  rw [Piece.token?]
  split
  · next hblank => exact tokens_blanks (by simpa using hblank) _
  · next hblank =>
    have hfront : tokens (written ++ '<' :: rest) =
        tokens (written.dropWhile isBlank ++ '<' :: rest) := by
      conv_lhs => rw [← List.takeWhile_append_dropWhile (p := isBlank) (l := written)]
      rw [List.append_assoc, tokens_blanks fun c hc => List.mem_takeWhile_imp hc]
    have hhead := @head_dropWhile isBlank written
    rw [hfront]
    cases hleft : written.dropWhile isBlank with
    | nil => exact absurd (by simpa using hleft) hblank
    | cons c more =>
        rw [hleft] at hhead
        have hbracket : '<' ∉ c :: more :=
          fun hc => h (List.dropWhile_sublist isBlank |>.mem (hleft ▸ hc))
        rw [tokens, scan_characters (hhead c rfl) hbracket]
        rfl

/-- A verbatim section is a token. -/
theorem tokens_verbatim {content : List Char} (h : (Piece.verbatim content).IsWhole)
    (rest : List Char) :
    tokens ((Piece.verbatim content).written ++ rest) = .verbatim content :: tokens rest := by
  have hcut : cutAt "]]>".toList (verbatimMark ++ content ++ "]]>".toList ++ rest) =
      some (verbatimMark ++ content, rest) := by
    have hfirst : "]]>".toList.head? = some ']' := by decide
    have hmark : ']' ∉ verbatimMark := by decide
    rw [List.append_assoc, List.append_assoc, ← List.append_assoc content,
      cutAt_append_of_not_mem hfirst hmark, cutAt_append h rest]
    rfl
  have hmarkup : scanMarkup (verbatimMark ++ content ++ "]]>".toList ++ rest) =
      (some (.verbatim content), rest) := by
    have hverbatim : scanMarkup (verbatimMark ++ content ++ "]]>".toList ++ rest) =
      scanVerbatim (verbatimMark ++ content ++ "]]>".toList ++ rest) := rfl
    rw [hverbatim, scanVerbatim, hcut]
    simp
  rw [Piece.written, tokens, List.cons_append, scan_markup hmarkup fun _ => Token.noConfusion]
  rfl

/-- The scanner passes over a comment. -/
theorem tokens_comment {content : List Char} (h : (Piece.comment content).IsWhole)
    (rest : List Char) : tokens ((Piece.comment content).written ++ rest) = tokens rest := by
  have hmarkup : scanMarkup ("!--".toList ++ content ++ "-->".toList ++ rest) = (none, rest) := by
    have hcomment : scanMarkup ("!--".toList ++ content ++ "-->".toList ++ rest) =
      scanComment ("!--".toList ++ content ++ "-->".toList ++ rest) := rfl
    have hdrop : ("!--".toList ++ content ++ "-->".toList ++ rest).drop 3 =
      content ++ "-->".toList ++ rest := rfl
    rw [hcomment, scanComment, hdrop, cutAt_append h rest]
    rfl
  have hnext : next? ((Piece.comment content).written ++ rest) = some (none, rest) := by
    rw [Piece.written, List.cons_append, next?, List.dropWhile_cons_of_neg (by decide)]
    simp only [hmarkup]
  rw [tokens, scan_eq_scan hnext, tokens]

/-- Every piece gives its token, if it has one. -/
theorem tokens_writtenAll {pieces : List Piece} (h : Piece.AreWhole pieces) (rest : List Char) :
    tokens (Piece.writtenAll pieces ++ '<' :: rest) =
      pieces.filterMap Piece.token? ++ tokens ('<' :: rest) := by
  induction pieces with
  | nil => rfl
  | cons piece pieces ih =>
      have hpiece := h.whole piece (by simp)
      rw [Piece.writtenAll, List.flatMap_cons, List.append_assoc, ← Piece.writtenAll]
      cases piece with
      | text written =>
          -- What follows character data begins with a bracket.
          have hbracket : ∃ more, Piece.writtenAll pieces ++ '<' :: rest = '<' :: more := by
            cases pieces with
            | nil => exact ⟨rest, rfl⟩
            | cons next pieces =>
                have hnext := (List.isChain_cons_cons.mp h.apart).1
                cases next with
                | text _ => cases hnext
                | verbatim _ | comment _ => exact ⟨_, rfl⟩
          obtain ⟨more, hmore⟩ := hbracket
          rw [hmore, Piece.written, tokens_text hpiece, ← hmore, ih h.tail, ← List.append_assoc,
            List.filterMap_cons]
          cases (Piece.text written).token? <;> rfl
      | verbatim content =>
          rw [tokens_verbatim hpiece, ih h.tail]
          rfl
      | comment content =>
          rw [tokens_comment hpiece, ih h.tail]
          rfl

end Token

/-! ## What pieces stand for -/

/-- Blanks stand for themselves. -/
theorem Entity.unescape_of_blank {cs : List Char} (h : ∀ c ∈ cs, isBlank c = true) :
    unescape cs = .ok cs :=
  unescape_of_plain fun hc => absurd (h _ hc) (by decide)

namespace Piece

variable {piece : Piece}

/-- A piece without a token stands for nothing, or for blanks. -/
theorem exists_read_of_no_token (h : piece.token? = none) :
    ∃ part, piece.read = .ok part ∧ trimChars part = [] := by
  cases piece with
  | text written =>
      rw [token?] at h
      split at h
      · next hall =>
        have hblank : ∀ c ∈ written, isBlank c = true := by simpa using hall
        exact ⟨written, Entity.unescape_of_blank hblank,
          trimChars_eq_nil_iff.mpr fun c hc => isWhitespace_of_isBlank (hblank c hc)⟩
      · cases h
  | verbatim content => cases h
  | comment content => exact ⟨[], rfl, rfl⟩

/-- A piece stands for what its token does, up to blanks at the ends. -/
theorem exists_read_of_token {token : Token} {characters : List Char}
    (h : piece.token? = some token) (htoken : Builder.characters? token = some characters) :
    ∃ part, piece.read = .ok part ∧ trimChars part = trimChars characters := by
  cases piece with
  | text written =>
      rw [token?] at h
      split at h
      · cases h
      · obtain rfl := Option.some.inj h
        obtain ⟨back, hback, hwritten⟩ :=
          exists_append_of_dropEndWhile isBlank (written.dropWhile isBlank)
        have hfront : ∀ c ∈ written.takeWhile isBlank, isBlank c = true :=
          fun c hc => List.mem_takeWhile_imp hc
        have hread := Entity.unescape_append (Entity.unescape_of_blank hfront)
          (Entity.unescape_append (Outcome.of_toOption_eq_some htoken)
            (Entity.unescape_of_blank hback))
        rw [← hwritten, List.takeWhile_append_dropWhile] at hread
        refine ⟨_, hread, ?_⟩
        rw [trimChars_append_of_blank_left fun c hc => isWhitespace_of_isBlank (hfront c hc),
          trimChars_append_of_blank_right fun c hc => isWhitespace_of_isBlank (hback c hc)]
  | verbatim content =>
      obtain rfl := Option.some.inj h
      exact ⟨content, rfl, by rw [← Option.some.inj htoken]⟩
  | comment content => cases h

end Piece

end RouteCompiler.Route
