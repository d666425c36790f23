import RouteCompiler.Proofs.Document.Building
import RouteCompiler.Proofs.Document.Contents
import Mathlib.Data.List.Chain

/-!
# What a reader makes

The reader is lenient, but what it makes is not arbitrary.  A tag is split at blanks and
equals signs, keys are not repeated, character data is trimmed, and pieces of it that
meet become one text.

Main definitions:

- `IsReadTag`: the elements that a reader makes of tags.
- `Tree.Tidy`: the trees that a reader makes.

Main results:

- Theorem `isReadTag_of_ofTagContent`: the parts of a tag that was read.
- Theorem `Reads.tidy`: every token keeps the trees tidy.
- Theorem `exists_tidy_of_parse`: a document that was read is one tidy tree.
- Theorem `holds_of_parse`: if its names and keys can be written, so can all it holds.
-/

namespace RouteCompiler.Route

open RouteCompiler.Text

/-! ## Trimmed text -/

theorem head_dropWhile {p : Char → Bool} {cs : List Char} :
    ∀ c ∈ (cs.dropWhile p).head?, p c = false := by
  intro c hc
  have hnot := List.head?_dropWhile_not p cs
  rwa [hc] at hnot

/-- What is dropped at the end of a text passes the test. -/
theorem exists_append_of_dropEndWhile (p : Char → Bool) (cs : List Char) :
    ∃ back, (∀ c ∈ back, p c = true) ∧ cs = dropEndWhile p cs ++ back := by
  refine ⟨(cs.reverse.takeWhile p).reverse, ?_, ?_⟩
  · intro c hc
    exact List.mem_takeWhile_imp (List.mem_reverse.mp hc)
  · rw [dropEndWhile, ← List.reverse_append, List.takeWhile_append_dropWhile,
      List.reverse_reverse]

/-- What is left of a text at its end begins as the text does. -/
theorem head_dropEndWhile {p : Char → Bool} {cs : List Char} :
    ∀ c ∈ (dropEndWhile p cs).head?, c ∈ cs.head? := by
  intro c hc
  obtain ⟨back, -, hcs⟩ := exists_append_of_dropEndWhile p cs
  rw [hcs, List.head?_append, Option.mem_def.mp hc]
  rfl

theorem getLast_dropEndWhile {p : Char → Bool} {cs : List Char} :
    ∀ c ∈ (dropEndWhile p cs).getLast?, p c = false := by
  intro c hc
  rw [dropEndWhile, List.getLast?_reverse] at hc
  exact head_dropWhile c hc

/-- What is left of a trimmed text can be written. -/
theorem isValue_trimChars {cs : List Char} (h : trimChars cs ≠ []) : IsValue (trimChars cs) := by
  constructor
  · exact h
  · intro c hc
    exact head_dropWhile c (head_dropEndWhile c hc)
  · exact getLast_dropEndWhile

/-- Whatever stands between them, two texts that can be written make one. -/
theorem IsValue.append {cs ds : List Char} (h : IsValue cs) (between : List Char)
    (h' : IsValue ds) : IsValue (cs ++ between ++ ds) := by
  constructor
  · intro hnil
    exact h.nonempty (List.append_eq_nil_iff.mp (List.append_eq_nil_iff.mp hnil).1).1
  · rw [List.append_assoc, head_append_of_ne_nil h.nonempty]
    exact h.head
  · rw [List.getLast?_append_of_ne_nil _ h'.nonempty]
    exact h'.last

/-! ## Tags -/

namespace Attribute

theorem split_of_readKey {total position : Nat} {cs key rest : List Char}
    (h : readKey total (cs.dropWhile isBlank) = .ok ((key, position), rest)) :
    IsSplitKey key := by
  have hhead := @head_dropWhile isBlank cs
  unfold readKey at h
  split at h
  · cases h
  · next first more heq =>
    rw [heq] at hhead
    split at h
    · simp only [Except.ok.injEq, Prod.mk.injEq] at h
      obtain ⟨⟨rfl, -⟩, -⟩ := h
      constructor
      · exact List.cons_ne_nil _ _
      · exact hhead
      · intro c hc
        exact List.mem_takeWhile_imp hc
    · cases h

/-- Attributes that were read: none is left, or one was read and then the others. -/
theorem readFrom_eq_ok {total : Nat} {earlier : List (List Char × Nat)} {cs : List Char}
    {attributes : List Attribute} (h : readFrom total earlier cs = .ok attributes) :
    (cs.all isBlank = true ∧ attributes = []) ∨
      ∃ key position afterKey written rest value others, cs.all isBlank = false ∧
        readKey total (cs.dropWhile isBlank) = .ok ((key, position), afterKey) ∧
        earlier.lookup key = none ∧ readValue total afterKey = .ok (written, rest) ∧
        Entity.unescape written = .ok value ∧
        readFrom total ((key, position) :: earlier) rest = .ok others ∧
        attributes = ⟨String.ofList key, String.ofList value⟩ :: others := by
  rw [readFrom] at h
  split at h
  · next hblank => exact .inl ⟨hblank, (Except.ok.inj h).symm⟩
  · next hblank =>
    split at h
    · cases h
    · next key position afterKey hkey =>
      split at h
      · cases h
      · next hnew =>
        split at h
        · cases h
        · next written rest hvalue =>
          obtain ⟨value, hunescape, h⟩ := Outcome.of_bind_eq_ok h
          obtain ⟨others, hothers, h⟩ := Outcome.of_bind_eq_ok h
          refine .inr ⟨key, position, afterKey, written, rest, value, others, ?_, hkey, hnew,
            hvalue, Outcome.of_mapError_eq_ok hunescape, hothers, (Except.ok.inj h).symm⟩
          rwa [Bool.not_eq_true] at hblank

/-- Keys that were read are split off as they were written, and none is repeated. -/
theorem split_of_readFrom {total : Nat} {earlier : List (List Char × Nat)} {cs : List Char}
    {attributes : List Attribute} (h : readFrom total earlier cs = .ok attributes) :
    (∀ a ∈ attributes, IsSplitKey a.key.toList ∧ earlier.lookup a.key.toList = none) ∧
      (attributes.map Attribute.key).Nodup := by
  induction attributes generalizing earlier cs with
  | nil => simp
  | cons a attributes ih =>
      rcases readFrom_eq_ok h with ⟨-, hnil⟩ | ⟨key, position, afterKey, written, rest, value,
        others, -, hkey, hnew, -, -, hothers, heq⟩
      · cases hnil
      · obtain ⟨rfl, rfl⟩ := List.cons.inj heq
        obtain ⟨hkeys, hdistinct⟩ := ih hothers
        have hne : ∀ b ∈ attributes, b.key.toList ≠ key ∧ earlier.lookup b.key.toList = none := by
          intro b hb
          have hlookup := (hkeys b hb).2
          rw [List.lookup_cons] at hlookup
          split at hlookup
          · cases hlookup
          · next hfalse => exact ⟨ne_of_beq_false hfalse, hlookup⟩
        constructor
        · intro b hb
          rcases List.mem_cons.mp hb with rfl | hb
          · rw [String.toList_ofList]
            exact ⟨split_of_readKey hkey, hnew⟩
          · exact ⟨(hkeys b hb).1, (hne b hb).2⟩
        · rw [List.map_cons, List.nodup_cons]
          refine ⟨fun hmem => ?_, hdistinct⟩
          obtain ⟨b, hb, hsame⟩ := List.mem_map.mp hmem
          apply (hne b hb).1
          rw [hsame, String.toList_ofList]

end Attribute

/-- What the scanner cuts out as a tag: it does not look like other markup, and the bracket
behind it is the first one outside quotes. -/
structure IsCut (content : List Char) : Prop where
  markup : ∀ c ∈ content.head?, c ≠ '/' ∧ c ≠ '!' ∧ c ≠ '?'
  paired : Token.IsPaired content

/-- An element as the reader makes it from a tag that was cut out: no bracket outside quotes
is in its name, and quotes are closed in a name that stands alone. -/
structure IsReadTag (name : String) (attributes : List Attribute) : Prop
    extends IsSplitTag name attributes where
  uncut : ∀ front back, name.toList = front ++ '>' :: back → ¬ Token.IsPaired front
  alone : attributes = [] → Token.IsPaired name.toList

/-- What follows the name of a tag without attributes is blank. -/
theorem exists_blanks_of_ofTagContent {content : List Char}
    (h : Attribute.ofTagContent content = .ok []) :
    ∃ blanks, (∀ c ∈ blanks, isBlank c = true) ∧ content = Attribute.tagName content ++ blanks := by
  refine ⟨content.dropWhile fun c => !isBlank c, ?_, (List.takeWhile_append_dropWhile ..).symm⟩
  rcases Attribute.readFrom_eq_ok h with ⟨hblank, -⟩ | ⟨key, position, afterKey, written, rest,
    value, others, -, -, -, -, -, -, heq⟩
  · exact List.all_eq_true.mp hblank
  · cases heq

theorem isPlain_of_isBlank {c : Char} (h : isBlank c = true) : c ≠ '"' ∧ c ≠ '\'' := by
  constructor
  · rintro rfl
    cases h
  · rintro rfl
    cases h

/-- What the reader makes of a tag that was cut out. -/
theorem isReadTag_of_ofTagContent {content : List Char} {attributes : List Attribute}
    (hcut : IsCut content) (h : Attribute.ofTagContent content = .ok attributes) :
    IsReadTag (String.ofList (Attribute.tagName content)) attributes := by
  obtain ⟨hkeys, hdistinct⟩ := Attribute.split_of_readFrom h
  have hsplit : IsSplitTag (String.ofList (Attribute.tagName content)) attributes := by
    constructor
    · intro c hc
      rw [String.toList_ofList] at hc
      simpa using List.mem_takeWhile_imp hc
    · intro c hc
      rw [String.toList_ofList, Attribute.tagName, List.head?_takeWhile, Option.mem_def,
        Option.filter_eq_some_iff] at hc
      exact hcut.markup c hc.1
    · intro a ha
      exact (hkeys a ha).1
    · exact hdistinct
  refine ⟨hsplit, ?_, ?_⟩
  · intro front back hname
    have hcontent : content = front ++ '>' :: (back ++ content.dropWhile fun c => !isBlank c) := by
      rw [String.toList_ofList] at hname
      calc content = Attribute.tagName content ++ content.dropWhile (fun c => !isBlank c) :=
            (List.takeWhile_append_dropWhile ..).symm
        _ = front ++ '>' :: (back ++ content.dropWhile fun c => !isBlank c) := by
            rw [hname, List.append_assoc, List.cons_append]
    have hpaired := hcut.paired
    rw [hcontent] at hpaired
    exact hpaired.not_bracket
  · rintro rfl
    obtain ⟨blanks, hblanks, hcontent⟩ := exists_blanks_of_ofTagContent h
    have hpaired := hcut.paired
    rw [hcontent] at hpaired
    rw [String.toList_ofList]
    exact hpaired.of_append fun c hc => isPlain_of_isBlank (hblanks c hc)

/-! ## Tokens -/

namespace Token

/-- What is known of a token that was scanned. -/
def IsProper : Token → Prop
  | .tag content _ => IsCut content
  | _ => True

theorem head_of_cutTag {cs content rest : List Char} (h : cutTag none cs = some (content, rest)) :
    ∀ c ∈ content.head?, c ∈ cs.head? := by
  intro c hc
  rw [(of_cutTag_eq_some h).1, List.head?_append, Option.mem_def.mp hc]
  rfl

theorem isProper_ofTag {content : List Char} (h : ∀ c ∈ content.head?, c ≠ '!' ∧ c ≠ '?')
    (hpaired : IsPaired content) : (ofTag content).IsProper := by
  unfold ofTag
  split
  · trivial
  · next hslash =>
    have hhead : ∀ c ∈ content.head?, c ≠ '/' ∧ c ≠ '!' ∧ c ≠ '?' := by
      intro c hc
      refine ⟨?_, h c hc⟩
      rintro rfl
      obtain ⟨name, rfl⟩ := List.head?_eq_some_iff.mp hc
      exact hslash name rfl
    split
    · next hlast =>
      have hcontent : content = content.dropLast ++ ['/'] :=
        (List.dropLast_append_getLast? '/' hlast).symm
      constructor
      · intro c hc
        apply hhead
        rw [hcontent, List.head?_append, Option.mem_def.mp hc]
        rfl
      · rw [hcontent] at hpaired
        exact hpaired.of_append_slash
    · exact ⟨hhead, hpaired⟩

theorem isProper_stop (fault : TokenFault) (unread : List Char) :
    ∀ token ∈ (stop fault unread).1, token.IsProper := by
  rintro _ ⟨⟩
  trivial

theorem isProper_scanVerbatim (cs : List Char) : ∀ token ∈ (scanVerbatim cs).1, token.IsProper := by
  unfold scanVerbatim
  split
  · exact isProper_stop _ _
  · split
    · rintro _ ⟨⟩
      trivial
    · exact isProper_stop _ _

theorem isProper_scanComment (cs : List Char) : ∀ token ∈ (scanComment cs).1, token.IsProper := by
  unfold scanComment
  split
  · exact isProper_stop _ _
  · split
    · rintro _ ⟨⟩
    · exact isProper_stop _ _

theorem isProper_scanDocumentType (cs : List Char) :
    ∀ token ∈ (scanDocumentType cs).1, token.IsProper := by
  unfold scanDocumentType
  split
  · exact isProper_stop _ _
  · split
    · split
      · exact isProper_stop _ _
      · rintro _ ⟨⟩
    · exact isProper_stop _ _

theorem isProper_scanInstruction (cs : List Char) :
    ∀ token ∈ (scanInstruction cs).1, token.IsProper := by
  unfold scanInstruction
  split
  · exact isProper_stop _ _
  · exact isProper_stop _ _
  · rintro _ ⟨⟩

theorem isProper_scanTag {cs : List Char} (h : ∀ c ∈ cs.head?, c ≠ '!' ∧ c ≠ '?') :
    ∀ token ∈ (scanTag cs).1, token.IsProper := by
  unfold scanTag
  split
  · exact isProper_stop _ _
  · next content rest hcut =>
    rintro _ ⟨⟩
    exact isProper_ofTag (fun c hc => h c (head_of_cutTag hcut c hc)) (of_cutTag_eq_some hcut).2

theorem isProper_scanMarkup {cs rest : List Char} {token : Token}
    (h : scanMarkup cs = (some token, rest)) : token.IsProper := by
  have hall : ∀ token ∈ (scanMarkup cs).1, token.IsProper := by
    unfold scanMarkup
    split
    · exact isProper_stop _ _
    · exact isProper_scanVerbatim _
    · exact isProper_scanComment _
    · exact isProper_scanDocumentType _
    · exact isProper_scanDocumentType _
    · exact isProper_stop _ _
    · exact isProper_scanInstruction _
    · next hbang hquestion =>
      refine isProper_scanTag fun c hc => ?_
      obtain ⟨more, rfl⟩ := List.head?_eq_some_iff.mp hc
      constructor
      · rintro rfl
        exact hbang more rfl
      · rintro rfl
        exact hquestion more rfl
  exact hall token (by rw [h]; rfl)

theorem isProper_of_mem_scan {cs : List Char} {e : Token × List Char} (h : e ∈ scan cs) :
    e.1.IsProper := by
  have hnext : ∀ {cs token rest}, next? cs = some (some token, rest) → token.IsProper := by
    intro cs token rest hnext
    unfold next? at hnext
    split at hnext
    · cases hnext
    · exact isProper_scanMarkup (Option.some.inj hnext)
    · obtain rfl := Option.some.inj (Prod.mk.inj (Option.some.inj hnext)).1
      trivial
  induction cs using scan.induct with
  | case1 cs hnone =>
      rw [scan_eq_nil hnone] at h
      cases h
  | case2 cs rest hskip ih =>
      rw [scan_eq_scan hskip] at h
      exact ih h
  | case3 cs fault rest hbroken =>
      rw [scan_eq_broken hbroken, List.mem_singleton] at h
      rw [h]
      trivial
  | case4 cs token rest hwhole hfound ih =>
      rw [scan_eq_cons hfound hwhole] at h
      rcases List.mem_cons.mp h with rfl | h
      · exact hnext hfound
      · exact ih h

end Token

/-! ## Trees -/

/-- Every tag was split by the reader, texts are trimmed leaves, and no text stands beside
another one. -/
inductive Tree.Tidy : Tree → Prop
  | text {value : String} (h : IsValue value.toList) : Tidy (.node (.text value) [])
  | element {name : String} {attributes : List Attribute} {children : List Tree}
      (htag : IsReadTag name attributes) (hchildren : ∀ t ∈ children, Tidy t)
      (hapart : children.IsChain fun t u => t.content.isElement ∨ u.content.isElement) :
      Tidy (.node (.element name attributes) children)

namespace Tree

variable {c : Content} {ts : List Tree}

theorem Tidy.of_mem {t : Tree} (h : (node c ts).Tidy) (ht : t ∈ ts) : t.Tidy := by
  cases h with
  | text => cases ht
  | element htag hchildren hapart => exact hchildren t ht

theorem Tidy.apart (h : (node c ts).Tidy) :
    ts.IsChain fun t u => t.content.isElement ∨ u.content.isElement := by
  cases h with
  | text => exact .nil
  | element htag hchildren hapart => exact hapart

theorem Tidy.of_text {value : String} (h : (node (.text value) ts).Tidy) :
    IsValue value.toList ∧ ts = [] := by
  cases h with
  | text hvalue => exact ⟨hvalue, rfl⟩

end Tree

/-- What the nodes of a tidy tree hold. -/
theorem Tree.Tidy.of_mem_contents {t : Tree} (h : t.Tidy) :
    (∀ value, Content.text value ∈ t.contents → IsValue value.toList) ∧
      ∀ name attributes, Content.element name attributes ∈ t.contents →
        IsReadTag name attributes := by
  induction h with
  | @text value h =>
      simp only [Tree.contents, Tree.contentsAll, List.mem_singleton]
      constructor
      · intro value' heq
        exact Content.text.inj heq ▸ h
      · intro name attributes heq
        cases heq
  | @element name attributes children htag hchildren hapart ih =>
      simp only [Tree.contents, Tree.contentsAll_eq_flatMap, List.mem_cons, List.mem_flatMap]
      constructor
      · rintro value (heq | ⟨t, ht, hmem⟩)
        · cases heq
        · exact (ih t ht).1 value hmem
      · rintro name' attributes' (heq | ⟨t, ht, hmem⟩)
        · obtain ⟨rfl, rfl⟩ := Content.element.inj heq
          exact htag
        · exact (ih t ht).2 name' attributes' hmem

namespace Builder

/-- No text stands beside another one. -/
def Apart (ts : List Placed) : Prop :=
  ts.IsChain fun t u => t.content.isElement ∨ u.content.isElement

/-- What has been read of an open element is tidy. -/
structure TidyFrame (f : Frame) : Prop where
  tag : ∃ name attributes, f.content = .element name attributes ∧ IsReadTag name attributes
  left : ∀ t ∈ f.left, t.toTree.Tidy
  apart : Apart f.left
  right : f.right = []

/-- Everything that has been read is tidy. -/
def Stage.Tidy : Stage → Prop
  | .before => True
  | .inside f fs => ∀ g ∈ f :: fs, TidyFrame g
  | .after t => t.toTree.Tidy

variable {f : Frame} {t : Placed} {token : Token} {stage stage' : Stage}

theorem TidyFrame.isOpen (h : TidyFrame f) : IsOpen f := by
  obtain ⟨name, attributes, hcontent, -⟩ := h.tag
  exact ⟨by rw [hcontent]; rfl, h.right⟩

theorem TidyFrame.fill (h : TidyFrame f) : (f.fill []).toTree.Tidy := by
  obtain ⟨name, attributes, hcontent, htag⟩ := h.tag
  rw [Frame.fill, h.right, hcontent, Placed.toTree_node]
  refine .element htag ?_ ?_
  · intro t ht
    obtain ⟨u, hu, rfl⟩ := List.mem_map.mp ht
    apply h.left u
    simpa using hu
  · rw [List.isChain_map]
    have hapart := h.apart
    unfold Apart at hapart
    simpa [Placed.content_toTree] using hapart

/-- A tree may stand behind what has been read, unless both are texts. -/
theorem TidyFrame.add (h : TidyFrame f) (ht : t.toTree.Tidy)
    (hapart : t.content.isElement ∨ ¬ EndsWithText f) : TidyFrame (f.add t) := by
  refine ⟨h.tag, ?_, ?_, h.right⟩
  · intro u hu
    rcases List.mem_append.mp hu with hu | hu
    · exact h.left u hu
    · rw [List.mem_singleton.mp hu]
      exact ht
  · refine List.isChain_append.mpr ⟨h.apart, .singleton t, ?_⟩
    intro u hu v hv
    obtain rfl : t = v := by simpa using hv
    rcases hapart with helement | hlast
    · exact .inr helement
    · left
      obtain ⟨left, hleft⟩ := List.getLast?_eq_some_iff.mp hu
      obtain ⟨i, c, cs⟩ := u
      cases c with
      | element name attributes => rfl
      | text value => exact absurd ⟨left, i, value, cs, hleft⟩ hlast

/-- A text that grows stays apart from the elements before it. -/
theorem TidyFrame.grow {left cs : List Placed} {i : NodeId} {value more : String}
    (h : TidyFrame f) (hleft : f.left = left ++ [.node i (.text value) cs])
    (hmore : IsValue more.toList) :
    TidyFrame ⟨f.id, f.content, left ++ [.node i (.text (value ++ more)) cs], []⟩ := by
  obtain ⟨htag, htidy, hapart, -⟩ := h
  rw [hleft] at htidy hapart
  obtain ⟨hbefore, -, hlast⟩ := List.isChain_append.mp hapart
  refine ⟨htag, ?_, ?_, rfl⟩
  · intro t ht
    rcases List.mem_append.mp ht with ht | ht
    · exact htidy t (List.mem_append_left _ ht)
    · rw [List.mem_singleton.mp ht]
      have htext := htidy (.node i (.text value) cs) (by simp)
      rw [Placed.toTree_node] at htext ⊢
      obtain ⟨hvalue, hcs⟩ := htext.of_text
      have hjoined := hvalue.append [] hmore
      rw [List.append_nil, ← String.toList_append] at hjoined
      rw [hcs]
      exact .text hjoined
  · refine List.isChain_append.mpr ⟨hbefore, .singleton _, ?_⟩
    intro u hu v hv
    obtain rfl : Placed.node i (.text (value ++ more)) cs = v := by simpa using hv
    exact hlast u hu (.node i (.text value) cs) (by simp)

/-- An element of which nothing but its tag was read. -/
theorem tidyFrame_of_tag {content : List Char} {attributes : List Attribute}
    (hproper : (Token.tag content false).IsProper)
    (h : Attribute.ofTagContent content = .ok attributes) (n : NodeId) :
    TidyFrame ⟨n, tagged content attributes, [], []⟩ := by
  refine ⟨⟨_, _, rfl, isReadTag_of_ofTagContent hproper h⟩, ?_, .nil, rfl⟩
  intro t ht
  cases ht

/-- Another frame may stand on top of tidy ones. -/
theorem tidy_inside {fs : List Frame} (h : TidyFrame f) (hfs : ∀ g ∈ fs, TidyFrame g) :
    (Stage.inside f fs).Tidy := by
  intro g hg
  rcases List.mem_cons.mp hg with rfl | hg
  · exact h
  · exact hfs g hg

/-- Every token keeps what has been read tidy. -/
theorem Reads.tidy (h : Reads token stage stage') (htoken : token.IsProper)
    (hstage : stage.Tidy) : stage'.Tidy := by
  have hempty : ∀ {content attributes}, (Token.tag content false).IsProper →
      Attribute.ofTagContent content = .ok attributes → ∀ n,
        (Placed.node n (tagged content attributes) []).toTree.Tidy := by
    intro content attributes hproper htag n
    exact (tidyFrame_of_tag hproper htag n).fill
  cases h with
  | blank => exact hstage
  | @newText token content f fs n hcontent htrimmed hlast =>
      obtain ⟨hf, hfs⟩ := List.forall_mem_cons.mp hstage
      refine tidy_inside (hf.add ?_ (.inr hlast)) hfs
      rw [Placed.toTree_node]
      apply Tree.Tidy.text
      rw [String.toList_ofList]
      exact isValue_trimChars htrimmed
  | @moreText token content f fs left cs i value hcontent htrimmed hleft =>
      obtain ⟨hf, hfs⟩ := List.forall_mem_cons.mp hstage
      refine tidy_inside (hf.grow hleft ?_) hfs
      rw [String.toList_ofList]
      exact isValue_trimChars htrimmed
  | openRoot n htag => exact tidy_inside (tidyFrame_of_tag htoken htag n) (by simp)
  | emptyRoot n htag => exact hempty htoken htag n
  | opening n htag => exact tidy_inside (tidyFrame_of_tag htoken htag n) hstage
  | empty n htag =>
      obtain ⟨hf, hfs⟩ := List.forall_mem_cons.mp hstage
      exact tidy_inside (hf.add (hempty htoken htag n) (.inl rfl)) hfs
  | closing =>
      obtain ⟨hf, hgs⟩ := List.forall_mem_cons.mp hstage
      obtain ⟨hg, hfs⟩ := List.forall_mem_cons.mp hgs
      exact tidy_inside (hg.add hf.fill (.inl hf.isOpen.isElement)) hfs
  | closeRoot => exact (hstage _ (by simp)).fill

/-- Any number of tokens keep what has been read tidy. -/
theorem ReadsAll.tidy_stage {tokens : List Token} (h : ReadsAll tokens stage stage')
    (htokens : ∀ token ∈ tokens, token.IsProper) (hstage : stage.Tidy) : stage'.Tidy := by
  refine h.keep (I := Stage.Tidy) ?_ hstage
  intro token htoken stage stage' hfirst hstage
  exact hfirst.tidy (htokens token htoken) hstage

/-- What is read from a whole text is tidy. -/
theorem ReadsAll.tidy {cs : List Char} (h : ReadsAll (Token.tokens cs) .before (.after t)) :
    t.toTree.Tidy := by
  refine h.tidy_stage (fun token htoken => ?_) trivial
  obtain ⟨e, he, rfl⟩ := List.mem_map.mp htoken
  exact Token.isProper_of_mem_scan he

end Builder

namespace Document

variable {text : String} {d : Document}

/-- A document that was read is one tidy tree with an element at its top. -/
theorem exists_tidy_of_parse (h : parse text = .ok d) :
    ∃ t, d.Shows [t] ∧ d.root = t.id ∧ t.content.isElement ∧ t.toTree.Tidy := by
  obtain ⟨t, hshows, hroot, htop, hreads⟩ := exists_readsAll_of_parse h
  exact ⟨t, hshows, hroot, htop, hreads.tidy⟩

/-- Every node of a document that is one tree is in the tree. -/
theorem Shows.mem_ids {t : Placed} (h : d.Shows [t]) {n : NodeId} (hn : n < d.size) :
    n ∈ t.ids := by
  simpa using h.placed.mem_iff.mpr (List.mem_range.mpr hn)

/-- A document that is one tree holds what the tree does. -/
theorem Shows.mem_contents {t : Placed} (h : d.Shows [t]) {n : NodeId} {c : Content}
    (hc : d.content? n = some c) : c ∈ t.toTree.contents := by
  have hn : n < d.size := by
    by_contra hle
    rw [content?, Array.getElem?_eq_none (Nat.le_of_not_lt hle)] at hc
    cases hc
  obtain ⟨e, he, rfl⟩ := List.mem_map.mp (h.mem_ids hn)
  have hsame := ((h.stored t (by simp)).content_of_mem he).symm.trans hc
  rw [← Option.some.inj hsame, ← Placed.nodes_map_content]
  exact List.mem_map_of_mem he

/-- A document that was read can be written if its names and keys can be. -/
theorem holds_of_parse (h : parse text = .ok d)
    (hnames : ∀ n name attributes, d.content? n = some (.element name attributes) →
      IsName name.toList ∧ ∀ a ∈ attributes, IsKey a.key.toList) :
    d.Holds Content.IsWritable := by
  obtain ⟨t, hshows, -, -, htidy⟩ := exists_tidy_of_parse h
  intro n c hc
  have hmem := hshows.mem_contents hc
  cases c with
  | text value => exact htidy.of_mem_contents.1 value hmem
  | element name attributes =>
      obtain ⟨hname, hkeys⟩ := hnames n name attributes hc
      exact ⟨hname, hkeys, (htidy.of_mem_contents.2 name attributes hmem).distinct⟩

end Document

end RouteCompiler.Route
