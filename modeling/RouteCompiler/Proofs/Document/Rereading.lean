import RouteCompiler.Proofs.Document.Completion
import RouteCompiler.Proofs.Document.Unambiguous

/-!
# Documents that can be read again

The reader lets names and keys through that are not read back from where they are written:
`<a/ >x</a/>` is a text in an element `a/`, but it is written as `<a/>x</a/>`, which is an
empty element `a` and a text outside the root.  The trees for which reading undoes writing
are the only ones that survive: if what is written of a tree is read as anything that is
written in the same way, then every tag in it is cut out and split as it was written.

The induction is on the tree.  What is read from its written form is known to become that
very tree.  So the first token is the tag of its top: no other tag has that name and those
attributes, and no closing tag fits, since the element around it would be left without the
tree.

Main definitions:

- `IsReread`: wherever a tree is read from its written form, it is legible.

Main results:

- Theorem `eq_writtenTag_of_ofTagContent`: a tag that was read from the front of its written
  form was read from the whole of it.
- Theorem `readsAll_tag`: the first token of a written element.
- Theorem `isReread`: a tree that is read from its written form is legible.
- Theorem `parse_serialize_iff`: a document that was read can be read again, and is written
  as before, if and only if its tree is legible.
-/

namespace RouteCompiler.Route

open RouteCompiler.Text

/-! ## Tags that were written -/

namespace Attribute

/-- A key that was read stands in front, and nothing but blanks is between it and its equals
sign. -/
theorem of_readKey_eq_ok {total position : Nat} {cs key rest : List Char}
    (h : readKey total cs = .ok ((key, position), rest)) :
    ∃ gap, (∀ c ∈ gap, isBlank c = true) ∧ cs = key ++ (gap ++ '=' :: rest) := by
  unfold readKey at h
  split at h
  · cases h
  · next first more =>
    split at h
    · next rest' hequals =>
      simp only [Except.ok.injEq, Prod.mk.injEq] at h
      obtain ⟨⟨rfl, -⟩, rfl⟩ := h
      refine ⟨(more.dropWhile inKey).takeWhile isBlank, fun c hc => List.mem_takeWhile_imp hc, ?_⟩
      rw [← hequals, List.takeWhile_append_dropWhile, List.cons_append,
        List.takeWhile_append_dropWhile]
    · cases h

/-- A value that was read stands between two quotes, and has no such quote inside. -/
theorem of_readValue_eq_ok {total : Nat} {cs written rest : List Char}
    (h : readValue total cs = .ok (written, rest)) :
    ∃ gap quote, (∀ c ∈ gap, isBlank c = true) ∧ isBlank quote = false ∧ quote ∉ written ∧
      cs = gap ++ quote :: (written ++ quote :: rest) := by
  have hsplit : cs = cs.takeWhile isBlank ++ cs.dropWhile isBlank :=
    List.takeWhile_append_dropWhile.symm
  have hhead := @head_dropWhile isBlank cs
  unfold readValue at h
  split at h
  · cases h
  · next quote body hbody =>
    rw [hbody] at hsplit hhead
    split at h
    · split at h
      · next cut hcut =>
        obtain rfl := Except.ok.inj h
        refine ⟨cs.takeWhile isBlank, quote, fun c hc => List.mem_takeWhile_imp hc,
          hhead quote rfl, not_mem_of_cutAt hcut, ?_⟩
        rw [← append_of_cutAt hcut] at hsplit
        simpa using hsplit
      · cases h
    · cases h

/-- Where no blank is written, none was read. -/
theorem blanks_append_inj {gap xs ys zs : List Char} {c d : Char}
    (hgap : ∀ e ∈ gap, isBlank e = true) (hc : isBlank c = false) (hd : isBlank d = false)
    (h : gap ++ c :: xs ++ zs = d :: ys) : gap = [] ∧ c = d ∧ xs ++ zs = ys := by
  have hnone : ∀ e ∈ ([] : List Char), isBlank e = true := by simp
  rw [List.append_assoc] at h
  obtain ⟨hnil, hcons⟩ := append_cons_inj hgap hc hnone hd h
  exact ⟨hnil, List.cons.inj hcons⟩

/-- A key that was read from the front of its written form, with one blank before it, was read
from the whole of it. -/
theorem key_append_inj {total position : Nat} {cs key afterKey xs ys : List Char}
    (h : readKey total (cs.dropWhile isBlank) = .ok ((key, position), afterKey))
    (heq : cs ++ xs = ' ' :: (key ++ '=' :: ys)) :
    cs = ' ' :: (key ++ '=' :: afterKey) ∧ afterKey ++ xs = ys := by
  obtain ⟨gap, hgap, hafter⟩ := of_readKey_eq_ok h
  have hsplit := split_of_readKey h
  have hcs : cs = cs.takeWhile isBlank ++ cs.dropWhile isBlank :=
    List.takeWhile_append_dropWhile.symm
  have hfront : ∀ c ∈ cs.takeWhile isBlank, isBlank c = true := by
    intro c hc
    exact List.mem_takeWhile_imp hc
  have hspace : ∀ c ∈ [' '], isBlank c = true := by
    intro c hc
    rw [List.mem_singleton.mp hc]
    rfl
  have hone : cs.takeWhile isBlank = [' '] ∧ cs.dropWhile isBlank ++ xs = key ++ '=' :: ys := by
    rw [hcs, hafter] at heq
    cases key with
    | nil => exact absurd rfl hsplit.nonempty
    | cons first more =>
        have hfirst : isBlank first = false := hsplit.head first rfl
        rw [List.append_assoc] at heq
        obtain ⟨hblank, hrest⟩ := append_cons_inj hfront hfirst hspace hfirst heq
        rw [hafter]
        exact ⟨hblank, hrest⟩
  obtain ⟨hblank, hbehind⟩ := hone
  rw [hafter, List.append_assoc] at hbehind
  obtain ⟨rfl, -, hrest⟩ := blanks_append_inj hgap (by decide) (by decide)
    (List.append_cancel_left hbehind)
  refine ⟨?_, hrest⟩
  rw [hcs, hblank, hafter]
  rfl

/-- A value that was read from the front of its written form was read from the whole of it. -/
theorem value_append_inj {total : Nat} {cs written rest value xs ys : List Char}
    (h : readValue total cs = .ok (written, rest))
    (heq : cs ++ xs = '"' :: (Entity.escape value ++ '"' :: ys)) :
    cs = '"' :: (Entity.escape value ++ '"' :: rest) ∧ rest ++ xs = ys := by
  obtain ⟨gap, quote, hgap, hquote, hnone, rfl⟩ := of_readValue_eq_ok h
  obtain ⟨rfl, rfl, hwritten⟩ := blanks_append_inj hgap hquote (by decide) heq
  have hescape : '"' ∉ Entity.escape value := Entity.not_mem_escape_of_special value (by simp)
  rw [List.append_assoc] at hwritten
  obtain ⟨rfl, hrest⟩ := append_separator_inj hnone hescape hwritten
  exact ⟨rfl, hrest⟩

/-- Attributes that were read from the front of their written form were read from the whole
of it. -/
theorem eq_flatMap_of_readFrom {total : Nat} {earlier : List (List Char × Nat)}
    {cs xs ys : List Char} {c : Char} {attributes : List Attribute}
    (h : readFrom total earlier cs = .ok attributes) (hc : isBlank c = false)
    (heq : cs ++ xs = attributes.flatMap Tree.renderAttribute ++ c :: ys) :
    cs = attributes.flatMap Tree.renderAttribute := by
  induction attributes generalizing earlier cs with
  | nil =>
      rcases readFrom_eq_ok h with ⟨hblank, -⟩ | ⟨key, position, afterKey, written, rest, value,
        others, -, -, -, -, -, -, hcons⟩
      · cases cs with
        | nil => rfl
        | cons d cs =>
            have hd : isBlank d = true := List.all_eq_true.mp hblank d (by simp)
            rw [(List.cons.inj heq).1, hc] at hd
            cases hd
      · cases hcons
  | cons a attributes ih =>
      rcases readFrom_eq_ok h with ⟨-, hnil⟩ | ⟨key, position, afterKey, written, rest, value,
        others, -, hkey, -, hvalue, -, hothers, hcons⟩
      · cases hnil
      · obtain ⟨rfl, rfl⟩ := List.cons.inj hcons
        rw [List.flatMap_cons, List.append_assoc, renderAttribute_append, String.toList_ofList,
          String.toList_ofList] at heq
        obtain ⟨hcs, hquoted⟩ := key_append_inj hkey heq
        obtain ⟨hafter, hbehind⟩ := value_append_inj hvalue hquoted
        rw [List.flatMap_cons, renderAttribute_append, String.toList_ofList,
          String.toList_ofList, ← ih hothers hbehind, hcs, hafter]

/-- A tag that was read from the front of its written form was read from the whole of it. -/
theorem eq_writtenTag_of_ofTagContent {content xs ys : List Char} {c : Char}
    {attributes : List Attribute} (h : ofTagContent content = .ok attributes)
    (hc : isBlank c = false) (heq : content ++ xs =
      writtenTag (String.ofList (tagName content)) attributes ++ c :: ys) :
    content = writtenTag (String.ofList (tagName content)) attributes := by
  have hsplit : tagName content ++ content.dropWhile (fun c => !isBlank c) = content :=
    List.takeWhile_append_dropWhile
  rw [writtenTag, String.toList_ofList]
  rw [writtenTag, String.toList_ofList, List.append_assoc, ← hsplit, List.append_assoc,
    hsplit] at heq
  rw [← eq_flatMap_of_readFrom h hc (List.append_cancel_left heq), hsplit]

end Attribute

/-! ## The next token -/

namespace Token

theorem tokens_blanks {blanks : List Char} (h : ∀ c ∈ blanks, isBlank c = true)
    (cs : List Char) : tokens (blanks ++ cs) = tokens cs := by
  rw [tokens, scan_blanks h, tokens]

theorem tokens_newline (cs : List Char) : tokens ('\n' :: cs) = tokens cs :=
  tokens_blanks Tree.isBlank_of_mem_newline cs

theorem ofTag_ne_broken (raw : List Char) (fault : TokenFault) : ofTag raw ≠ .broken fault := by
  unfold ofTag
  split
  · exact Token.noConfusion
  · split
    · exact Token.noConfusion
    · exact Token.noConfusion

/-- Behind a bracket that opens a tag stands the whole tag, or nothing can be read. -/
theorem tokens_tag {cs : List Char} (hne : cs ≠ [])
    (hhead : ∀ c ∈ cs.head?, c ≠ '!' ∧ c ≠ '?') :
    (∃ raw rest, cs = raw ++ '>' :: rest ∧ IsPaired raw ∧
      tokens ('<' :: cs) = ofTag raw :: tokens rest) ∨
    ∃ fault, tokens ('<' :: cs) = [.broken fault] := by
  have hmarkup : scanMarkup cs = scanTag cs := scanMarkup_eq hne hhead
  cases hcut : cutTag none cs with
  | none =>
      right
      have hnext : next? ('<' :: cs) = some (some (.broken (.unclosed .tag)), []) := by
        rw [next?, List.dropWhile_cons_of_neg (by decide)]
        simp only [hmarkup, scanTag, hcut, stop]
      refine ⟨.unclosed .tag, ?_⟩
      rw [tokens, scan_eq_broken hnext]
      rfl
  | some cut =>
      left
      obtain ⟨raw, rest⟩ := cut
      obtain ⟨hcs, hpaired⟩ := of_cutTag_eq_some hcut
      refine ⟨raw, rest, hcs, hpaired, ?_⟩
      have hstep : scanMarkup cs = (some (ofTag raw), rest) := by
        rw [hmarkup, scanTag, hcut]
      rw [tokens, scan_markup hstep (ofTag_ne_broken raw)]
      rfl

/-- What begins with a slash closes an element, whose name may have blanks behind it. -/
theorem exists_ofTag_slash (found : List Char) : ∃ name blanks,
    (∀ c ∈ blanks, isBlank c = true) ∧ found = name ++ blanks ∧
      ofTag ('/' :: found) = .close name := by
  by_cases hempty : (dropEndWhile isBlank found).isEmpty = true
  · refine ⟨found, [], by simp, (List.append_nil found).symm, ?_⟩
    simp only [ofTag, hempty, if_true]
  · obtain ⟨blanks, hblanks, hfound⟩ := exists_append_of_dropEndWhile isBlank found
    refine ⟨dropEndWhile isBlank found, blanks, hblanks, hfound, ?_⟩
    simp only [ofTag, hempty, Bool.false_eq_true, if_false]

/-- A tag closes an element, or is that of an empty one, or opens one. -/
theorem ofTag_cases (raw : List Char) :
    (∃ name, ofTag raw = .close name) ∨
    (∃ content, content ≠ [] ∧ raw = content ++ ['/'] ∧ ofTag raw = .tag content true) ∨
    (raw.getLast? ≠ some '/' ∧ ofTag raw = .tag raw false) := by
  unfold ofTag
  split
  · exact .inl ⟨_, rfl⟩
  · next hslash =>
    right
    split
    · next hlast =>
      left
      have hraw : raw = raw.dropLast ++ ['/'] := (List.dropLast_append_getLast? '/' hlast).symm
      refine ⟨raw.dropLast, ?_, hraw, rfl⟩
      intro hnil
      rw [hnil] at hraw
      exact hslash [] hraw
    · next hlast => exact .inr ⟨hlast, rfl⟩

end Token

namespace Builder

open Token

variable {f : Frame} {fs outer : List Frame} {x : Placed}

/-! ## Tags in front -/

/-- Behind a bracket that opens a tag, reading takes in the whole tag. -/
theorem exists_reads_tag_of_readsAll {stage stage' : Stage} {cs : List Char} (hne : cs ≠ [])
    (hhead : ∀ c ∈ cs.head?, c ≠ '!' ∧ c ≠ '?')
    (h : ReadsAll (tokens ('<' :: cs)) stage stage') :
    ∃ raw rest stage'', cs = raw ++ '>' :: rest ∧ IsPaired raw ∧
      Reads (ofTag raw) stage stage'' ∧ ReadsAll (tokens rest) stage'' stage' := by
  rcases tokens_tag hne hhead with ⟨raw, rest, hcs, hpaired, htokens⟩ | ⟨fault, htokens⟩
  · rw [htokens] at h
    cases h with
    | step hfirst hrest => exact ⟨raw, rest, _, hcs, hpaired, hfirst, hrest⟩
  · rw [htokens] at h
    cases h with
    | step hfirst hrest => exact absurd hfirst (not_reads_broken fault)

/-- Of all tags that could have been read in front, only its own fits an element. -/
theorem Completes.eq_of_ofTagContent {name : String} {attributes attributes' : List Attribute}
    {children ts : List Tree} {content xs ys : List Char} {c : Char} {u : Tree}
    (h : Completes outer (.element name attributes) children u)
    (htag : Attribute.ofTagContent content = .ok attributes')
    (hfits : Completes outer (tagged content attributes') ts u) (hc : isBlank c = false)
    (heq : writtenTag name attributes ++ c :: ys = content ++ xs) :
    content = writtenTag name attributes ∧
      tagged content attributes' = .element name attributes ∧ children = ts ∧ c :: ys = xs := by
  obtain ⟨hcontent, hts⟩ := h.unique hfits
  obtain ⟨rfl, rfl⟩ := Content.element.inj hcontent
  have hwritten := Attribute.eq_writtenTag_of_ofTagContent htag hc heq.symm
  refine ⟨hwritten, rfl, hts, ?_⟩
  rw [← hwritten] at heq
  exact List.append_cancel_left heq

/-- A written element in front is read as its own tag, if it is to become that element. -/
theorem readsAll_tag {name : String} {attributes : List Attribute} {children : List Tree}
    {xs : List Char} (hsplit : IsSplitTag name attributes) (hxs : EndsTag xs)
    (hopen : (place outer).IsOpen)
    (hcompletes : Completes outer (.element name attributes) children x.toTree)
    (h : ReadsAll (tokens ('<' :: (writtenTag name attributes ++ xs))) (place outer)
      (.after x)) :
    IsPaired (writtenTag name attributes) ∧
    ((children = [] ∧ writtenTag name attributes ≠ [] ∧ ∃ n rest, xs = '/' :: '>' :: rest ∧
      ReadsAll (tokens rest) (put outer (.node n (.element name attributes) []))
        (.after x)) ∨
    ((writtenTag name attributes).getLast? ≠ some '/' ∧ ∃ n rest, xs = '>' :: rest ∧
      ReadsAll (tokens rest) (.inside ⟨n, .element name attributes, [], []⟩ outer)
        (.after x))) := by
  obtain ⟨c, xs', rfl, hc, hmarkup⟩ := hxs.exists_eq_cons
  obtain ⟨raw, rest, stage, hraw, hpaired, hfirst, hrest⟩ :=
    exists_reads_tag_of_readsAll (by simp) (head_writtenTag_append hsplit hmarkup xs') h
  have hwithin : stage.Within x.toTree := hrest.within (hfirst.isOpen hopen)
  rcases ofTag_cases raw with ⟨found, hclose⟩ | ⟨content, hne, rfl, hempty⟩ | ⟨hlast, hopening⟩
  · rw [hclose] at hfirst
    exact absurd hwithin (hcompletes.not_within_of_close hopen hfirst)
  · rw [hempty] at hfirst
    obtain ⟨n, attributes', htag, rfl⟩ := hfirst.of_empty
    have hfits := hwithin.of_put rfl
    rw [List.append_assoc] at hraw
    obtain ⟨rfl, hcontent, rfl, hend⟩ := hcompletes.eq_of_ofTagContent htag hfits hc hraw
    rw [hcontent] at hrest
    exact ⟨hpaired.of_append_slash, .inl ⟨rfl, hne, n, rest, hend, hrest⟩⟩
  · rw [hopening] at hfirst
    obtain ⟨n, attributes', htag, rfl⟩ := hfirst.of_opening
    obtain ⟨ts, -, hfits⟩ := hwithin
    obtain ⟨rfl, hcontent, -, hend⟩ := hcompletes.eq_of_ofTagContent htag hfits hc hraw
    rw [hcontent] at hrest
    exact ⟨hpaired, .inr ⟨hlast, n, rest, hend, hrest⟩⟩

/-- The closing tag of the innermost element in front is read as it was written. -/
theorem readsAll_closing {name tail : List Char} (hname : (openName f).2 = name)
    (h : ReadsAll (tokens ('<' :: '/' :: (name ++ '>' :: tail))) (.inside f fs) (.after x)) :
    IsPaired name ∧ ReadsAll (tokens tail) (put fs (f.fill [])) (.after x) := by
  have hhead : ∀ c ∈ ('/' :: (name ++ '>' :: tail)).head?, c ≠ '!' ∧ c ≠ '?' := by
    intro c hc
    obtain rfl := Option.some.inj hc
    decide
  obtain ⟨raw, rest, stage, hraw, hpaired, hfirst, hrest⟩ :=
    exists_reads_tag_of_readsAll (by simp) hhead h
  cases raw with
  | nil => cases hraw
  | cons slash found =>
      rw [List.cons_append] at hraw
      obtain ⟨rfl, hfound⟩ := List.cons.inj hraw
      obtain ⟨name', blanks, hblanks, rfl, hclose⟩ := exists_ofTag_slash found
      rw [hclose] at hfirst
      obtain ⟨g, gs, hplace, rfl, rfl⟩ := hfirst.of_close
      obtain ⟨rfl, rfl⟩ := Stage.inside.inj hplace
      subst hname
      rw [List.append_assoc] at hfound
      have hbehind := List.append_cancel_left hfound
      cases blanks with
      | nil =>
          rw [List.append_nil] at hpaired
          rw [(List.cons.inj hbehind).2]
          exact ⟨hpaired.of_cons (by decide), hrest⟩
      | cons blank blanks =>
          have hblank := hblanks blank (by simp)
          rw [← (List.cons.inj hbehind).1] at hblank
          cases hblank

/-- A written text in front is read as a leaf. -/
theorem readsAll_text {value : String} (hvalue : IsValue value.toList) {blanks inside : List Char}
    (hblanks : ∀ c ∈ blanks, isBlank c = true) (hlast : ∀ f ∈ outer.head?, ¬ EndsWithText f)
    (h : ReadsAll (tokens (Entity.escape value.toList ++ blanks ++ '<' :: inside))
      (place outer) (.after x)) :
    ∃ n, ReadsAll (tokens ('<' :: inside)) (put outer (.node n (.text value) []))
      (.after x) := by
  rw [tokens, scan_text hvalue hblanks, List.map_cons] at h
  cases h with
  | step hfirst hrest =>
      obtain ⟨n, rfl⟩ := hfirst.of_text hvalue hlast
      exact ⟨n, hrest⟩

/-! ## Whole trees -/

theorem isOpen_inside (h : (place outer).IsOpen) {n : NodeId} {name : String}
    {attributes : List Attribute} :
    (Stage.inside ⟨n, .element name attributes, [], []⟩ outer).IsOpen := by
  intro g hg
  rcases List.mem_cons.mp hg with rfl | hg
  · exact ⟨rfl, rfl⟩
  · cases outer with
    | nil => cases hg
    | cons f fs => exact h g hg

/-- Wherever a tree is read from its written form and becomes part of what is read, it is
legible, and reading goes on behind it. -/
def IsReread (t : Tree) : Prop :=
  ∀ depth outer tail x, (place outer).IsOpen → Completes outer t.content t.children x.toTree →
    (t.content.isElement = false → (∀ f ∈ outer.head?, ¬ EndsWithText f) ∧ Opens tail) →
      ReadsAll (tokens (t.render depth ++ tail)) (place outer) (.after x) →
        t.Legible ∧ ∃ y, y.toTree = t ∧ ReadsAll (tokens tail) (put outer y) (.after x)

/-- Trees are read one behind the other, each becoming the next child of the element around
them. -/
theorem rereadAll {ts : List Tree} (hts : ∀ t ∈ ts, IsReread t)
    (hapart : Tree.Apart ts) (depth : Nat)
    {tail : List Char} (htail : Opens tail) (hopen : (Stage.inside f fs).IsOpen)
    (hfirst : ∀ t, ts.head? = some t → t.content.isElement = false → ¬ EndsWithText f)
    (hcompletes : Completes fs f.content (f.left.map Placed.toTree ++ ts) x.toTree)
    (h : ReadsAll (tokens (Tree.renderAll depth ts ++ tail)) (.inside f fs) (.after x)) :
    (∀ t ∈ ts, t.Legible) ∧ ∃ us, us.map Placed.toTree = ts ∧
      ReadsAll (tokens tail) (.inside (addAll f us) fs) (.after x) := by
  induction ts generalizing f with
  | nil =>
      refine ⟨by simp, [], rfl, ?_⟩
      have hsame : addAll f [] = f := by simp [addAll]
      rw [hsame]
      exact h
  | cons t ts ih =>
      rw [Tree.renderAll, List.append_assoc] at h
      have hplace : Completes (f :: fs) t.content t.children x.toTree := by
        obtain ⟨c, children⟩ := t
        exact ⟨ts, hcompletes⟩
      obtain ⟨hlegible, y, rfl, hrest⟩ := hts t (by simp) depth (f :: fs) _ x hopen hplace
        (fun ht => ⟨fun g hg => Option.some.inj hg ▸ hfirst t rfl ht,
          opens_behind_text hapart ht depth htail⟩) h
      have hopen' : (Stage.inside (f.add y) fs).IsOpen := by
        intro g hg
        rcases List.mem_cons.mp hg with rfl | hg
        · exact (hopen f (by simp)).add y
        · exact hopen g (by simp [hg])
      have hcompletes' : Completes fs (f.add y).content
          ((f.add y).left.map Placed.toTree ++ ts) x.toTree := by
        simpa [Frame.add] using hcompletes
      obtain ⟨hothers, us, rfl, hreads⟩ := ih (fun u hu => hts u (by simp [hu]))
        (List.isChain_of_isChain_cons hapart) hopen'
        (not_endsWithText_behind hapart (Placed.content_toTree y).symm) hcompletes' hrest
      refine ⟨?_, y :: us, rfl, ?_⟩
      · intro u hu
        rcases List.mem_cons.mp hu with rfl | hu
        · exact hlegible
        · exact hothers u hu
      · have hsame : addAll (f.add y) us = addAll f (y :: us) := by simp [addAll, Frame.add]
        rw [← hsame]
        exact hreads

/-- What stands between the tags of an element is read as its children. -/
theorem rereadInner {ts : List Tree} (hts : ∀ t ∈ ts, IsReread t) (htidy : ∀ t ∈ ts, t.Tidy)
    (hne : ts ≠ []) (hapart : Tree.Apart ts)
    (depth : Nat) {inside : List Char} (hopen : (Stage.inside f fs).IsOpen) (hempty : f.left = [])
    (hcompletes : Completes fs f.content ts x.toTree)
    (h : ReadsAll (tokens (Tree.renderInner depth ts ++ '<' :: inside)) (.inside f fs)
      (.after x)) :
    (∀ t ∈ ts, t.Legible) ∧ ∃ us, us.map Placed.toTree = ts ∧
      ReadsAll (tokens ('<' :: inside)) (.inside (addAll f us) fs) (.after x) := by
  have hlast : ¬ EndsWithText f := not_endsWithText_of_nil hempty
  rcases renderInner_cases hne hapart depth with ⟨value, children, rfl, hinner⟩ | hinner
  · obtain ⟨hvalue, rfl⟩ := Tree.Tidy.of_singleton htidy
    rw [hinner, ← List.append_nil (Entity.escape value.toList)] at h
    have hlast' : ∀ g ∈ (f :: fs).head?, ¬ EndsWithText g := by
      intro g hg
      exact Option.some.inj hg ▸ hlast
    obtain ⟨n, hreads⟩ := readsAll_text hvalue (by simp) hlast' h
    refine ⟨?_, [.node n (.text value) []], by simp, hreads⟩
    intro t ht
    rw [List.mem_singleton.mp ht]
    exact .text hvalue
  · have hlines : Tree.renderInner depth ts ++ '<' :: inside =
        ['\n'] ++ (Tree.renderAll (depth + 1) ts ++
          (Tree.indentation depth ++ '<' :: inside)) := by
      simp [hinner]
    rw [hlines, tokens_blanks Tree.isBlank_of_mem_newline] at h
    have hcompletes' : Completes fs f.content (f.left.map Placed.toTree ++ ts) x.toTree := by
      rw [hempty]
      exact hcompletes
    obtain ⟨hlegible, us, hus, hreads⟩ := rereadAll hts hapart (depth + 1)
      (Tree.opens_closing depth inside) hopen (fun _ _ _ => hlast) hcompletes' h
    rw [tokens_blanks Tree.isBlank_of_mem_indentation] at hreads
    exact ⟨hlegible, us, hus, hreads⟩

/-- A tree that is read from its written form is legible. -/
theorem isReread {t : Tree} (h : t.Tidy) : IsReread t := by
  induction h with
  | @text value hvalue =>
      intro depth outer tail x hopen hcompletes hplace h
      obtain ⟨hlast, blanks, inside, hblanks, rfl⟩ := hplace rfl
      rw [Tree.render_text_append, tokens_blanks Tree.isBlank_of_mem_indentation,
        ← List.cons_append, ← List.append_assoc] at h
      obtain ⟨n, hreads⟩ := readsAll_text hvalue (Tree.isBlank_of_mem_line hblanks) hlast h
      refine ⟨.text hvalue, .node n (.text value) [], by simp, ?_⟩
      rw [tokens_blanks hblanks]
      exact hreads
  | @element name attributes children htag hchildren hapart ih =>
      intro depth outer tail x hopen hcompletes hplace h
      rw [Tree.render_element_append, tokens_blanks Tree.isBlank_of_mem_indentation] at h
      obtain ⟨hpaired, ⟨rfl, hne, n, rest, hxs, hreads⟩ | ⟨hlast, n, rest, hxs, hreads⟩⟩ :=
        readsAll_tag htag.toIsSplitTag (Tree.endsTag_renderBehind depth name children tail) hopen
          hcompletes h
      · rw [Tree.renderBehind_nil] at hxs
        rw [← (List.cons.inj (List.cons.inj hxs).2).2] at hreads
        have hlegible : IsLegible name attributes true :=
          ⟨hpaired, fun _ => hne, by simp, by simp⟩
        rw [tokens_newline] at hreads
        exact ⟨.element htag.toIsSplitTag hlegible (by simp) hapart, _, by simp, hreads⟩
      · have hparent : children ≠ [] := by
          rintro rfl
          rw [Tree.renderBehind_nil] at hxs
          cases (List.cons.inj hxs).1
        rw [Tree.renderBehind_of_ne_nil depth name hparent] at hxs
        rw [← (List.cons.inj hxs).2] at hreads
        obtain ⟨hall, us, rfl, hclosing⟩ := rereadInner ih hchildren hparent hapart depth
          (isOpen_inside hopen) rfl hcompletes hreads
        have hopenName : (openName (addAll ⟨n, .element name attributes, [], []⟩ us)).2 =
            name.toList := rfl
        obtain ⟨hname, hbehind⟩ := readsAll_closing hopenName hclosing
        have hlegible : IsLegible name attributes (us.map Placed.toTree).isEmpty := by
          rw [List.isEmpty_eq_false_iff.mpr hparent]
          exact ⟨hpaired, by simp, fun _ => hlast, fun _ => hname⟩
        rw [tokens_newline] at hbehind
        exact ⟨.element htag.toIsSplitTag hlegible hall hapart, _, by simp [addAll, Frame.fill],
          hbehind⟩

/-- A tree that is read from its written form as a whole document is legible. -/
theorem legible_of_readsAll {t : Tree} (h : t.Tidy) (htop : t.content.isElement)
    (hx : x.toTree = t) (hreads : ReadsAll (tokens (t.render 0)) .before (.after x)) :
    t.Legible := by
  have hcompletes : Completes [] t.content t.children x.toTree := by
    rw [hx]
    cases t with
    | node c ts => rfl
  have helement : t.content.isElement = false →
      (∀ f ∈ ([] : List Frame).head?, ¬ EndsWithText f) ∧ Opens [] := by
    intro htext
    rw [htop] at htext
    cases htext
  rw [← List.append_nil (t.render 0)] at hreads
  exact (isReread h 0 [] [] x trivial hcompletes helement hreads).1

end Builder

/-- Below the texts that a reader makes stands nothing. -/
theorem Tree.Tidy.textsAreLeaves {t : Tree} (h : t.Tidy) : t.TextsAreLeaves := by
  induction h with
  | @text value hvalue => exact .text value
  | element htag hchildren hapart ih => exact .element ih

namespace Document

variable {text : String} {d : Document}

/-- A document that was read can be read again from what is written of it, and is written as
before, if and only if its tree is legible. -/
theorem parse_serialize_iff (h : parse text = .ok d) :
    (∃ d', parse d.serialize = .ok d' ∧ d'.serialize = d.serialize) ↔
      (d.tree d.root).Legible := by
  obtain ⟨t, hshows, hroot, htop, htidy⟩ := exists_tidy_of_parse h
  have htree : d.tree d.root = t.toTree := by rw [hroot, hshows.tree]
  have htop' : t.toTree.content.isElement := by
    rw [Placed.content_toTree]
    exact htop
  rw [serialize, htree]
  constructor
  · rintro ⟨d', hparse, hsame⟩
    obtain ⟨u, hshows', hroot', hu, hreads⟩ := exists_readsAll_of_parse hparse
    have htree' : d'.tree d'.root = u.toTree := by rw [hroot', hshows'.tree]
    have hutop : u.toTree.content.isElement := by
      rw [Placed.content_toTree]
      exact hu
    rw [serialize, htree'] at hsame
    have heq : u.toTree = t.toTree := Tree.toText_inj hreads.tidy htidy hutop htop' hsame
    rw [dropByteOrderMark_toText htop'] at hreads
    exact Builder.legible_of_readsAll htidy htop' heq hreads
  · intro hlegible
    obtain ⟨d', hparse, hpruned⟩ := exists_parse_toText hlegible htop'
    rw [htidy.textsAreLeaves.pruned_eq] at hpruned
    refine ⟨d', hparse, ?_⟩
    rw [serialize, hpruned]

/-- A text in an element whose name ends in a slash. -/
def slashText : String :=
  "<a/ >x</a/>"

/-- The document of that text. -/
def slashDocument : Document :=
  ⟨#[⟨.element "a/" [], none, [1]⟩, ⟨.text "x", some 0, []⟩], 0⟩

/-- What is written of that document is not read as anything that is written in the same
way. -/
theorem parse_serialize_iff_slash :
    parse slashText = .ok slashDocument ∧
      ¬ ∃ d', parse slashDocument.serialize = .ok d' ∧
        d'.serialize = slashDocument.serialize := by
  have hparse : parse slashText = .ok slashDocument :=
    Outcome.of_toOption_eq_some (by decide +kernel)
  refine ⟨hparse, ?_⟩
  rw [parse_serialize_iff hparse]
  intro hlegible
  have htree : slashDocument.tree slashDocument.root =
      .node (.element "a/" []) [.node (.text "x") []] := rfl
  rw [htree] at hlegible
  cases hlegible with
  | element htag hlegible hchildren hapart => exact absurd (hlegible.opens rfl) (by decide)

end Document

end RouteCompiler.Route
