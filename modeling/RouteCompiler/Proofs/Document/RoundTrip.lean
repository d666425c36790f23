import RouteCompiler.Proofs.Document.Building
import RouteCompiler.Proofs.Document.Scanning

/-!
# Reading undoes writing

A document is written with indentation, empty elements are closed at once and a lone
text stands on the line of its element.  Reading undoes each of these choices, so
the tree that was written comes back.

The induction is on the tree: reading the written form of a tree inside an open
element adds that tree at the end of the element, whatever follows.

Main definitions:

- `Tree.Writable`: the trees that can be written.
- `Tree.Legible`: the trees whose written form is taken apart as it was put together.
- `Tree.pruned`: a tree without what stands below its texts.

Main results:

- Theorem `adds_render`: reading a written tree adds it.
- Theorem `exists_parse_serialize`: a document that was written can be read, and its
  tree is the one that was written.
-/

namespace RouteCompiler.Route

open RouteCompiler.Text

/-! ## Trees that can be written -/

namespace Tree

/-- No text stands beside another one. -/
abbrev Apart (ts : List Tree) : Prop :=
  ts.IsChain fun t u => t.content.isElement ∨ u.content.isElement

/-- Every tag and every text can be written, and texts do not stand side by side. -/
inductive Writable : Tree → Prop
  | text {value : String} {children : List Tree} (h : IsValue value.toList) :
      Writable (.node (.text value) children)
  | element {name : String} {attributes : List Attribute} {children : List Tree}
      (htag : IsTag name attributes) (hchildren : ∀ t ∈ children, Writable t)
      (hapart : children.IsChain fun t u => t.content.isElement ∨ u.content.isElement) :
      Writable (.node (.element name attributes) children)

/-- Every tag is cut out and split as it was written, no text loses anything, and texts do
not stand side by side. -/
inductive Legible : Tree → Prop
  | text {value : String} {children : List Tree} (h : IsValue value.toList) :
      Legible (.node (.text value) children)
  | element {name : String} {attributes : List Attribute} {children : List Tree}
      (htag : IsSplitTag name attributes)
      (hlegible : IsLegible name attributes children.isEmpty)
      (hchildren : ∀ t ∈ children, Legible t)
      (hapart : children.IsChain fun t u => t.content.isElement ∨ u.content.isElement) :
      Legible (.node (.element name attributes) children)

/-- What can be written is legible. -/
theorem Writable.legible {t : Tree} (h : t.Writable) : t.Legible := by
  induction h with
  | text h => exact .text h
  | element htag hchildren hapart ih =>
      exact .element htag.split (Token.isLegible_of_isTag htag _) ih hapart

mutual

/-- A tree without what stands below its texts: no walk reaches it, and it is not
written. -/
def pruned : Tree → Tree
  | .node (.text value) _ => .node (.text value) []
  | .node (.element name attributes) children =>
      .node (.element name attributes) (prunedAll children)

/-- Trees without what stands below their texts. -/
def prunedAll : List Tree → List Tree
  | [] => []
  | t :: ts => t.pruned :: prunedAll ts

end

/-- Texts have nothing below them. -/
inductive TextsAreLeaves : Tree → Prop
  | text (value : String) : TextsAreLeaves (.node (.text value) [])
  | element {name : String} {attributes : List Attribute} {children : List Tree}
      (hchildren : ∀ t ∈ children, TextsAreLeaves t) :
      TextsAreLeaves (.node (.element name attributes) children)

theorem prunedAll_eq_map (ts : List Tree) : prunedAll ts = ts.map pruned := by
  induction ts with
  | nil => rfl
  | cons t ts ih => simp [prunedAll, ih]

theorem content_pruned (t : Tree) : t.pruned.content = t.content := by
  obtain ⟨c, children⟩ := t
  cases c <;> rfl

/-- Where texts are leaves, nothing is cut off. -/
theorem TextsAreLeaves.pruned_eq {t : Tree} (h : t.TextsAreLeaves) : t.pruned = t := by
  induction h with
  | text value => rfl
  | @element name attributes children hchildren ih =>
      have hsame : children.map pruned = children :=
        (List.map_congr_left ih).trans (List.map_id children)
      rw [pruned, prunedAll_eq_map, hsame]

/-! ## The written form -/

/-- What stands between the tags of an element that has children. -/
def renderInner (depth : Nat) (children : List Tree) : List Char :=
  if children.all fun child => !child.content.isElement then
    children.flatMap fun child => renderInline child.content
  else '\n' :: renderAll (depth + 1) children ++ indentation depth

variable {name : String} {attributes : List Attribute} {children : List Tree}

theorem isBlank_of_mem_indentation {depth : Nat} : ∀ c ∈ indentation depth, isBlank c = true := by
  intro c hc
  rw [List.eq_of_mem_replicate hc]
  rfl

theorem isBlank_of_mem_newline : ∀ c ∈ ['\n'], isBlank c = true := by
  intro c hc
  rw [List.mem_singleton.mp hc]
  rfl

theorem isBlank_of_mem_line {blanks : List Char} (h : ∀ c ∈ blanks, isBlank c = true) :
    ∀ c ∈ '\n' :: blanks, isBlank c = true := by
  intro c hc
  rcases List.mem_cons.mp hc with rfl | hc
  · rfl
  · exact h c hc

theorem render_empty (depth : Nat) :
    render depth (.node (.element name attributes) []) =
      indentation depth ++ '<' :: (writtenTag name attributes ++ '/' :: '>' :: ['\n']) := by
  simp [render, writtenTag]

theorem render_element (depth : Nat) (hne : children ≠ []) :
    render depth (.node (.element name attributes) children) =
      indentation depth ++ '<' :: (writtenTag name attributes ++ '>' ::
        (renderInner depth children ++ '<' :: '/' :: (name.toList ++ '>' :: ['\n']))) := by
  rw [render]
  simp only [List.isEmpty_iff, if_neg hne, renderInner]
  split
  · simp [writtenTag]
  · simp [writtenTag]

theorem render_text (depth : Nat) (value : String) :
    render depth (.node (.text value) children) =
      indentation depth ++ (Entity.escape value.toList ++ ['\n']) := by
  simp [render]

end Tree

/-- The next thing after blanks is markup. -/
def Opens (cs : List Char) : Prop :=
  ∃ blanks inside, (∀ c ∈ blanks, isBlank c = true) ∧ cs = blanks ++ '<' :: inside

/-- The written form of an element begins with its tag. -/
theorem exists_render_eq {t : Tree} (h : t.content.isElement) (depth : Nat) :
    ∃ rest, t.render depth = Tree.indentation depth ++ '<' :: rest := by
  obtain ⟨c, children⟩ := t
  cases c with
  | text value => simp [Tree.content, Content.isElement, Content.name?] at h
  | element name attributes =>
      by_cases hne : children = []
      · rw [hne, Tree.render_empty]
        exact ⟨_, rfl⟩
      · rw [Tree.render_element depth hne]
        exact ⟨_, rfl⟩

theorem opens_render {t : Tree} (h : t.content.isElement) (depth : Nat) (tail : List Char) :
    Opens (t.render depth ++ tail) := by
  obtain ⟨rest, hrest⟩ := exists_render_eq h depth
  rw [hrest, List.append_assoc, List.cons_append]
  exact ⟨_, _, Tree.isBlank_of_mem_indentation, rfl⟩

/-- Behind a text among trees that stand apart comes markup. -/
theorem opens_behind_text {t : Tree} {ts : List Tree}
    (hapart : Tree.Apart (t :: ts))
    (ht : t.content.isElement = false) (depth : Nat) {tail : List Char} (htail : Opens tail) :
    Opens (Tree.renderAll depth ts ++ tail) := by
  cases ts with
  | nil => exact htail
  | cons u us =>
      have hu : u.content.isElement = true := by
        rcases (List.isChain_cons_cons.mp hapart).1 with helement | helement
        · rw [ht] at helement
          cases helement
        · exact helement
      rw [Tree.renderAll, List.append_assoc]
      exact opens_render hu depth _

/-- Where there are only texts, and none stands beside another one, there is one. -/
theorem exists_eq_singleton_of_all {ts : List Tree} (hne : ts ≠ [])
    (hapart : Tree.Apart ts)
    (hall : (ts.all fun t => !t.content.isElement) = true) :
    ∃ value children, ts = [.node (.text value) children] := by
  have htexts : ∀ t ∈ ts, t.content.isElement = false := by
    intro t ht
    simpa using List.all_eq_true.mp hall t ht
  cases ts with
  | nil => exact absurd rfl hne
  | cons t ts =>
      cases ts with
      | nil =>
          obtain ⟨c, children⟩ := t
          cases c with
          | text value => exact ⟨value, children, rfl⟩
          | element name attributes =>
              have hfalse := htexts (.node (.element name attributes) children) (by simp)
              simp [Tree.content, Content.isElement, Content.name?] at hfalse
      | cons u us =>
          rcases (List.isChain_cons_cons.mp hapart).1 with helement | helement
          · rw [htexts t (by simp)] at helement
            cases helement
          · rw [htexts u (by simp)] at helement
            cases helement

/-- What stands between the tags of an element is a lone text, or lines. -/
theorem renderInner_cases {ts : List Tree} (hne : ts ≠ [])
    (hapart : Tree.Apart ts) (depth : Nat) :
    (∃ value children, ts = [.node (.text value) children] ∧
      Tree.renderInner depth ts = Entity.escape value.toList) ∨
    Tree.renderInner depth ts =
      '\n' :: Tree.renderAll (depth + 1) ts ++ Tree.indentation depth := by
  by_cases hall : (ts.all fun t => !t.content.isElement) = true
  · left
    obtain ⟨value, children, rfl⟩ := exists_eq_singleton_of_all hne hapart hall
    refine ⟨value, children, rfl, ?_⟩
    rw [Tree.renderInner, if_pos hall]
    simp [Tree.content, Tree.renderInline]
  · right
    rw [Tree.renderInner, if_neg hall]

namespace Builder

open Token

variable {b : Builder} {f g : Frame} {fs : List Frame} {name value : String}
  {attributes : List Attribute} {total : Nat} {unread : List Char}
  {tokens : List (Token × List Char)}

/-! ## Tokens inside an open element -/

theorem run_text (h : b.At (.inside f fs)) (hvalue : IsValue value.toList)
    (hlast : ¬ EndsWithText f) :
    run total ((.text (Entity.escape value.toList), unread) :: tokens) b =
      run total tokens (b.withLeaf f.id (.text value)) := by
  have htrimmed : trimChars value.toList = value.toList :=
    trimChars_eq_self hvalue.head hvalue.last
  have hnonempty : trimChars value.toList ≠ [] := by
    rw [htrimmed]
    exact hvalue.nonempty
  have hadd := h.addText hlast hnonempty
  rw [htrimmed, String.ofList_toList] at hadd
  rw [run, Builder.step, Entity.unescape_escape]
  simp only [Except.mapError, bind, Except.bind, hadd]

theorem run_empty (h : b.At (.inside f fs)) (htag : IsSplitTag name attributes) :
    run total ((.tag (writtenTag name attributes) true, unread) :: tokens) b =
      run total tokens (b.withLeaf f.id (.element name attributes)) := by
  rw [run, Builder.step, Attribute.ofTagContent_written htag, Attribute.tagName_written htag]
  simp only [Except.mapError, bind, Except.bind, h.addElement, String.ofList_toList]
  rfl

/-- A builder in which a new element is open. -/
def withOpen (b : Builder) (parent : NodeId) (name : String) (attributes : List Attribute) :
    Builder :=
  { b.withLeaf parent (.element name attributes) with
    openElements := (b.document.size, name.toList) :: b.openElements }

theorem At.withOpen (h : b.At (.inside f fs)) (name : String) (attributes : List Attribute) :
    (b.withOpen f.id name attributes).At
      (.inside ⟨b.document.size, .element name attributes, [], []⟩ (f :: fs)) := by
  have hopen := @At.openElement b f fs name.toList attributes h
  rw [String.ofList_toList] at hopen
  exact hopen

theorem run_opening (h : b.At (.inside f fs)) (htag : IsSplitTag name attributes) :
    run total ((.tag (writtenTag name attributes) false, unread) :: tokens) b =
      run total tokens (b.withOpen f.id name attributes) := by
  rw [run, Builder.step, Attribute.ofTagContent_written htag, Attribute.tagName_written htag]
  simp only [Except.mapError, bind, Except.bind, h.addElement, String.ofList_toList]
  rfl

theorem run_closing (h : b.At (.inside f fs)) (hname : f.content.name? = some name) :
    run total ((.close name.toList, unread) :: tokens) b =
      run total tokens { b with openElements := fs.map openName } := by
  have hopen : b.openElements = (f.id, name.toList) :: fs.map openName := by
    rw [h.2.2.1, List.map_cons, openName, hname]
    rfl
  rw [run, Builder.step, hopen]
  simp only [if_true, bind, Except.bind]

/-! ## Trees inside an open element -/

/-- An open element with trees behind those that it had. -/
def addAll (f : Frame) (us : List Placed) : Frame :=
  ⟨f.id, f.content, f.left ++ us, f.right⟩

/-- Reading a text that something follows adds trees to the innermost open element. -/
def Adds (total : Nat) (b : Builder) (f : Frame) (fs : List Frame) (cs tail : List Char)
    (ts : List Tree) : Prop :=
  ∃ b' us, us.map Placed.toTree = ts ∧ b'.At (.inside (addAll f us) fs) ∧
    run total (scan (cs ++ tail)) b = run total (scan tail) b'

/-- What is read first is added first. -/
theorem Adds.append {cs ds tail : List Char} {ts us : List Tree}
    (h : Adds total b f fs cs (ds ++ tail) ts)
    (hrest : ∀ b' vs, vs.map Placed.toTree = ts → b'.At (.inside (addAll f vs) fs) →
      Adds total b' (addAll f vs) fs ds tail us) :
    Adds total b f fs (cs ++ ds) tail (ts ++ us) := by
  obtain ⟨b', vs, hvs, hat, hrun⟩ := h
  obtain ⟨b'', ws, hws, hat', hrun'⟩ := hrest b' vs hvs hat
  refine ⟨b'', vs ++ ws, ?_, ?_, ?_⟩
  · rw [List.map_append, hvs, hws]
  · simpa [addAll] using hat'
  · rw [List.append_assoc, hrun, hrun']

/-- Blanks in front add nothing. -/
theorem Adds.blanks {blanks cs tail : List Char} {ts : List Tree}
    (hblanks : ∀ c ∈ blanks, isBlank c = true) (h : Adds total b f fs cs tail ts) :
    Adds total b f fs (blanks ++ cs) tail ts := by
  obtain ⟨b', us, hus, hat, hrun⟩ := h
  refine ⟨b', us, hus, hat, ?_⟩
  rw [List.append_assoc, scan_blanks hblanks, hrun]

theorem adds_text (h : b.At (.inside f fs)) (hvalue : IsValue value.toList)
    (hlast : ¬ EndsWithText f) {blanks tail : List Char}
    (hblanks : ∀ c ∈ blanks, isBlank c = true) (htail : Opens tail) :
    Adds total b f fs (Entity.escape value.toList ++ blanks) tail
      [.node (.text value) []] := by
  obtain ⟨more, inside, hmore, rfl⟩ := htail
  have hall : ∀ c ∈ blanks ++ more, isBlank c = true := by
    intro c hc
    rcases List.mem_append.mp hc with hc | hc
    · exact hblanks c hc
    · exact hmore c hc
  refine ⟨b.withLeaf f.id (.text value), [.node b.document.size (.text value) []], ?_,
    h.withLeaf _, ?_⟩
  · simp
  · have hjoin : Entity.escape value.toList ++ blanks ++ (more ++ '<' :: inside) =
        Entity.escape value.toList ++ (blanks ++ more) ++ '<' :: inside := by simp
    rw [hjoin, scan_text hvalue hall, run_text h hvalue hlast, scan_blanks hmore]

theorem adds_empty (h : b.At (.inside f fs)) (htag : IsSplitTag name attributes)
    (hlegible : IsLegible name attributes true) (tail : List Char) :
    Adds total b f fs ('<' :: (writtenTag name attributes ++ '/' :: '>' :: ['\n'])) tail
      [.node (.element name attributes) []] := by
  refine ⟨b.withLeaf f.id (.element name attributes),
    [.node b.document.size (.element name attributes) []], ?_, h.withLeaf _, ?_⟩
  · simp
  · have hjoin : '<' :: (writtenTag name attributes ++ '/' :: '>' :: ['\n']) ++ tail =
        '<' :: (writtenTag name attributes ++ '/' :: '>' :: (['\n'] ++ tail)) := by simp
    rw [hjoin, scan_empty htag hlegible, run_empty h htag, scan_blanks Tree.isBlank_of_mem_newline]

/-- An element is added when what stands between its tags is added to it. -/
theorem adds_element (h : b.At (.inside f fs)) (htag : IsSplitTag name attributes)
    (hlegible : IsLegible name attributes false) {inner : List Char} {ts : List Tree} (tail : List Char)
    (hinner : ∀ tail', Adds total (b.withOpen f.id name attributes)
      ⟨b.document.size, .element name attributes, [], []⟩ (f :: fs) inner ('<' :: '/' :: tail')
        ts) :
    Adds total b f fs ('<' :: (writtenTag name attributes ++ '>' ::
      (inner ++ '<' :: '/' :: (name.toList ++ '>' :: ['\n'])))) tail
        [.node (.element name attributes) ts] := by
  obtain ⟨b', us, hus, hat, hrun⟩ := hinner (name.toList ++ '>' :: (['\n'] ++ tail))
  refine ⟨{ b' with openElements := (f :: fs).map openName },
    [.node b.document.size (.element name attributes) us], ?_, ?_, ?_⟩
  · simp [hus]
  · have hclosed := hat.close
    simp only [addAll, Frame.fill, List.nil_append, List.append_nil] at hclosed
    exact hclosed
  · have hjoin : '<' :: (writtenTag name attributes ++ '>' ::
        (inner ++ '<' :: '/' :: (name.toList ++ '>' :: ['\n']))) ++ tail =
          '<' :: (writtenTag name attributes ++ '>' ::
            (inner ++ '<' :: '/' :: (name.toList ++ '>' :: (['\n'] ++ tail)))) := by simp
    rw [hjoin, scan_opening htag hlegible, run_opening h htag, hrun,
      scan_closing htag.unbroken (hlegible.closes rfl), run_closing hat rfl, scan_blanks Tree.isBlank_of_mem_newline]

/-- Nothing joins an element that was added. -/
theorem not_endsWithText_addLast {u : Placed} (h : u.content.isElement) :
    ¬ EndsWithText (addAll f [u]) := by
  rintro ⟨left, i, value, cs, hleft⟩
  rw [addAll] at hleft
  have hlast := (List.append_inj' hleft rfl).2
  rw [List.singleton_inj] at hlast
  rw [hlast] at h
  simp [Content.isElement, Content.name?] at h

theorem not_endsWithText_of_nil (h : f.left = []) : ¬ EndsWithText f := by
  rintro ⟨left, i, value, cs, hleft⟩
  rw [h] at hleft
  simp at hleft

/-- Among trees that stand apart a text does not join what was added before it. -/
theorem not_endsWithText_behind {t : Tree} {ts : List Tree} {v : Placed}
    (hapart : Tree.Apart (t :: ts))
    (hv : v.content = t.content) :
    ∀ u, ts.head? = some u → u.content.isElement = false → ¬ EndsWithText (addAll f [v]) := by
  intro u hu htext
  cases ts with
  | nil => cases hu
  | cons w ws =>
      obtain rfl := Option.some.inj hu
      rcases (List.isChain_cons_cons.mp hapart).1 with helement | helement
      · exact not_endsWithText_addLast (hv ▸ helement)
      · rw [htext] at helement
        cases helement

/-- Blanks behind add nothing. -/
theorem Adds.blanks_behind {cs blanks tail : List Char} {ts : List Tree}
    (hblanks : ∀ c ∈ blanks, isBlank c = true)
    (h : Adds total b f fs cs (blanks ++ tail) ts) :
    Adds total b f fs (cs ++ blanks) tail ts := by
  obtain ⟨b', us, hus, hat, hrun⟩ := h
  refine ⟨b', us, hus, hat, ?_⟩
  rw [List.append_assoc, hrun, scan_blanks hblanks]

/-- Wherever a written tree is read inside an open element, it is added there; a text
needs markup behind it and no text before it. -/
def IsAdded (t : Tree) : Prop :=
  ∀ total depth b f fs tail, b.At (.inside f fs) →
    (t.content.isElement = false → ¬ EndsWithText f ∧ Opens tail) →
      Adds total b f fs (t.render depth) tail [t.pruned]

theorem adds_renderAll {ts : List Tree} (hts : ∀ t ∈ ts, IsAdded t)
    (hapart : Tree.Apart ts)
    (depth : Nat) {tail : List Char} (htail : Opens tail) (h : b.At (.inside f fs))
    (hfirst : ∀ t, ts.head? = some t → t.content.isElement = false → ¬ EndsWithText f) :
    Adds total b f fs (Tree.renderAll depth ts) tail (ts.map Tree.pruned) := by
  induction ts generalizing b f with
  | nil => exact ⟨b, [], rfl, by simpa [addAll] using h, rfl⟩
  | cons t ts ih =>
      have hadded := hts t (by simp) total depth b f fs (Tree.renderAll depth ts ++ tail) h
        fun ht => ⟨hfirst t rfl ht, opens_behind_text hapart ht depth htail⟩
      refine Adds.append hadded fun b' vs hvs hat => ?_
      obtain ⟨v, rfl, hv⟩ := List.map_eq_singleton_iff.mp hvs
      have hcontent : v.content = t.content := by
        rw [← Placed.content_toTree, hv, Tree.content_pruned]
      exact ih (fun u hu => hts u (by simp [hu])) (List.isChain_of_isChain_cons hapart) hat
        (not_endsWithText_behind hapart hcontent)

/-- What stands between the tags of an element is added to it. -/
theorem adds_renderInner {ts : List Tree} (hts : ∀ t ∈ ts, IsAdded t)
    (hlegible : ∀ t ∈ ts, t.Legible) (hne : ts ≠ [])
    (hapart : Tree.Apart ts)
    (depth : Nat) {inside : List Char} (h : b.At (.inside f fs)) (hempty : f.left = []) :
    Adds total b f fs (Tree.renderInner depth ts) ('<' :: inside) (ts.map Tree.pruned) := by
  have hlast : ¬ EndsWithText f := not_endsWithText_of_nil hempty
  have htail : ∀ blanks, (∀ c ∈ blanks, isBlank c = true) → Opens (blanks ++ '<' :: inside) := by
    intro blanks hblanks
    exact ⟨blanks, inside, hblanks, rfl⟩
  rcases renderInner_cases hne hapart depth with ⟨value, children, rfl, hinner⟩ | hinner
  · cases hlegible _ (List.mem_singleton.mpr rfl) with
    | text hvalue =>
        have hnone : ∀ c ∈ ([] : List Char), isBlank c = true := by simp
        have hadded : Adds total b f fs (Entity.escape value.toList ++ []) ('<' :: inside)
            [.node (.text value) []] := adds_text h hvalue hlast hnone (htail [] hnone)
        rw [List.append_nil, ← hinner] at hadded
        exact hadded
  · have hline : ∀ c ∈ ['\n'], isBlank c = true := Tree.isBlank_of_mem_newline
    have hadded : Adds total b f fs (Tree.renderAll (depth + 1) ts)
        (Tree.indentation depth ++ '<' :: inside) (ts.map Tree.pruned) :=
      adds_renderAll hts hapart (depth + 1) (htail _ Tree.isBlank_of_mem_indentation) h
        fun _ _ _ => hlast
    rw [hinner]
    exact Adds.blanks_behind Tree.isBlank_of_mem_indentation (Adds.blanks hline hadded)

/-- Reading a written tree adds it. -/
theorem adds_render {t : Tree} (h : t.Legible) : IsAdded t := by
  induction h with
  | @text value children hvalue =>
      intro total depth b f fs tail hat hplace
      obtain ⟨hlast, htail⟩ := hplace rfl
      rw [Tree.render_text]
      exact Adds.blanks Tree.isBlank_of_mem_indentation
        (adds_text hat hvalue hlast Tree.isBlank_of_mem_newline htail)
  | @element name attributes children htag hlegible hchildren hapart ih =>
      intro total depth b f fs tail hat hplace
      rw [Tree.pruned, Tree.prunedAll_eq_map]
      by_cases hne : children = []
      · subst hne
        rw [Tree.render_empty]
        exact Adds.blanks Tree.isBlank_of_mem_indentation (adds_empty hat htag hlegible tail)
      · rw [List.isEmpty_eq_false_iff.mpr hne] at hlegible
        rw [Tree.render_element depth hne]
        apply Adds.blanks Tree.isBlank_of_mem_indentation
        apply adds_element hat htag hlegible
        intro tail'
        exact adds_renderInner ih hchildren hne hapart depth (hat.withOpen name attributes) rfl

/-! ## The root -/

theorem run_root (h : b.At .before) (htag : IsSplitTag name attributes) (isEmpty : Bool) :
    ∃ b', b'.At (.after (.node 0 (.element name attributes) [])) ∧
      ∀ total unread tokens,
        run total ((.tag (writtenTag name attributes) isEmpty, unread) :: tokens) b =
          run total tokens (if isEmpty then b' else
            { b' with openElements := (0, name.toList) :: b'.openElements }) := by
  obtain ⟨b', hadd, hat⟩ := h.addRoot name.toList attributes
  rw [String.ofList_toList] at hat
  refine ⟨b', hat, fun total unread tokens => ?_⟩
  rw [run, Builder.step, Attribute.ofTagContent_written htag, Attribute.tagName_written htag]
  simp only [Except.mapError, bind, Except.bind, hadd]
  rfl

theorem At.openWrittenRoot (h : b.At (.after (.node 0 (.element name attributes) []))) :
    At { b with openElements := (0, name.toList) :: b.openElements }
      (.inside ⟨0, .element name attributes, [], []⟩ []) := by
  rw [← String.ofList_toList (s := name)] at h
  have hopen := h.openRoot
  rw [String.ofList_toList] at hopen
  exact hopen

/-- Reading a written tree from the beginning makes it the tree of the root. -/
theorem exists_run_render {t : Tree} (h : t.Legible) (htop : t.content.isElement)
    (total : Nat) :
    ∃ b u, u.toTree = t.pruned ∧ b.At (.after u) ∧
      run total (scan (t.render 0)) start = .ok b := by
  have hline : scan ['\n'] = [] := scan_of_blank Tree.isBlank_of_mem_newline
  cases h with
  | text hvalue => simp [Tree.content, Content.isElement, Content.name?] at htop
  | @element name attributes children htag hlegible hchildren hapart =>
      rw [Tree.pruned, Tree.prunedAll_eq_map]
      by_cases hne : children = []
      · subst hne
        obtain ⟨b, hat, hrun⟩ := run_root at_start htag true
        refine ⟨b, _, ?_, hat, ?_⟩
        · simp
        · have hrender : Tree.render 0 (.node (.element name attributes) []) =
              '<' :: (writtenTag name attributes ++ '/' :: '>' :: ['\n']) := Tree.render_empty 0
          rw [hrender, scan_empty htag hlegible, hrun, hline]
          rfl
      · rw [List.isEmpty_eq_false_iff.mpr hne] at hlegible
        obtain ⟨b, hat, hrun⟩ := run_root at_start htag false
        have hopen := hat.openWrittenRoot
        have hadded : Adds total _ ⟨0, .element name attributes, [], []⟩ []
            (Tree.renderInner 0 children) ('<' :: '/' :: (name.toList ++ '>' :: ['\n']))
              (children.map Tree.pruned) :=
          adds_renderInner (fun t ht => adds_render (hchildren t ht)) hchildren hne hapart 0 hopen
            rfl
        obtain ⟨b', us, hus, hat', hinner⟩ := hadded
        refine ⟨{ b' with openElements := [] }, _, ?_, hat'.closeRoot, ?_⟩
        · simp [addAll, Frame.fill, ← hus]
        · have hrender : Tree.render 0 (.node (.element name attributes) children) =
              '<' :: (writtenTag name attributes ++ '>' :: (Tree.renderInner 0 children ++
                '<' :: '/' :: (name.toList ++ '>' :: ['\n']))) := Tree.render_element 0 hne
          rw [hrender, scan_opening htag hlegible, hrun]
          simp only [Bool.false_eq_true, if_false]
          rw [hinner, scan_closing htag.unbroken (hlegible.closes rfl), run_closing hat' rfl,
            hline]
          rfl

theorem At.finish_eq {u : Placed} (h : b.At (.after u)) : b.finish = .ok b.document := by
  obtain ⟨-, -, hopen, hroot, -⟩ := h
  simp [Builder.finish, hopen, hroot]

end Builder

namespace Document

/-- A written tree does not begin with a byte order mark. -/
theorem dropByteOrderMark_toText {t : Tree} (htop : t.content.isElement) :
    dropByteOrderMark t.toText.toList = t.render 0 := by
  obtain ⟨rest, hrest⟩ := exists_render_eq htop 0
  rw [Tree.toText, String.toList_ofList, hrest]
  rfl

/-- A written tree can be read again. -/
theorem exists_parse_toText {t : Tree} (h : t.Legible) (htop : t.content.isElement) :
    ∃ d, parse t.toText = .ok d ∧ d.tree d.root = t.pruned := by
  obtain ⟨b, u, hu, hat, hrun⟩ := Builder.exists_run_render h htop (byteLength (t.render 0))
  refine ⟨b.document, ?_, ?_⟩
  · rw [parse, parseChars, dropByteOrderMark_toText htop, hrun]
    exact hat.finish_eq
  · rw [hat.2.1, hat.1.tree, hu]

/-- A document that was written can be read, and its tree is the one that was
written. -/
theorem exists_parse_serialize (d : Document) (hroot : d.isElement d.root)
    (h : (d.tree d.root).Writable) :
    ∃ d', parse d.serialize = .ok d' ∧ d'.tree d'.root = (d.tree d.root).pruned ∧
      ((d.tree d.root).TextsAreLeaves → d'.tree d'.root = d.tree d.root) := by
  have htop : (d.tree d.root).content.isElement := by
    have hcontent : (d.tree d.root).content = (d.content? d.root).getD (.text "") := by
      rw [tree]
      cases d.size <;> rfl
    rw [isElement, name?] at hroot
    rw [hcontent]
    cases hfound : d.content? d.root with
    | none => simp [hfound] at hroot
    | some c => simpa [hfound, Content.isElement] using hroot
  obtain ⟨d', hparse, htree⟩ := exists_parse_toText h.legible htop
  refine ⟨d', hparse, htree, fun hleaves => ?_⟩
  rw [htree, hleaves.pruned_eq]

/-- A document of texts and elements side by side. -/
def mixedDocument : Document :=
  ⟨#[⟨.element "log" [⟨"if", "a < 'b'"⟩], none, [1, 2, 3]⟩, ⟨.text "one & two", some 0, []⟩,
    ⟨.element "simple" [], some 0, [4]⟩, ⟨.text "three", some 0, []⟩,
    ⟨.text "four", some 2, []⟩], 0⟩

/-- Texts between elements, a text alone and an escaped value come back. -/
theorem exists_parse_serialize_mixed :
    ∃ d', parse mixedDocument.serialize = .ok d' ∧
      d'.tree d'.root = mixedDocument.tree mixedDocument.root := by
  have htree : mixedDocument.tree mixedDocument.root =
      .node (.element "log" [⟨"if", "a < 'b'"⟩]) [.node (.text "one & two") [],
        .node (.element "simple" []) [.node (.text "four") []], .node (.text "three") []] := rfl
  have hwritable : (mixedDocument.tree mixedDocument.root).Writable := by
    rw [htree]
    refine .element (by decide) ?_ (by decide)
    intro t ht
    simp only [List.mem_cons, List.not_mem_nil, or_false] at ht
    rcases ht with rfl | rfl | rfl
    · exact .text (by decide)
    · refine .element (by decide) ?_ (by decide)
      intro t ht
      rw [List.mem_singleton.mp ht]
      exact .text (by decide)
    · exact .text (by decide)
  obtain ⟨d', hparse, hpruned, -⟩ := exists_parse_serialize mixedDocument (by decide) hwritable
  exact ⟨d', hparse, hpruned⟩

end Document

end RouteCompiler.Route
