import RouteCompiler.Proofs.Document.Walk
import RouteCompiler.Proofs.Outcome
import RouteCompiler.Route.Document.Reader

/-!
# Building a document

While a document is read, its open elements are a path from the innermost one to
the root, and everything read so far stands on the left of that path.  Reading
ends with a document whose forest is a single tree with an element at its top.

Main definitions:

- `Builder.Stage` and `Builder.At`: how far reading has come, and what has been built.
- `Builder.Reads` and `Builder.ReadsAll`: what one token and several make of a stage.

Main results:

- Theorems `At.addElement`, `At.openElement`, `At.addText` and `At.close`: what
  each part of a step does to the path.
- Theorem `exists_reads`: every step takes in its token.
- Theorem `exists_readsAll_of_parse`: a document that was read is one tree, which is what
  the tokens of its text make.
-/

namespace RouteCompiler.Route

open RouteCompiler.Text

deriving instance DecidableEq for Document

theorem Document.Shows.withRoot {d : Document} {ts : List Placed} (h : d.Shows ts)
    (root : NodeId) : Document.Shows ⟨d.nodes, root⟩ ts :=
  ⟨h.stored, h.placed⟩

namespace Builder

/-- How far reading has come. -/
inductive Stage where
  /-- Nothing but what is passed over was met. -/
  | before
  /-- An element is open, inside the outer ones. -/
  | inside (innermost : Frame) (outer : List Frame)
  /-- The root is closed. -/
  | after (t : Placed)

/-- The name of an open element, as it is compared with a closing tag. -/
def openName (f : Frame) : NodeId × List Char :=
  (f.id, (f.content.name?.getD "").toList)

/-- An open element, whose parts are read in order. -/
structure IsOpen (f : Frame) : Prop where
  isElement : f.content.isElement
  right : f.right = []

/-- What has been built at a stage. -/
def At (b : Builder) : Stage → Prop
  | .before => b.document = .empty ∧ b.openElements = [] ∧ b.hasRoot = false
  | .inside f fs =>
      b.document.Shows [plug fs (f.fill [])] ∧ b.document.root = (plug fs (f.fill [])).id ∧
        b.openElements = (f :: fs).map openName ∧ b.hasRoot = true ∧ ∀ g ∈ f :: fs, IsOpen g
  | .after t =>
      b.document.Shows [t] ∧ b.document.root = t.id ∧ b.openElements = [] ∧ b.hasRoot = true ∧
        t.content.isElement

theorem at_start : start.At .before :=
  ⟨rfl, rfl, rfl⟩

variable {b b' : Builder} {f : Frame} {fs : List Frame} {name : List Char}
  {attributes : List Attribute}

theorem IsOpen.fill_add (h : IsOpen f) (t : Placed) : (f.add t).fill [] = f.fill [t] := by
  simp [Frame.fill, Frame.add, h.right]

theorem IsOpen.add (h : IsOpen f) (t : Placed) : IsOpen (f.add t) :=
  ⟨h.isElement, h.right⟩

/-- A builder with a new node at the end of an element. -/
def withLeaf (b : Builder) (parent : NodeId) (c : Content) : Builder :=
  { b with document := (b.document.push c).1.link parent b.document.size }

/-- A new node stands behind all that was read in the innermost element. -/
theorem At.withLeaf (h : b.At (.inside f fs)) (c : Content) :
    (b.withLeaf f.id c).At (.inside (f.add (.node b.document.size c [])) fs) := by
  obtain ⟨hshows, hroot, hopen, hhas, hall⟩ := h
  have hf := hall f (by simp)
  have hlink := ((hshows.push c).perm (List.Perm.swap _ _ _)).link
  refine ⟨?_, ?_, ?_, hhas, ?_⟩
  · simpa [Builder.withLeaf, Frame.fill, Frame.add, hf.right] using hlink
  · refine hroot.trans (id_plug_congr ?_ fs)
    rfl
  · simpa [openName, Frame.add, Builder.withLeaf] using hopen
  · intro g hg
    rcases List.mem_cons.mp hg with rfl | hg
    · exact hf.add _
    · exact hall g (by simp [hg])

/-- An element that stands in another one is put at its end. -/
theorem At.addElement (h : b.At (.inside f fs)) :
    b.addElement name attributes =
      .ok (b.withLeaf f.id (.element (String.ofList name) attributes), b.document.size) := by
  rw [Builder.addElement, h.2.2.1]
  simp [Builder.withLeaf, h.2.2.1, openName, Document.push, Document.size]

/-- An element that stays open becomes the innermost one. -/
theorem At.openElement (h : b.At (.inside f fs)) :
    At { b.withLeaf f.id (.element (String.ofList name) attributes) with
        openElements := (b.document.size, name) :: b.openElements }
      (.inside ⟨b.document.size, .element (String.ofList name) attributes, [], []⟩ (f :: fs)) := by
  obtain ⟨hshows, hroot, -, hhas, hall⟩ :=
    h.withLeaf (.element (String.ofList name) attributes)
  rw [(h.2.2.2.2 f (by simp)).fill_add] at hshows hroot
  refine ⟨hshows, hroot, ?_, hhas, ?_⟩
  · simp [h.2.2.1, openName, Content.name?]
  · intro g hg
    rcases List.mem_cons.mp hg with rfl | hg
    · exact ⟨rfl, rfl⟩
    · exact h.2.2.2.2 g hg

/-- The first element is the root. -/
theorem At.addRoot (h : b.At .before) (name : List Char) (attributes : List Attribute) :
    ∃ b', b.addElement name attributes = .ok (b', 0) ∧
      b'.At (.after (.node 0 (.element (String.ofList name) attributes) [])) := by
  obtain ⟨hdoc, hopen, hhas⟩ := h
  have hpush := Document.Shows.empty.push (.element (String.ofList name) attributes)
  refine ⟨⟨⟨(b.document.push (.element (String.ofList name) attributes)).1.nodes, 0⟩, [],
    true⟩, ?_, ?_, rfl, rfl, rfl, rfl⟩
  · simp only [Builder.addElement, hopen, hhas]
    rw [hdoc]
    rfl
  · rw [hdoc]
    exact hpush.withRoot 0

/-- The root that stays open is the innermost element. -/
theorem At.openRoot
    (h : b.At (.after (.node 0 (.element (String.ofList name) attributes) []))) :
    At { b with openElements := (0, name) :: b.openElements }
      (.inside ⟨0, .element (String.ofList name) attributes, [], []⟩ []) := by
  obtain ⟨hshows, hroot, hopen, hhas, -⟩ := h
  refine ⟨hshows, hroot, ?_, hhas, ?_⟩
  · simp [hopen, openName, Content.name?]
  · intro g hg
    rw [List.mem_singleton.mp hg]
    exact ⟨rfl, rfl⟩

/-! ## Character data -/

/-- Whether character data would be joined to what stands last in an element. -/
def EndsWithText (f : Frame) : Prop :=
  ∃ left i value cs, f.left = left ++ [.node i (.text value) cs]

theorem At.children (h : b.At (.inside f fs)) :
    b.document.children f.id = f.left.map Placed.id := by
  rw [(h.1.storesAt).children]
  simp [(h.2.2.2.2 f (by simp)).right]

theorem At.stores_left (h : b.At (.inside f fs)) {t : Placed} (ht : t ∈ f.left) :
    b.document.Stores (some f.id) t :=
  (Document.stores_node.mp h.1.storesAt).2 t (by simp [ht])

/-- Character data behind an element, or at the beginning of one, is a new
text. -/
theorem At.addText (h : b.At (.inside f fs)) (hlast : ¬ EndsWithText f) {content : List Char}
    (hcontent : trimChars content ≠ []) :
    b.addText content = .ok (b.withLeaf f.id (.text (String.ofList (trimChars content)))) := by
  have hopen : b.openElements = openName f :: fs.map openName := h.2.2.1
  have hchildren : b.document.children (openName f).1 = f.left.map Placed.id := h.children
  simp only [Builder.addText, List.isEmpty_iff, hcontent, if_false]
  rw [hopen]
  simp only [hchildren]
  rcases List.eq_nil_or_concat f.left with hnil | ⟨left, t, hleft⟩
  · simp [hnil, hopen, Builder.withLeaf, Document.createText, Document.push, Document.size]
    rfl
  · rw [List.concat_eq_append] at hleft
    have ht := h.stores_left (t := t) (by simp [hleft])
    obtain ⟨i, c, cs⟩ := t
    have helement : b.document.isElement i := by
      cases c with
      | element n as => simp [Document.isElement, Document.name?, ht.content, Content.name?]
      | text value => exact absurd ⟨left, i, value, cs, hleft⟩ hlast
    simp [hleft, helement, hopen, Builder.withLeaf, Document.createText, Document.push,
      Document.size]
    rfl

/-- Character data behind a text is joined to it. -/
theorem At.appendText (h : b.At (.inside f fs)) {left : List Placed} {i : NodeId} {value : String}
    {cs : List Placed} (hleft : f.left = left ++ [.node i (.text value) cs])
    {content : List Char} (hcontent : trimChars content ≠ []) :
    ∃ b', b.addText content = .ok b' ∧ b'.At (.inside ⟨f.id, f.content,
      left ++ [.node i (.text (value ++ String.ofList (trimChars content))) cs], []⟩ fs) := by
  have hchildren := h.children
  have ht := h.stores_left (t := .node i (.text value) cs) (by simp [hleft])
  have htext : b.document.isElement i = false := by
    simp [Document.isElement, Document.name?, ht.content, Content.name?]
  obtain ⟨hshows, hroot, hopen, hhas, hall⟩ := h
  have hf := hall f (by simp)
  refine ⟨⟨b.document.modifyContent i (Builder.appendText (String.ofList (trimChars content))),
    b.openElements, b.hasRoot⟩, ?_, ?_, ?_, ?_, hhas, ?_⟩
  · simp only [Builder.addText, List.isEmpty_iff, hcontent, if_false, hopen, List.map_cons,
      openName, hchildren]
    simp [hleft, htext]
  · have hplace : plug fs (f.fill []) =
        plug (⟨f.id, f.content, left, []⟩ :: fs) (.node i (.text value) cs) := by
      simp [plug, Frame.fill, hleft, hf.right]
    rw [hplace] at hshows
    have hmodified := hshows.modifyContent
      (Builder.appendText (String.ofList (trimChars content)))
    simpa [plug, Frame.fill, Builder.appendText] using hmodified
  · refine hroot.trans (id_plug_congr ?_ fs)
    rfl
  · simpa [openName] using hopen
  · intro g hg
    rcases List.mem_cons.mp hg with rfl | hg
    · exact ⟨hf.isElement, rfl⟩
    · exact hall g (by simp [hg])

/-! ## Closing tags -/

/-- A closing tag of an element inside another one adds the element to it. -/
theorem At.close {g : Frame} (h : b.At (.inside f (g :: fs))) :
    At { b with openElements := (g :: fs).map openName } (.inside (g.add (f.fill [])) fs) := by
  obtain ⟨hshows, hroot, hopen, hhas, hall⟩ := h
  have hg := hall g (by simp)
  refine ⟨?_, ?_, rfl, hhas, ?_⟩
  · rw [hg.fill_add]
    exact hshows
  · rw [hg.fill_add]
    exact hroot
  · intro k hk
    rcases List.mem_cons.mp hk with rfl | hk
    · exact hg.add _
    · exact hall k (by simp [hk])

/-- The closing tag of the root ends the document. -/
theorem At.closeRoot (h : b.At (.inside f [])) :
    At { b with openElements := [] } (.after (f.fill [])) :=
  ⟨h.1, h.2.1, rfl, h.2.2.2.1, (h.2.2.2.2 f (by simp)).isElement⟩

/-! ## One token -/

/-- The character data of a token. -/
def characters? : Token → Option (List Char)
  | .text written => (Entity.unescape written).toOption
  | .verbatim content => some content
  | _ => none

/-- What the element of a tag holds. -/
def tagged (content : List Char) (attributes : List Attribute) : Content :=
  .element (String.ofList (Attribute.tagName content)) attributes

/-- What reading a token makes of a stage; new nodes have some address. -/
inductive Reads : Token → Stage → Stage → Prop
  | blank {token : Token} {content : List Char} {stage : Stage}
      (hcontent : characters? token = some content) (hblank : trimChars content = []) :
      Reads token stage stage
  | newText {token : Token} {content : List Char} {f : Frame} {fs : List Frame} (n : NodeId)
      (hcontent : characters? token = some content) (htrimmed : trimChars content ≠ [])
      (hlast : ¬ EndsWithText f) :
      Reads token (.inside f fs)
        (.inside (f.add (.node n (.text (String.ofList (trimChars content))) [])) fs)
  | moreText {token : Token} {content : List Char} {f : Frame} {fs : List Frame}
      {left cs : List Placed} {i : NodeId} {value : String}
      (hcontent : characters? token = some content) (htrimmed : trimChars content ≠ [])
      (hleft : f.left = left ++ [.node i (.text value) cs]) :
      Reads token (.inside f fs) (.inside ⟨f.id, f.content,
        left ++ [.node i (.text (value ++ String.ofList (trimChars content))) cs], []⟩ fs)
  | openRoot {content : List Char} {attributes : List Attribute} (n : NodeId)
      (htag : Attribute.ofTagContent content = .ok attributes) :
      Reads (.tag content false) .before (.inside ⟨n, tagged content attributes, [], []⟩ [])
  | emptyRoot {content : List Char} {attributes : List Attribute} (n : NodeId)
      (htag : Attribute.ofTagContent content = .ok attributes) :
      Reads (.tag content true) .before (.after (.node n (tagged content attributes) []))
  | opening {content : List Char} {attributes : List Attribute} {f : Frame} {fs : List Frame}
      (n : NodeId) (htag : Attribute.ofTagContent content = .ok attributes) :
      Reads (.tag content false) (.inside f fs)
        (.inside ⟨n, tagged content attributes, [], []⟩ (f :: fs))
  | empty {content : List Char} {attributes : List Attribute} {f : Frame} {fs : List Frame}
      (n : NodeId) (htag : Attribute.ofTagContent content = .ok attributes) :
      Reads (.tag content true) (.inside f fs)
        (.inside (f.add (.node n (tagged content attributes) [])) fs)
  | closing {f g : Frame} {fs : List Frame} :
      Reads (.close (openName f).2) (.inside f (g :: fs)) (.inside (g.add (f.fill [])) fs)
  | closeRoot {f : Frame} :
      Reads (.close (openName f).2) (.inside f []) (.after (f.fill []))

theorem exists_reads_addText {stage : Stage} {token : Token} {content : List Char}
    (h : b.At stage) (hcontent : characters? token = some content)
    (hadd : b.addText content = .ok b') : ∃ stage', Reads token stage stage' ∧ b'.At stage' := by
  by_cases htrimmed : trimChars content = []
  · simp only [Builder.addText, htrimmed, List.isEmpty_nil, if_true, Except.ok.injEq] at hadd
    exact ⟨stage, .blank hcontent htrimmed, hadd ▸ h⟩
  · cases stage with
    | before => simp [Builder.addText, htrimmed, h.2.1] at hadd
    | after t => simp [Builder.addText, htrimmed, h.2.2.1] at hadd
    | inside f fs =>
        by_cases hlast : EndsWithText f
        · obtain ⟨left, i, value, cs, hleft⟩ := hlast
          obtain ⟨b'', hb'', hat⟩ := h.appendText hleft htrimmed
          rw [hb'', Except.ok.injEq] at hadd
          exact ⟨_, .moreText hcontent htrimmed hleft, hadd ▸ hat⟩
        · rw [h.addText hlast htrimmed, Except.ok.injEq] at hadd
          exact ⟨_, .newText _ hcontent htrimmed hlast, hadd ▸ h.withLeaf _⟩

theorem exists_reads_tag {stage : Stage} {content : List Char} (isEmpty : Bool) {id : NodeId}
    {b'' : Builder} (h : b.At stage) (htag : Attribute.ofTagContent content = .ok attributes)
    (hadd : b.addElement (Attribute.tagName content) attributes = .ok (b'', id)) :
    ∃ stage', Reads (.tag content isEmpty) stage stage' ∧ At (if isEmpty then b'' else
      { b'' with openElements := (id, Attribute.tagName content) :: b''.openElements })
        stage' := by
  cases stage with
  | before =>
      obtain ⟨b₁, hb₁, hat⟩ := h.addRoot (Attribute.tagName content) attributes
      simp only [hb₁, Except.ok.injEq, Prod.mk.injEq] at hadd
      obtain ⟨rfl, rfl⟩ := hadd
      cases isEmpty with
      | false => exact ⟨_, .openRoot 0 htag, hat.openRoot⟩
      | true => exact ⟨_, .emptyRoot 0 htag, hat⟩
  | inside f fs =>
      simp only [h.addElement, Except.ok.injEq, Prod.mk.injEq] at hadd
      obtain ⟨rfl, rfl⟩ := hadd
      cases isEmpty with
      | false => exact ⟨_, .opening _ htag, h.openElement⟩
      | true => exact ⟨_, .empty _ htag, h.withLeaf _⟩
  | after t => simp [Builder.addElement, h.2.2.1, h.2.2.2.1] at hadd

/-- Every step leads from a stage to a stage. -/
theorem exists_reads {stage : Stage} {position : Nat} {token : Token} (h : b.At stage)
    (hstep : b.step position token = .ok b') :
    ∃ stage', Reads token stage stage' ∧ b'.At stage' := by
  cases token with
  | text written =>
      obtain ⟨content, hunescape, hadd⟩ := Outcome.of_bind_eq_ok hstep
      refine exists_reads_addText h ?_ hadd
      rw [characters?, Outcome.of_mapError_eq_ok hunescape]
      rfl
  | verbatim content => exact exists_reads_addText h rfl hstep
  | tag content isEmpty =>
      obtain ⟨attributes, htag, hrest⟩ := Outcome.of_bind_eq_ok hstep
      obtain ⟨⟨b'', id⟩, hadd, hresult⟩ := Outcome.of_bind_eq_ok hrest
      obtain ⟨stage', hreads, hat⟩ :=
        exists_reads_tag isEmpty h (Outcome.of_mapError_eq_ok htag) hadd
      have hb' : (if isEmpty then b'' else
          { b'' with openElements := (id, Attribute.tagName content) :: b''.openElements }) =
            b' := by
        simpa [pure, Except.pure] using hresult
      exact ⟨stage', hreads, hb' ▸ hat⟩
  | close found =>
      cases stage with
      | before => simp [Builder.step, h.2.1] at hstep
      | after t => simp [Builder.step, h.2.2.1] at hstep
      | inside f fs =>
          have hopen : b.openElements = openName f :: fs.map openName := h.2.2.1
          simp only [Builder.step, hopen] at hstep
          split at hstep
          · next hname =>
            rw [hname]
            simp only [Except.ok.injEq] at hstep
            cases fs with
            | nil => exact ⟨_, .closeRoot, hstep ▸ h.closeRoot⟩
            | cons g fs => exact ⟨_, .closing, hstep ▸ h.close⟩
          · simp at hstep
  | broken fault => simp [Builder.step] at hstep

end Builder

/-- The tokens of a text. -/
def Token.tokens (cs : List Char) : List Token :=
  (scan cs).map Prod.fst

namespace Builder

variable {b b' : Builder}

/-! ## A whole text -/

/-- What reading tokens makes of a stage. -/
inductive ReadsAll : List Token → Stage → Stage → Prop
  | done {stage : Stage} : ReadsAll [] stage stage
  | step {token : Token} {tokens : List Token} {stage stage' stage'' : Stage}
      (hfirst : Reads token stage stage') (hrest : ReadsAll tokens stage' stage'') :
      ReadsAll (token :: tokens) stage stage''

/-- What every token keeps, all tokens keep. -/
theorem ReadsAll.keep {I : Stage → Prop} {tokens : List Token} {stage stage' : Stage}
    (h : ReadsAll tokens stage stage')
    (hkeep : ∀ token ∈ tokens, ∀ stage stage', Reads token stage stage' → I stage → I stage')
    (hI : I stage) : I stage' := by
  induction h with
  | done => exact hI
  | @step token tokens stage stage' stage'' hfirst hrest ih =>
      apply ih fun token' htoken' => hkeep token' (by simp [htoken'])
      exact hkeep token (by simp) stage stage' hfirst hI

/-- Every run takes in its tokens. -/
theorem exists_readsAll {stage : Stage} {total : Nat} {tokens : List (Token × List Char)}
    (h : b.At stage) (hrun : run total tokens b = .ok b') :
    ∃ stage', ReadsAll (tokens.map Prod.fst) stage stage' ∧ b'.At stage' := by
  induction tokens generalizing b stage with
  | nil =>
      simp only [run, Except.ok.injEq] at hrun
      exact ⟨stage, .done, hrun ▸ h⟩
  | cons e tokens ih =>
      obtain ⟨b'', hstep, hrest⟩ := Outcome.of_bind_eq_ok hrun
      obtain ⟨stage', hreads, hat⟩ := exists_reads h hstep
      obtain ⟨stage'', hreads', hat'⟩ := ih hat hrest
      exact ⟨stage'', .step hreads hreads', hat'⟩

/-- Only a builder with a root and without open elements is finished. -/
theorem of_finish_eq_ok {d : Document} (h : b.finish = .ok d) :
    b.hasRoot = true ∧ b.document = d := by
  rw [finish] at h
  split at h
  · cases h
  · split at h
    · cases h
    · next hroot => exact ⟨by simpa using hroot, Except.ok.inj h⟩

/-- A finished document is the tree of its root. -/
theorem At.finish {stage : Stage} {d : Document} (h : b.At stage) (hfinish : b.finish = .ok d) :
    ∃ t, stage = .after t ∧ d = b.document := by
  cases stage with
  | before => simp [Builder.finish, h.2.1, h.2.2] at hfinish
  | inside f fs => simp [Builder.finish, h.2.2.1] at hfinish
  | after t =>
      simp only [Builder.finish, h.2.2.1, h.2.2.2.1, List.isEmpty_nil, Bool.not_true,
        Bool.false_eq_true, if_false, Except.ok.injEq] at hfinish
      exact ⟨t, rfl, hfinish.symm⟩

end Builder

namespace Document

/-- A document that was read is a single tree with an element at its top, which is what the
tokens of its text make. -/
theorem exists_readsAll_of_parse {text : String} {d : Document} (h : parse text = .ok d) :
    ∃ t, d.Shows [t] ∧ d.root = t.id ∧ t.content.isElement ∧
      Builder.ReadsAll (Token.tokens (dropByteOrderMark text.toList)) .before (.after t) := by
  obtain ⟨b, hrun, hfinish⟩ := Outcome.of_bind_eq_ok h
  obtain ⟨stage, hreads, hat⟩ := Builder.exists_readsAll Builder.at_start hrun
  obtain ⟨t, rfl, rfl⟩ := hat.finish hfinish
  exact ⟨t, hat.1, hat.2.1, hat.2.2.2.2, hreads⟩

/-- A document that was read is a single tree with an element at its top. -/
theorem exists_shows_of_parse {text : String} {d : Document} (h : parse text = .ok d) :
    ∃ t, d.Shows [t] ∧ d.root = t.id ∧ t.content.isElement := by
  obtain ⟨t, hshows, hroot, htop, -⟩ := exists_readsAll_of_parse h
  exact ⟨t, hshows, hroot, htop⟩

end Document

end RouteCompiler.Route
