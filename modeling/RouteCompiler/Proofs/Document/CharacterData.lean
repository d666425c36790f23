import RouteCompiler.Proofs.Document.Pieces

/-!
# Character data in pieces

What the reader makes of an element that holds no other element is one text, or none.  It takes
the pieces of the element one by one, trims each of them and puts the rest together, so white
space at the ends of a piece is lost even where character data stands on both sides of it.

Elements are counted in document order, in which their tags are read.

Main definitions:

- `Tree.elementTrees`: the elements of a tree in document order.
- `Builder.Stage.count`: how many elements were read.
- `Tree.ofCharacters`: what stands in an element that holds some characters.

Main results:

- Lemma `Reads.count`: every tag is one more element.
- Lemma `readsAll_pieces`: what pieces add to the innermost element.
- Theorem `character_data_of_pieces`: the text of an element that holds no other one, and when
  that is the text of the whole, trimmed.
-/

namespace RouteCompiler.Route

open RouteCompiler.Text

/-! ## Elements of a tree -/

namespace Tree

mutual

/-- The elements of a tree, with all below them, in document order. -/
def elementTrees : Tree → List Tree
  | .node (.element name attributes) children =>
      .node (.element name attributes) children :: elementTreesAll children
  | .node (.text _) _ => []

/-- The elements of several trees. -/
def elementTreesAll : List Tree → List Tree
  | [] => []
  | t :: ts => t.elementTrees ++ elementTreesAll ts

end

theorem elementTreesAll_eq_flatMap (ts : List Tree) :
    elementTreesAll ts = ts.flatMap elementTrees := by
  induction ts with
  | nil => rfl
  | cons t ts ih => simp [elementTreesAll, ih]

theorem elementTrees_of_isElement {c : Content} (h : c.isElement) (ts : List Tree) :
    (Tree.node c ts).elementTrees = .node c ts :: ts.flatMap elementTrees := by
  cases c with
  | element name attributes => rw [elementTrees, elementTreesAll_eq_flatMap]
  | text value => cases h

/-- A tree has its elements wherever they are placed. -/
theorem length_elementTrees_toTree (t : Placed) :
    t.toTree.elementTrees.length = t.elements.length := by
  induction t with
  | node id c children ih =>
      cases c with
      | text value =>
          rw [Placed.toTree_node, Placed.elements_text, elementTrees]
          rfl
      | element name attributes =>
          rw [Placed.toTree_node, elementTrees_of_isElement rfl, Placed.elements_element,
            List.length_cons, List.length_cons, List.flatMap_map, List.length_flatMap,
            List.length_flatMap, List.map_congr_left ih]

theorem length_flatMap_elementTrees_toTree (ts : List Placed) :
    ((ts.map Placed.toTree).flatMap elementTrees).length = (ts.flatMap Placed.elements).length := by
  rw [List.flatMap_map, List.length_flatMap, List.length_flatMap,
    List.map_congr_left fun t _ => length_elementTrees_toTree t]

/-- What stands in an element that holds some characters and nothing else. -/
def ofCharacters (cs : List Char) : List Tree :=
  if cs = [] then [] else [.text (String.ofList cs)]

theorem ofCharacters_of_ne_nil {cs : List Char} (h : cs ≠ []) :
    ofCharacters cs = [.node (.text (String.ofList cs)) []] :=
  if_neg h

/-- What stands last among such trees is the only one. -/
theorem of_map_toTree_eq_ofCharacters {front : List Placed} {x : Placed} {cs : List Char}
    (h : (front ++ [x]).map Placed.toTree = ofCharacters cs) :
    front = [] ∧ x.toTree = .node (.text (String.ofList cs)) [] := by
  by_cases hcs : cs = []
  · rw [ofCharacters, if_pos hcs] at h
    simp at h
  · rw [ofCharacters_of_ne_nil hcs, List.map_append] at h
    obtain ⟨hfront, hx⟩ := List.append_inj' (h.trans (List.nil_append _).symm) rfl
    exact ⟨List.map_eq_nil_iff.mp hfront, (List.cons.inj hx).1⟩

end Tree

/-- Whether a token is the tag of an element, empty or not. -/
def Token.isTag : Token → Bool
  | .tag _ _ => true
  | .text _ | .verbatim _ | .close _ | .broken _ => false

namespace Builder

variable {token : Token} {stage stage' : Stage} {f : Frame} {fs outer : List Frame} {x : Placed}
  {content : List Char} {isEmpty : Bool} {c : Content} {ts : List Tree} {u : Tree}

/-! ## Counting elements -/

/-- How many elements were read. -/
def Stage.count : Stage → Nat
  | .before => 0
  | .inside f fs => (elementsBefore (f :: fs)).length
  | .after x => x.elements.length

theorem count_place (outer : List Frame) : (place outer).count = (elementsBefore outer).length := by
  cases outer <;> rfl

theorem count_put (outer : List Frame) (x : Placed) :
    (put outer x).count = (elementsBefore outer).length + x.elements.length := by
  cases outer with
  | nil => simp [put, Stage.count, elementsBefore]
  | cons f fs =>
      simp only [put, Stage.count, elementsBefore, Frame.add, List.flatMap_append,
        List.flatMap_singleton, List.length_append, List.length_cons]
      omega

theorem isTag_of_characters {characters : List Char} (h : characters? token = some characters) :
    token.isTag = false := by
  cases token with
  | tag => cases h
  | text | verbatim | close | broken => rfl

/-- A closing tag adds no element to what was read. -/
theorem count_fill (hf : IsOpen f) (fs : List Frame) :
    (put fs (f.fill [])).count = (Stage.inside f fs).count := by
  rw [count_put, Frame.fill, hf.right, Placed.elements_of_isElement hf.isElement]
  simp [Stage.count, elementsBefore]

/-- Every tag is one more element, and nothing else is. -/
theorem Reads.count (h : Reads token stage stage') (hopen : stage.IsOpen) :
    stage'.count = stage.count + if token.isTag then 1 else 0 := by
  cases h with
  | blank hcontent => simp [isTag_of_characters hcontent]
  | newText n hcontent =>
      simp [isTag_of_characters hcontent, Stage.count, elementsBefore, Frame.add]
  | moreText hcontent htrimmed hleft =>
      simp [isTag_of_characters hcontent, Stage.count, elementsBefore, hleft]
  | openRoot | emptyRoot | opening | empty =>
      simp [Token.isTag, Stage.count, elementsBefore, tagged, Frame.add, Nat.add_assoc]
  | @closing f g fs => exact count_fill (hopen f (by simp)) (g :: fs)
  | @closeRoot f => exact count_fill (hopen f (by simp)) []

/-- As many elements were read as tags. -/
theorem ReadsAll.count {tokens : List Token} (h : ReadsAll tokens stage stage')
    (hopen : stage.IsOpen) : stage'.count = stage.count + tokens.countP Token.isTag := by
  induction h with
  | done => rfl
  | step hfirst hrest ih =>
      rw [ih (hfirst.isOpen hopen), hfirst.count hopen, List.countP_cons]
      omega

/-- A place of a tree divides its elements in document order. -/
theorem Completes.exists_elementTrees_eq (h : Completes outer c ts u)
    (hopen : ∀ g ∈ outer, IsOpen g) :
    ∃ front back, u.elementTrees = front ++ (Tree.node c ts).elementTrees ++ back ∧
      front.length = (elementsBefore outer).length := by
  induction outer generalizing c ts with
  | nil =>
      obtain rfl := h
      exact ⟨[], [], by simp, rfl⟩
  | cons g fs ih =>
      obtain ⟨right, h⟩ := h
      have hg := hopen g (by simp)
      obtain ⟨front, back, hu, hlength⟩ := ih h fun k hk => hopen k (by simp [hk])
      rw [Tree.elementTrees_of_isElement hg.isElement] at hu
      refine ⟨front ++ .node g.content (g.left.map Placed.toTree ++ .node c ts :: right) ::
        (g.left.map Placed.toTree).flatMap Tree.elementTrees,
        right.flatMap Tree.elementTrees ++ back, ?_, ?_⟩
      · simp [hu]
      · rw [List.length_append, List.length_cons, Tree.length_flatMap_elementTrees_toTree, hlength]
        simp [elementsBefore]

/-- An element at a place of a tree comes behind those that were read before it. -/
theorem Completes.elementTrees (h : Completes outer c ts u) (hopen : ∀ g ∈ outer, IsOpen g)
    (hc : c.isElement) :
    u.elementTrees[(elementsBefore outer).length]? = some (.node c ts) := by
  obtain ⟨front, back, hu, hlength⟩ := h.exists_elementTrees_eq hopen
  rw [hu, Tree.elementTrees_of_isElement hc, ← hlength]
  simp

/-! ## What pieces add -/

/-- Character data in an element that holds nothing else goes on with its text. -/
theorem Reads.characters {n : NodeId} {left : List Placed} {joined part : List Char}
    (h : Reads token (.inside ⟨n, c, left, []⟩ outer) stage')
    (hpart : characters? token = some part)
    (hleft : left.map Placed.toTree = Tree.ofCharacters joined) :
    ∃ left', stage' = .inside ⟨n, c, left', []⟩ outer ∧
      left'.map Placed.toTree = Tree.ofCharacters (joined ++ trimChars part) := by
  cases h with
  | blank hcontent hblank =>
      obtain rfl := Option.some.inj (hpart.symm.trans hcontent)
      exact ⟨left, rfl, by rw [hblank, List.append_nil, hleft]⟩
  | newText i hcontent htrimmed hlast =>
      obtain rfl := Option.some.inj (hpart.symm.trans hcontent)
      refine ⟨_, rfl, ?_⟩
      rcases List.eq_nil_or_concat left with rfl | ⟨front, ⟨i, c, cs⟩, rfl⟩
      · have hjoined : joined = [] := by
          by_contra hne
          rw [Tree.ofCharacters_of_ne_nil hne] at hleft
          cases hleft
        rw [hjoined]
        exact (Tree.ofCharacters_of_ne_nil htrimmed).symm
      · rw [List.concat_eq_append] at hleft hlast
        obtain ⟨-, hx⟩ := Tree.of_map_toTree_eq_ofCharacters hleft
        obtain ⟨rfl, -⟩ := Tree.node.inj ((Placed.toTree_node ..).symm.trans hx)
        exact absurd ⟨front, i, _, cs, rfl⟩ hlast
  | @moreText token content f fs front cs i value hcontent htrimmed hfront =>
      obtain rfl := Option.some.inj (hpart.symm.trans hcontent)
      obtain rfl : left = _ := hfront
      obtain ⟨rfl, hx⟩ := Tree.of_map_toTree_eq_ofCharacters hleft
      obtain ⟨hvalue, hcs⟩ := Tree.node.inj ((Placed.toTree_node ..).symm.trans hx)
      refine ⟨_, rfl, ?_⟩
      rw [Tree.ofCharacters_of_ne_nil (by simp [htrimmed]), String.ofList_append,
        ← Content.text.inj hvalue]
      simp [hcs]
  | opening | empty | closing | closeRoot => cases hpart

/-- Every token of a piece is character data. -/
theorem exists_characters_of_reads {piece : Piece} (htoken : piece.token? = some token)
    (h : Reads token stage stage') : ∃ characters, characters? token = some characters := by
  cases piece with
  | comment content => cases htoken
  | verbatim content =>
      obtain rfl := Option.some.inj htoken
      exact ⟨content, rfl⟩
  | text written =>
      rw [Piece.token?] at htoken
      split at htoken
      · cases htoken
      · obtain rfl := Option.some.inj htoken
        cases h with
        | blank hcontent | newText _ hcontent | moreText hcontent => exact ⟨_, hcontent⟩

/-- What pieces add to an element that holds nothing else. -/
theorem readsAll_pieces {pieces : List Piece} {tokens : List Token} {n : NodeId}
    {left : List Placed} {joined : List Char}
    (h : ReadsAll (pieces.filterMap Piece.token? ++ tokens) (.inside ⟨n, c, left, []⟩ outer) stage')
    (hleft : left.map Placed.toTree = Tree.ofCharacters joined) :
    ∃ parts left', pieces.mapM Piece.read = .ok parts ∧
      left'.map Placed.toTree = Tree.ofCharacters (joined ++ parts.flatMap trimChars) ∧
      ReadsAll tokens (.inside ⟨n, c, left', []⟩ outer) stage' := by
  induction pieces generalizing left joined with
  | nil => exact ⟨[], left, rfl, by rw [List.flatMap_nil, List.append_nil, hleft], h⟩
  | cons piece pieces ih =>
      -- Whether it has a token or not, a piece adds what it stands for, trimmed.
      have hpiece : ∃ part left', piece.read = .ok part ∧
          left'.map Placed.toTree = Tree.ofCharacters (joined ++ trimChars part) ∧
          ReadsAll (pieces.filterMap Piece.token? ++ tokens) (.inside ⟨n, c, left', []⟩ outer)
            stage' := by
        cases htoken : piece.token? with
        | none =>
            rw [List.filterMap_cons_none htoken] at h
            obtain ⟨part, hread, hblank⟩ := Piece.exists_read_of_no_token htoken
            exact ⟨part, left, hread, by rw [hblank, List.append_nil, hleft], h⟩
        | some token =>
            rw [List.filterMap_cons_some htoken] at h
            cases h with
            | step hfirst hrest =>
                obtain ⟨characters, hcharacters⟩ := exists_characters_of_reads htoken hfirst
                obtain ⟨part, hread, htrimmed⟩ := Piece.exists_read_of_token htoken hcharacters
                obtain ⟨left', rfl, hleft'⟩ := hfirst.characters hcharacters hleft
                exact ⟨part, left', hread, htrimmed ▸ hleft', hrest⟩
      obtain ⟨part, left', hread, hleft', hrest⟩ := hpiece
      obtain ⟨parts, left'', hreads, hleft'', htokens⟩ := ih hrest hleft'
      refine ⟨part :: parts, left'', ?_, ?_, htokens⟩
      · rw [List.mapM_cons, hread, hreads]
        rfl
      · rw [List.flatMap_cons, ← List.append_assoc, hleft'']

/-- A tag is read at a place. -/
theorem Reads.exists_place (h : Reads (.tag content isEmpty) stage stage') :
    ∃ outer, stage = place outer := by
  cases h with
  | blank hcontent | newText _ hcontent | moreText hcontent => cases hcontent
  | openRoot | emptyRoot => exact ⟨[], rfl⟩
  | @opening _ _ f fs | @empty _ _ f fs => exact ⟨f :: fs, rfl⟩

theorem isOpen_place : (place outer).IsOpen ↔ ∀ g ∈ outer, IsOpen g := by
  cases outer with
  | nil => simp [place, Stage.IsOpen]
  | cons g fs => rfl

theorem ReadsAll.append {tokens later : List Token} (h : ReadsAll (tokens ++ later) stage stage') :
    ∃ between, ReadsAll tokens stage between ∧ ReadsAll later between stage' := by
  induction tokens generalizing stage with
  | nil => exact ⟨stage, .done, h⟩
  | cons token tokens ih =>
      cases h with
      | step hfirst hrest =>
          obtain ⟨between, htokens, hlater⟩ := ih hrest
          exact ⟨between, .step hfirst htokens, hlater⟩

theorem ReadsAll.isOpen {tokens : List Token} (h : ReadsAll tokens stage stage')
    (hopen : stage.IsOpen) : stage'.IsOpen :=
  h.keep (fun _ _ _ _ hreads => hreads.isOpen) hopen

/-- Of a tag and the pieces behind it, up to the next closing tag, an element is read. -/
theorem readsAll_element {pieces : List Piece} {unread : List Char}
    (hreads : ReadsAll (.tag content isEmpty :: Token.tokens unread) stage (.after x))
    (hopen : stage.IsOpen) (hpieces : Piece.AreWhole pieces)
    (hfill : Piece.Fill pieces unread isEmpty) :
    ∃ attributes parts outer, Attribute.ofTagContent content = .ok attributes ∧
      pieces.mapM Piece.read = .ok parts ∧ stage = place outer ∧
      Completes outer (tagged content attributes)
        (Tree.ofCharacters (parts.flatMap trimChars)) x.toTree := by
  cases hreads with
  | step hfirst hrest =>
      obtain ⟨outer, rfl⟩ := hfirst.exists_place
      cases isEmpty with
      | true =>
          have hwithin := hrest.within (hfirst.isOpen hopen)
          obtain ⟨n, attributes, htag, rfl⟩ := hfirst.of_empty
          obtain rfl : pieces = [] := hfill
          exact ⟨attributes, [], outer, htag, rfl, rfl, hwithin.of_put rfl⟩
      | false =>
          obtain ⟨rest, rfl⟩ := hfill
          have hopen' := isOpen_place.mp hopen
          obtain ⟨n, attributes, htag, rfl⟩ := hfirst.of_opening
          have hnil : ([] : List Placed).map Placed.toTree = Tree.ofCharacters [] := rfl
          rw [Token.tokens_writtenAll hpieces] at hrest
          obtain ⟨parts, left, hparts, hleft, hrest⟩ := readsAll_pieces hrest hnil
          -- What follows the pieces can only be read as a closing tag.
          have hhead : ∀ c ∈ ('/' :: rest).head?, c ≠ '!' ∧ c ≠ '?' := by simp
          obtain ⟨raw, later, stage, hraw, -, hclose, hlater⟩ :=
            exists_reads_tag_of_readsAll (List.cons_ne_nil _ _) hhead hrest
          cases raw with
          | nil => cases hraw
          | cons c found =>
              obtain ⟨rfl, -⟩ := List.cons.inj hraw
              obtain ⟨name, -, -, -, htoken⟩ := Token.exists_ofTag_slash found
              have hinside : (Stage.inside ⟨n, tagged content attributes, left, []⟩ outer).IsOpen :=
                List.forall_mem_cons.mpr ⟨⟨rfl, rfl⟩, hopen'⟩
              have hwithin := hlater.within (hclose.isOpen hinside)
              rw [htoken] at hclose
              obtain ⟨f, fs, hstage, -, rfl⟩ := hclose.of_close
              obtain ⟨rfl, rfl⟩ := Stage.inside.inj hstage
              have hcompletes := hwithin.of_put (i := n) rfl
              rw [List.append_nil, List.append_nil, hleft] at hcompletes
              exact ⟨attributes, parts, outer, htag, hparts, rfl, hcompletes⟩

end Builder

/-- What the scanner makes of the text left unread behind a token follows the token. -/
theorem Token.tokens_unread {cs unread : List Char} {token : Token}
    {before after : List (Token × List Char)} (h : scan cs = before ++ (token, unread) :: after)
    (hwhole : ∀ fault, token ≠ .broken fault) : tokens unread = after.map Prod.fst := by
  induction cs using scan.induct generalizing before with
  | case1 cs hnone =>
      rw [scan_eq_nil hnone] at h
      simp at h
  | case2 cs rest hskip ih =>
      rw [scan_eq_scan hskip] at h
      exact ih h
  | case3 cs fault rest hbroken =>
      rw [scan_eq_broken hbroken] at h
      cases before with
      | nil => exact absurd (Prod.mk.inj (List.cons.inj h).1).1.symm (hwhole fault)
      | cons e before => simp at h
  | case4 cs token' rest hwhole' hfound ih =>
      rw [scan_eq_cons hfound hwhole'] at h
      cases before with
      | nil =>
          obtain ⟨hfirst, rfl⟩ := List.cons.inj h
          obtain ⟨-, rfl⟩ := Prod.mk.inj hfirst
          rfl
      | cons e before => exact ih (List.cons.inj h).2

namespace Document

variable {text : String} {d : Document}

/-- A document that was read has as many elements as there are tags in its text, but for closing
tags. -/
theorem length_elementTrees_of_parse (h : parse text = .ok d) :
    (d.tree d.root).elementTrees.length =
      (Token.tokens (dropByteOrderMark text.toList)).countP Token.isTag := by
  obtain ⟨t, hshows, hroot, -, hreads⟩ := exists_readsAll_of_parse h
  rw [hroot, hshows.tree, Tree.length_elementTrees_toTree]
  have hcount := hreads.count trivial
  rwa [Builder.Stage.count, Builder.Stage.count, Nat.zero_add] at hcount

/-- The text of an element of a document that was read, if nothing but character data, verbatim
sections and comments stands between its tags: what each of these pieces stands for is trimmed,
and the rest is put together; if nothing is left, there is no text.  This is what the pieces
stand for together, trimmed as a whole, if and only if every cut between them is clean.  So
white space beside a comment or at the end of a verbatim section is lost where other characters
stand on both sides of it. -/
theorem character_data_of_pieces (hparse : parse text = .ok d)
    {before after : List (Token × List Char)} {content unread : List Char} {isEmpty : Bool}
    (hscan : Token.scan (dropByteOrderMark text.toList) =
      before ++ (.tag content isEmpty, unread) :: after)
    {pieces : List Piece} (hpieces : Piece.AreWhole pieces)
    (hfill : Piece.Fill pieces unread isEmpty) :
    ∃ attributes parts, Attribute.ofTagContent content = .ok attributes ∧
      pieces.mapM Piece.read = .ok parts ∧
      (d.tree d.root).elementTrees[before.countP fun e => e.1.isTag]? =
        some (.node (Builder.tagged content attributes)
          (Tree.ofCharacters (parts.flatMap trimChars))) ∧
      (parts.flatMap trimChars = trimChars parts.flatten ↔
        ∀ front back, parts = front ++ back → IsCleanCut front.flatten back.flatten) := by
  obtain ⟨t, hshows, hroot, -, hreads⟩ := exists_readsAll_of_parse hparse
  have hafter := Token.tokens_unread hscan fun fault => Token.noConfusion
  rw [Token.tokens, hscan, List.map_append, List.map_cons, ← hafter] at hreads
  obtain ⟨stage, hbefore, hrest⟩ := hreads.append
  have hopen := hbefore.isOpen trivial
  obtain ⟨attributes, parts, outer, htag, hparts, rfl, hcompletes⟩ :=
    Builder.readsAll_element hrest hopen hpieces hfill
  refine ⟨attributes, parts, htag, hparts, ?_, flatMap_trimChars_eq_iff⟩
  have hcount := hbefore.count trivial
  rw [Builder.count_place, Builder.Stage.count, Nat.zero_add, List.countP_map] at hcount
  have helements := hcompletes.elementTrees (Builder.isOpen_place.mp hopen) rfl
  rw [hcount] at helements
  rw [hroot, hshows.tree]
  exact helements

/-- A blank stands between a text and a comment, and is lost with the comment. -/
theorem character_data_of_pieces_blank :
    ∃ d, parse "<a>x <!-- c -->y</a>" = .ok d ∧
      (d.tree d.root).elementTrees[0]? = some (.element "a" [] [.text "xy"]) ∧
      ∃ parts, [Piece.text ['x', ' '], .comment [' ', 'c', ' '], .text ['y']].mapM Piece.read =
          .ok parts ∧
        parts.flatten = ['x', ' ', 'y'] ∧ parts.flatMap trimChars ≠ trimChars parts.flatten := by
  let text := "<a>x <!-- c -->y</a>"
  let pieces : List Piece := [.text ['x', ' '], .comment [' ', 'c', ' '], .text ['y']]
  have hparse : parse text =
      .ok ⟨#[⟨.element "a" [], none, [1]⟩, ⟨.text "xy", some 0, []⟩], 0⟩ :=
    Outcome.of_toOption_eq_some (by decide +kernel)
  have hscan : Token.scan (dropByteOrderMark text.toList) =
      [] ++ (.tag ['a'] false, "x <!-- c -->y</a>".toList) ::
        (Token.scan (dropByteOrderMark text.toList)).tail := by decide +kernel
  have hpieces : Piece.AreWhole pieces := ⟨by decide +kernel, by decide +kernel⟩
  obtain ⟨attributes, parts, htag, hparts, helement, hiff⟩ :=
    character_data_of_pieces hparse hscan hpieces ⟨['a', '>'], by decide +kernel⟩
  have hnone : Attribute.ofTagContent ['a'] = .ok [] :=
    Outcome.of_toOption_eq_some (by decide +kernel)
  have hread : pieces.mapM Piece.read = .ok [['x', ' '], [], ['y']] :=
    Outcome.of_toOption_eq_some (by decide +kernel)
  obtain rfl := Except.ok.inj (hnone.symm.trans htag)
  obtain rfl := Except.ok.inj (hread.symm.trans hparts)
  refine ⟨_, hparse, helement, _, hparts, rfl, fun heq => ?_⟩
  exact absurd (hiff.mp heq [['x', ' ']] [[], ['y']] rfl) (by decide)

end Document

end RouteCompiler.Route
