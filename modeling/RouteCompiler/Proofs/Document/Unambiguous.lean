import RouteCompiler.Proofs.Document.Reading
import RouteCompiler.Proofs.Document.RoundTrip

/-!
# No two trees are written alike

Names and keys are written as they were read, so one piece of a written tree may stand for
several things: `<a/>` closes an empty element named `a`, and opens one named `a/`.  What
follows tells them apart.  Behind the empty element the next line is not indented further;
behind the tag of the other one stands a text or a line of its own that is.

Main definitions:

- `margin`: how far a line is indented.
- `Follows`: what the writer puts behind a tree at a depth.

Main results:

- Theorem `writtenTag_append_inj`: tags that are written alike, up to that slash.
- Theorem `render_append_inj`: a tree that a reader made is found again at the front of
  its written form, whatever follows.
- Theorem `toText_inj`: two such trees with the same written form are the same tree.
-/

namespace RouteCompiler.Route

open RouteCompiler.Text

/-! ## Attributes -/

theorem escape_inj {cs ds : List Char} (h : Entity.escape cs = Entity.escape ds) : cs = ds := by
  have hread := Entity.unescape_escape cs
  rw [h, Entity.unescape_escape] at hread
  exact (Except.ok.inj hread).symm

theorem IsSplitKey.append_inj {key key' xs ys : List Char} (h : IsSplitKey key)
    (h' : IsSplitKey key') (heq : key ++ '=' :: xs = key' ++ '=' :: ys) :
    key = key' ∧ xs = ys := by
  cases key with
  | nil => exact absurd rfl h.nonempty
  | cons first more =>
      cases key' with
      | nil => exact absurd rfl h'.nonempty
      | cons first' more' =>
          obtain ⟨rfl, hrest⟩ := List.cons.inj heq
          obtain ⟨rfl, hbehind⟩ := append_cons_inj h.tail (by decide) h'.tail (by decide) hrest
          exact ⟨rfl, (List.cons.inj hbehind).2⟩

/-- Quoted values that are written alike are the same. -/
theorem quoted_append_inj {value value' xs ys : List Char}
    (h : Entity.escape value ++ '"' :: xs = Entity.escape value' ++ '"' :: ys) :
    value = value' ∧ xs = ys := by
  have hquote : ∀ cs, '"' ∉ Entity.escape cs := by
    intro cs
    exact Entity.not_mem_escape_of_special cs (by simp)
  obtain ⟨hvalue, hrest⟩ := append_separator_inj (hquote value) (hquote value') h
  exact ⟨escape_inj hvalue, hrest⟩

theorem renderAttribute_append (a : Attribute) (xs : List Char) :
    Tree.renderAttribute a ++ xs =
      ' ' :: (a.key.toList ++ '=' :: '"' :: (Entity.escape a.value.toList ++ '"' :: xs)) := by
  simp [Tree.renderAttribute]

/-- Attributes that are written alike are the same, where no blank follows. -/
theorem attributes_append_inj {as bs : List Attribute} {c d : Char} {xs ys : List Char}
    (has : ∀ a ∈ as, IsSplitKey a.key.toList) (hbs : ∀ b ∈ bs, IsSplitKey b.key.toList)
    (hc : c ≠ ' ') (hd : d ≠ ' ')
    (h : as.flatMap Tree.renderAttribute ++ c :: xs =
      bs.flatMap Tree.renderAttribute ++ d :: ys) : as = bs ∧ c :: xs = d :: ys := by
  induction as generalizing bs with
  | nil =>
      cases bs with
      | nil => exact ⟨rfl, h⟩
      | cons b bs =>
          rw [List.flatMap_cons, List.append_assoc, renderAttribute_append] at h
          exact absurd (List.cons.inj h).1 hc
  | cons a as ih =>
      cases bs with
      | nil =>
          rw [List.flatMap_cons, List.append_assoc, renderAttribute_append] at h
          exact absurd (List.cons.inj h).1.symm hd
      | cons b bs =>
          rw [List.flatMap_cons, List.append_assoc, renderAttribute_append, List.flatMap_cons,
            List.append_assoc, renderAttribute_append] at h
          obtain ⟨hkey, hquoted⟩ :=
            (has a (by simp)).append_inj (hbs b (by simp)) (List.cons.inj h).2
          obtain ⟨hvalue, hrest⟩ := quoted_append_inj (List.cons.inj hquoted).2
          obtain ⟨rfl, hend⟩ :=
            ih (fun e he => has e (by simp [he])) (fun e he => hbs e (by simp [he])) hrest
          have hsame : a = b := by
            obtain ⟨key, value⟩ := a
            obtain ⟨key', value'⟩ := b
            rw [String.toList_inj] at hkey hvalue
            rw [Attribute.mk.injEq]
            exact ⟨hkey, hvalue⟩
          exact ⟨by rw [hsame], hend⟩

/-! ## Tags -/

theorem ne_of_isBlank {c : Char} (h : isBlank c = false) : c ≠ ' ' ∧ c ≠ '\n' := by
  constructor
  · rintro rfl
    cases h
  · rintro rfl
    cases h

/-- How the writer ends a tag: with a bracket, or with a slash and a bracket. -/
def EndsTag (cs : List Char) : Prop :=
  ∃ rest, cs = '>' :: rest ∨ cs = '/' :: '>' :: rest

theorem EndsTag.exists_eq_cons {cs : List Char} (h : EndsTag cs) :
    ∃ c rest, cs = c :: rest ∧ isBlank c = false ∧ c ≠ '!' ∧ c ≠ '?' := by
  obtain ⟨rest, rfl | rfl⟩ := h
  · exact ⟨'>', rest, rfl, by decide⟩
  · exact ⟨'/', '>' :: rest, rfl, by decide⟩

variable {name name' : String} {as bs : List Attribute} {xs ys : List Char}

/-- A name that goes on where another one ends goes on with the slash of an empty element. -/
theorem name_append_cases (h : IsReadTag name as) (h' : IsReadTag name' bs) (hxs : EndsTag xs)
    {more : List Char} (hmore : name'.toList = name.toList ++ more)
    (heq : as.flatMap Tree.renderAttribute ++ xs =
      more ++ (bs.flatMap Tree.renderAttribute ++ ys)) :
    more = [] ∨ (more = ['/'] ∧ as = [] ∧ xs = '/' :: (bs.flatMap Tree.renderAttribute ++ ys)) := by
  cases more with
  | nil => exact .inl rfl
  | cons first more =>
      right
      cases as with
      | cons a as =>
          -- a blank does not stand in a name
          rw [List.flatMap_cons, List.append_assoc, renderAttribute_append] at heq
          have hblank := h'.unbroken first (by simp [hmore])
          rw [← (List.cons.inj heq).1] at hblank
          cases hblank
      | nil =>
          have hpaired := h.alone rfl
          obtain ⟨rest, rfl | rfl⟩ := hxs
          · rw [← (List.cons.inj heq).1] at hmore
            exact absurd hpaired (h'.uncut _ _ hmore)
          · obtain ⟨rfl, hrest⟩ := List.cons.inj heq
            cases more with
            | nil => exact ⟨rfl, rfl, congrArg _ hrest⟩
            | cons second more =>
                have hslash : Token.IsPaired (name.toList ++ ['/']) :=
                  hpaired.append Token.isPaired_slash
                rw [← (List.cons.inj hrest).1, List.append_cons] at hmore
                exact absurd hslash (h'.uncut _ _ hmore)

/-- Tags that are written alike are the same, but that an empty element without attributes
may look like the opening tag of one whose name ends in a slash. -/
theorem writtenTag_append_inj (h : IsReadTag name as) (h' : IsReadTag name' bs)
    (hxs : EndsTag xs) (hys : EndsTag ys)
    (heq : writtenTag name as ++ xs = writtenTag name' bs ++ ys) :
    (name = name' ∧ as = bs ∧ xs = ys) ∨ xs = '/' :: ys ∨ ys = '/' :: xs := by
  have hend : ∀ {bs : List Attribute} {xs ys : List Char}, EndsTag xs → EndsTag ys →
      xs = '/' :: (bs.flatMap Tree.renderAttribute ++ ys) → xs = '/' :: ys := by
    intro bs xs ys hxs hys hslash
    obtain ⟨rest, rfl | rfl⟩ := hxs
    · cases (List.cons.inj hslash).1
    · cases bs with
      | nil => exact hslash
      | cons b bs =>
          rw [List.flatMap_cons, List.append_assoc, renderAttribute_append] at hslash
          cases (List.cons.inj (List.cons.inj hslash).2).1
  have hsame : name = name' → as.flatMap Tree.renderAttribute ++ xs =
      bs.flatMap Tree.renderAttribute ++ ys → name = name' ∧ as = bs ∧ xs = ys := by
    intro hname hrest
    obtain ⟨c, xs', rfl, hc, -⟩ := hxs.exists_eq_cons
    obtain ⟨d, ys', rfl, hd, -⟩ := hys.exists_eq_cons
    exact ⟨hname, attributes_append_inj h.keys h'.keys (ne_of_isBlank hc).1
      (ne_of_isBlank hd).1 hrest⟩
  rw [writtenTag, writtenTag, List.append_assoc, List.append_assoc,
    List.append_eq_append_iff] at heq
  rcases heq with ⟨more, hmore, hrest⟩ | ⟨more, hmore, hrest⟩
  · rcases name_append_cases h h' hxs hmore hrest with rfl | ⟨-, -, hslash⟩
    · rw [List.append_nil, String.toList_inj] at hmore
      exact .inl (hsame hmore.symm hrest)
    · exact .inr (.inl (hend hxs hys hslash))
  · rcases name_append_cases h' h hys hmore hrest with rfl | ⟨-, -, hslash⟩
    · rw [List.append_nil, String.toList_inj] at hmore
      exact .inl (hsame hmore hrest.symm)
    · exact .inr (.inr (hend hys hxs hslash))

/-! ## Lines -/

/-- How many blanks stand in front. -/
def margin (cs : List Char) : Nat :=
  (cs.takeWhile (· == ' ')).length

theorem margin_indentation {c : Char} (h : c ≠ ' ') (depth : Nat) (cs : List Char) :
    margin (Tree.indentation depth ++ c :: cs) = 2 * depth := by
  have hblanks : ∀ d ∈ Tree.indentation depth, (d == ' ') = true := by
    intro d hd
    rw [List.eq_of_mem_replicate hd]
    rfl
  rw [margin, takeWhile_append_cons hblanks (by simpa using h), Tree.indentation,
    List.length_replicate]

theorem IsValue.exists_escape_eq_cons {value : List Char} (h : IsValue value) :
    ∃ c rest, Entity.escape value = c :: rest ∧ isBlank c = false := by
  obtain ⟨hne, hhead, -⟩ := h.escape
  cases hwritten : Entity.escape value with
  | nil => exact absurd hwritten hne
  | cons c rest => exact ⟨c, rest, rfl, hhead c (by rw [hwritten]; rfl)⟩

namespace Tree

/-- Every tree stands on lines of its own. -/
theorem Tidy.margin_render {t : Tree} (h : t.Tidy) (depth : Nat) (rest : List Char) :
    margin (t.render depth ++ rest) = 2 * depth := by
  cases h with
  | @text value hvalue =>
      obtain ⟨c, more, hwritten, hc⟩ := hvalue.exists_escape_eq_cons
      rw [render_text, hwritten, List.append_assoc]
      exact margin_indentation (ne_of_isBlank hc).1 depth _
  | @element name attributes children htag hchildren hapart =>
      obtain ⟨more, hmore⟩ := exists_render_eq (t := .node (.element name attributes) children)
        rfl depth
      rw [hmore, List.append_assoc]
      exact margin_indentation (by decide) depth _

/-- What the writer may put behind a tree at a depth: nothing that is indented further, and
behind a text comes markup. -/
structure Follows (depth : Nat) (t : Tree) (rest : List Char) : Prop where
  margin : margin rest ≤ 2 * depth
  opens : t.content.isElement = false → Opens rest

/-- A tree is found again at the front of its written form. -/
def IsFound (t : Tree) : Prop :=
  ∀ t' depth rest rest', t'.Tidy → Follows depth t rest → Follows depth t' rest' →
    t.render depth ++ rest = t'.render depth ++ rest' → t = t' ∧ rest = rest'

variable {t : Tree} {ts us : List Tree} {rest rest' : List Char}

/-- Behind one of several trees come the others. -/
theorem follows_renderAll {depth : Nat} (htidy : ∀ u ∈ ts, u.Tidy)
    (hapart : Tree.Apart (t :: ts))
    (hmargin : margin rest < 2 * depth) (hopens : Opens rest) :
    Follows depth t (renderAll depth ts ++ rest) := by
  constructor
  · cases ts with
    | nil => exact Nat.le_of_lt hmargin
    | cons u us =>
        rw [renderAll, List.append_assoc, (htidy u (by simp)).margin_render]
  · intro ht
    exact opens_behind_text hapart ht depth hopens

/-- Trees are found again in front of a line that is not indented as far. -/
theorem renderAll_append_inj {depth : Nat} (hfound : ∀ t ∈ ts, t.IsFound)
    (hts : ∀ t ∈ ts, t.Tidy) (hus : ∀ u ∈ us, u.Tidy)
    (hapart : Tree.Apart ts)
    (hapart' : Tree.Apart us)
    (hmargin : margin rest < 2 * depth) (hmargin' : margin rest' < 2 * depth)
    (hopens : Opens rest) (hopens' : Opens rest')
    (h : renderAll depth ts ++ rest = renderAll depth us ++ rest') : ts = us ∧ rest = rest' := by
  have hnil : ∀ {u : Tree} {us : List Tree} {rest rest' : List Char}, u.Tidy →
      margin rest < 2 * depth → rest ≠ renderAll depth (u :: us) ++ rest' := by
    intro u us rest rest' hu hmargin heq
    rw [heq, renderAll, List.append_assoc, hu.margin_render] at hmargin
    exact absurd hmargin (Nat.lt_irrefl _)
  induction ts generalizing us with
  | nil =>
      cases us with
      | nil => exact ⟨rfl, h⟩
      | cons u us => exact absurd h (hnil (hus u (by simp)) hmargin)
  | cons t ts ih =>
      cases us with
      | nil => exact absurd h.symm (hnil (hts t (by simp)) hmargin')
      | cons u us =>
          rw [renderAll, renderAll, List.append_assoc, List.append_assoc] at h
          obtain ⟨rfl, hothers⟩ := hfound t (by simp) u depth _ _ (hus u (by simp))
            (follows_renderAll (fun v hv => hts v (by simp [hv])) hapart hmargin hopens)
            (follows_renderAll (fun v hv => hus v (by simp [hv])) hapart' hmargin' hopens') h
          obtain ⟨rfl, hrest⟩ := ih (fun v hv => hfound v (by simp [hv]))
            (fun v hv => hts v (by simp [hv])) (fun v hv => hus v (by simp [hv]))
            (List.isChain_of_isChain_cons hapart) (List.isChain_of_isChain_cons hapart') hothers
          exact ⟨rfl, hrest⟩

/-! ## Between the tags of an element -/

theorem opens_closing (depth : Nat) (cs : List Char) :
    Opens (indentation depth ++ '<' :: cs) :=
  ⟨indentation depth, cs, isBlank_of_mem_indentation, rfl⟩

theorem Tidy.of_singleton {value : String} {children : List Tree}
    (h : ∀ t ∈ [Tree.node (.text value) children], t.Tidy) :
    IsValue value.toList ∧ children = [] :=
  (h _ (List.mem_singleton.mpr rfl)).of_text

theorem bracket_not_mem_escape (cs : List Char) : '<' ∉ Entity.escape cs :=
  Entity.not_mem_escape_of_special cs (by simp)

/-- What stands between the tags of an element is found again in front of its closing tag. -/
theorem renderInner_append_inj {depth : Nat} (hts : ts ≠ []) (hus : us ≠ [])
    (hfound : ∀ t ∈ ts, t.IsFound) (htidy : ∀ t ∈ ts, t.Tidy) (htidy' : ∀ u ∈ us, u.Tidy)
    (hapart : Tree.Apart ts)
    (hapart' : Tree.Apart us)
    (h : renderInner depth ts ++ '<' :: rest = renderInner depth us ++ '<' :: rest') :
    ts = us ∧ rest = rest' := by
  have hline : ∀ {value : List Char} {xs ys : List Char}, IsValue value →
      Entity.escape value ++ xs ≠ '\n' :: ys := by
    intro value xs ys hvalue heq
    obtain ⟨c, more, hwritten, hc⟩ := hvalue.exists_escape_eq_cons
    rw [hwritten] at heq
    exact (ne_of_isBlank hc).2 (List.cons.inj heq).1
  rcases renderInner_cases hts hapart depth with ⟨value, children, rfl, hinner⟩ | hinner
  · obtain ⟨hvalue, rfl⟩ := Tidy.of_singleton htidy
    rw [hinner] at h
    rcases renderInner_cases hus hapart' depth with ⟨value', children', rfl, hinner'⟩ | hinner'
    · obtain ⟨-, rfl⟩ := Tidy.of_singleton htidy'
      rw [hinner'] at h
      obtain ⟨hwritten, hrest⟩ :=
        append_separator_inj (bracket_not_mem_escape _) (bracket_not_mem_escape _) h
      have hsame := escape_inj hwritten
      rw [String.toList_inj] at hsame
      exact ⟨by rw [hsame], hrest⟩
    · rw [hinner'] at h
      exact absurd h (hline hvalue)
  · rw [hinner] at h
    rcases renderInner_cases hus hapart' depth with ⟨value', children', rfl, hinner'⟩ | hinner'
    · rw [hinner'] at h
      exact absurd h.symm (hline (Tidy.of_singleton htidy').1)
    · rw [hinner', List.append_assoc, List.append_assoc] at h
      have hmargin : ∀ cs, margin (indentation depth ++ '<' :: cs) < 2 * (depth + 1) := by
        intro cs
        rw [margin_indentation (by decide)]
        omega
      obtain ⟨hsame, hrest⟩ := renderAll_append_inj hfound htidy htidy' hapart hapart'
        (hmargin rest) (hmargin rest') (opens_closing depth rest) (opens_closing depth rest')
        (List.cons.inj h).2
      exact ⟨hsame, (List.cons.inj (List.append_cancel_left hrest)).2⟩

/-- What stands between the tags of an element is not the end of a line with nothing behind
it that is indented further. -/
theorem margin_of_renderInner {depth : Nat} (hts : ts ≠ []) (htidy : ∀ t ∈ ts, t.Tidy)
    (hapart : Tree.Apart ts)
    (h : renderInner depth ts ++ rest = '\n' :: rest') : 2 * depth < margin rest' := by
  rcases renderInner_cases hts hapart depth with ⟨value, children, rfl, hinner⟩ | hinner
  · obtain ⟨c, more, hwritten, hc⟩ := (Tidy.of_singleton htidy).1.exists_escape_eq_cons
    rw [hinner, hwritten] at h
    exact absurd (List.cons.inj h).1 (ne_of_isBlank hc).2
  · cases ts with
    | nil => exact absurd rfl hts
    | cons t ts =>
        have hlines : renderInner depth (t :: ts) ++ rest =
            '\n' :: (t.render (depth + 1) ++ (renderAll (depth + 1) ts ++
              (indentation depth ++ rest))) := by
          simp [hinner, renderAll]
        rw [hlines] at h
        rw [← (List.cons.inj h).2, (htidy t (by simp)).margin_render]
        omega

/-! ## Whole trees -/

/-- What the writer puts behind the name and the attributes of an element. -/
def renderBehind (depth : Nat) (name : String) (children : List Tree) : List Char :=
  if children = [] then '/' :: '>' :: ['\n']
  else '>' :: (renderInner depth children ++ '<' :: '/' :: (name.toList ++ '>' :: ['\n']))

theorem renderBehind_nil (depth : Nat) (name : String) (rest : List Char) :
    renderBehind depth name [] ++ rest = '/' :: '>' :: '\n' :: rest := by
  rw [renderBehind, if_pos rfl]
  rfl

theorem renderBehind_of_ne_nil (depth : Nat) (name : String) (hts : ts ≠ []) :
    renderBehind depth name ts ++ rest = '>' :: (renderInner depth ts ++
      '<' :: '/' :: (name.toList ++ '>' :: '\n' :: rest)) := by
  rw [renderBehind, if_neg hts]
  simp

theorem render_element_append (depth : Nat) (name : String) (attributes : List Attribute)
    (children : List Tree) (rest : List Char) :
    render depth (.node (.element name attributes) children) ++ rest =
      indentation depth ++ '<' :: (writtenTag name attributes ++
        (renderBehind depth name children ++ rest)) := by
  by_cases hnil : children = []
  · rw [hnil, render_empty, renderBehind_nil]
    simp
  · rw [render_element depth hnil, renderBehind_of_ne_nil depth name hnil]
    simp

theorem render_text_append (depth : Nat) (value : String) (children : List Tree)
    (rest : List Char) :
    render depth (.node (.text value) children) ++ rest =
      indentation depth ++ (Entity.escape value.toList ++ '\n' :: rest) := by
  rw [render_text]
  simp

theorem endsTag_renderBehind (depth : Nat) (name : String) (children : List Tree)
    (rest : List Char) : EndsTag (renderBehind depth name children ++ rest) := by
  by_cases hnil : children = []
  · rw [hnil, renderBehind_nil]
    exact ⟨_, .inr rfl⟩
  · rw [renderBehind_of_ne_nil depth name hnil]
    exact ⟨_, .inl rfl⟩

/-- No element is followed by what would make its tag that of an empty one. -/
theorem renderBehind_ne_slash {depth : Nat} {name name' : String}
    (htidy : ∀ u ∈ us, u.Tidy)
    (hapart : Tree.Apart us)
    (hmargin : margin rest ≤ 2 * depth) :
    renderBehind depth name ts ++ rest ≠ '/' :: (renderBehind depth name' us ++ rest') := by
  intro h
  by_cases hts : ts = []
  · rw [hts, renderBehind_nil] at h
    by_cases hus : us = []
    · rw [hus, renderBehind_nil] at h
      cases h
    · rw [renderBehind_of_ne_nil depth name' hus] at h
      have hinner := (List.cons.inj (List.cons.inj h).2).2
      have hfar := margin_of_renderInner hus htidy hapart hinner.symm
      exact absurd hmargin (Nat.not_le_of_lt hfar)
  · rw [renderBehind_of_ne_nil depth name hts] at h
    cases h

/-- The children of an element and what follows it are found again behind its tag. -/
theorem renderBehind_append_inj {depth : Nat} {name : String} (hfound : ∀ t ∈ ts, t.IsFound)
    (htidy : ∀ t ∈ ts, t.Tidy) (htidy' : ∀ u ∈ us, u.Tidy)
    (hapart : Tree.Apart ts)
    (hapart' : Tree.Apart us)
    (h : renderBehind depth name ts ++ rest = renderBehind depth name us ++ rest') :
    ts = us ∧ rest = rest' := by
  by_cases hts : ts = []
  · rw [hts, renderBehind_nil] at h
    by_cases hus : us = []
    · rw [hus, renderBehind_nil] at h
      exact ⟨hts.trans hus.symm, (List.cons.inj (List.cons.inj (List.cons.inj h).2).2).2⟩
    · rw [renderBehind_of_ne_nil depth name hus] at h
      cases h
  · rw [renderBehind_of_ne_nil depth name hts] at h
    by_cases hus : us = []
    · rw [hus, renderBehind_nil] at h
      cases h
    · rw [renderBehind_of_ne_nil depth name hus] at h
      obtain ⟨rfl, hclosing⟩ :=
        renderInner_append_inj hts hus hfound htidy htidy' hapart hapart' (List.cons.inj h).2
      have hend := List.append_cancel_left (List.cons.inj hclosing).2
      exact ⟨rfl, (List.cons.inj (List.cons.inj hend).2).2⟩

theorem isFound_text {value : String} (hvalue : IsValue value.toList) :
    IsFound (.node (.text value) []) := by
  intro t' depth rest rest' htidy hfollows hfollows' h
  obtain ⟨blanks, inside, hblanks, rfl⟩ := hfollows.opens rfl
  rw [render_text_append] at h
  cases htidy with
  | @text value' hvalue' =>
      obtain ⟨blanks', inside', hblanks', rfl⟩ := hfollows'.opens rfl
      rw [render_text_append] at h
      have hsplit := List.append_cancel_left h
      rw [← List.cons_append, ← List.append_assoc, ← List.cons_append, ← List.append_assoc]
        at hsplit
      have hnone : ∀ (cs : List Char) {blanks : List Char}, (∀ c ∈ blanks, isBlank c = true) →
          '<' ∉ Entity.escape cs ++ '\n' :: blanks := by
        intro cs blanks hblanks hmem
        rcases List.mem_append.mp hmem with hmem | hmem
        · exact bracket_not_mem_escape cs hmem
        · cases isBlank_of_mem_line hblanks _ hmem
      obtain ⟨hfront, rfl⟩ := append_separator_inj (hnone _ hblanks) (hnone _ hblanks') hsplit
      -- the last character of a text is not blank
      have hcut := congrArg (dropEndWhile isBlank) hfront
      rw [dropEndWhile_append (isBlank_of_mem_line hblanks) hvalue.escape.2.2,
        dropEndWhile_append (isBlank_of_mem_line hblanks') hvalue'.escape.2.2] at hcut
      have hsame := escape_inj hcut
      rw [String.toList_inj] at hsame
      subst hsame
      obtain rfl := (List.cons.inj (List.append_cancel_left hfront)).2
      exact ⟨rfl, rfl⟩
  | @element name attributes children htag hchildren hapart =>
      rw [render_element_append] at h
      obtain ⟨c, more, hwritten, hc⟩ := hvalue.exists_escape_eq_cons
      have hbracket := bracket_not_mem_escape value.toList
      rw [hwritten] at h hbracket
      rw [(List.cons.inj (List.append_cancel_left h)).1] at hbracket
      exact absurd List.mem_cons_self hbracket

/-- Every tree that a reader made is found again at the front of its written form. -/
theorem render_append_inj {t : Tree} (h : t.Tidy) : t.IsFound := by
  induction h with
  | text hvalue => exact isFound_text hvalue
  | @element name attributes children htag hchildren hapart ih =>
      intro t' depth rest rest' htidy hfollows hfollows' h
      cases htidy with
      | @text value hvalue =>
          obtain ⟨heq, -⟩ := isFound_text hvalue _ depth rest' rest
            (.element htag hchildren hapart) hfollows' hfollows h.symm
          cases heq
      | @element name' attributes' children' htag' hchildren' hapart' =>
          rw [render_element_append, render_element_append] at h
          have hinside := (List.cons.inj (List.append_cancel_left h)).2
          rcases writtenTag_append_inj htag htag' (endsTag_renderBehind _ _ _ _)
            (endsTag_renderBehind _ _ _ _) hinside with ⟨rfl, rfl, hbehind⟩ | hslash | hslash
          · obtain ⟨rfl, hrest⟩ :=
              renderBehind_append_inj ih hchildren hchildren' hapart hapart' hbehind
            exact ⟨rfl, hrest⟩
          · exact absurd hslash (renderBehind_ne_slash hchildren' hapart' hfollows.margin)
          · exact absurd hslash (renderBehind_ne_slash hchildren hapart hfollows'.margin)

/-- Two trees that a reader made are the same if they are written alike. -/
theorem toText_inj {t t' : Tree} (h : t.Tidy) (h' : t'.Tidy) (htop : t.content.isElement)
    (htop' : t'.content.isElement) (heq : t.toText = t'.toText) : t = t' := by
  have hend : ∀ {u : Tree}, u.content.isElement → Follows 0 u [] := by
    intro u hu
    constructor
    · exact Nat.le_refl 0
    · intro htext
      rw [hu] at htext
      cases htext
  have hrender : t.render 0 ++ [] = t'.render 0 ++ [] := by
    have hlist := congrArg String.toList heq
    rw [toText, toText, String.toList_ofList, String.toList_ofList] at hlist
    rw [hlist]
  exact (render_append_inj h t' 0 [] [] h' (hend htop) (hend htop') hrender).1

end Tree

end RouteCompiler.Route
