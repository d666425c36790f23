import RouteCompiler.Proofs.Document.Contents
import RouteCompiler.Proofs.Document.Reading
import RouteCompiler.Proofs.Document.RoundTrip

/-!
# Texts side by side

A document that was edited may hold texts side by side.  They are written one behind the
other, on a line each where elements stand among them, and are read as one text.  So
what is read is the tree in which such texts are joined, with what the writer puts
between them; it is written as the tree was.

Main definitions:

- `Tree.joined`: a tree in which texts side by side are one text.

Main results:

- Theorem `render_joined`: joining texts does not change the written form.
- Theorem `exists_parse_eq_joined`: every written tree with tags and texts that can be
  written is read as the tree with its texts joined.
-/

namespace RouteCompiler.Route

open RouteCompiler.Text

namespace Tree

/-- Put a tree in front of others; two texts that meet become one. -/
def joinFront (between : List Char) : Tree → List Tree → List Tree
  | .node (.text value) _, .node (.text more) _ :: rest =>
      .node (.text (value ++ String.ofList between ++ more)) [] :: rest
  | t, rest => t :: rest

/-- Trees of which no two texts stand side by side. -/
def joinTexts (between : List Char) (ts : List Tree) : List Tree :=
  ts.foldr (joinFront between) []

/-- What the writer puts between two texts below an element: nothing if there are only
texts, else a new line. -/
def textBreak (depth : Nat) (children : List Tree) : List Char :=
  if children.all fun child => !child.content.isElement then [] else '\n' :: indentation depth

mutual

/-- A tree whose top stands at a depth, with texts side by side joined. -/
def joined (depth : Nat) : Tree → Tree
  | .node (.text value) _ => .node (.text value) []
  | .node (.element name attributes) children =>
      .node (.element name attributes)
        (joinTexts (textBreak (depth + 1) children) (joinedAll (depth + 1) children))

/-- Trees at a depth, with texts side by side joined in each. -/
def joinedAll (depth : Nat) : List Tree → List Tree
  | [] => []
  | t :: ts => t.joined depth :: joinedAll depth ts

end

theorem joinedAll_eq_map (depth : Nat) (ts : List Tree) :
    joinedAll depth ts = ts.map (joined depth) := by
  induction ts with
  | nil => rfl
  | cons t ts ih => simp [joinedAll, ih]

@[simp] theorem content_joined (depth : Nat) (t : Tree) :
    (t.joined depth).content = t.content := by
  obtain ⟨c, children⟩ := t
  cases c <;> rfl

/-! ## Joining two texts -/

variable {between : List Char} {t u : Tree} {ts : List Tree}

/-- Two texts meet, or nothing happens. -/
theorem joinFront_cases (between : List Char) (t : Tree) (ts : List Tree) :
    (∃ value more below below' rest, t = .node (.text value) below ∧
      ts = .node (.text more) below' :: rest ∧ joinFront between t ts =
        .node (.text (value ++ String.ofList between ++ more)) [] :: rest) ∨
    ((∀ u ∈ ts.head?, t.content.isElement ∨ u.content.isElement) ∧
      joinFront between t ts = t :: ts) := by
  obtain ⟨c, below⟩ := t
  cases c with
  | element name attributes =>
      right
      exact ⟨fun _ _ => .inl rfl, rfl⟩
  | text value =>
      cases ts with
      | nil =>
          right
          exact ⟨by simp, rfl⟩
      | cons u rest =>
          obtain ⟨c, below'⟩ := u
          cases c with
          | element name attributes =>
              right
              refine ⟨?_, rfl⟩
              intro u hu
              obtain rfl := Option.some.inj hu
              exact .inr rfl
          | text more =>
              left
              exact ⟨value, more, below, below', rest, rfl, rfl, rfl⟩

theorem joinTexts_cons (between : List Char) (t : Tree) (ts : List Tree) :
    joinTexts between (t :: ts) = joinFront between t (joinTexts between ts) := rfl

/-- A property of single trees that joined texts have too holds of all trees after
joining. -/
theorem forall_mem_joinTexts {P : Tree → Prop} (hts : ∀ t ∈ ts, P t)
    (hjoined : ∀ value more below below', P (.node (.text value) below) →
      P (.node (.text more) below') →
        P (.node (.text (value ++ String.ofList between ++ more)) [])) :
    ∀ t ∈ joinTexts between ts, P t := by
  induction ts with
  | nil => simp [joinTexts]
  | cons t ts ih =>
      have hrest := ih fun u hu => hts u (by simp [hu])
      have ht := hts t (by simp)
      rw [joinTexts_cons]
      rcases joinFront_cases between t (joinTexts between ts) with
        ⟨value, more, below, below', rest, rfl, heq, hfront⟩ | ⟨-, hfront⟩
      · rw [heq] at hrest
        rw [hfront]
        intro u hu
        rcases List.mem_cons.mp hu with rfl | hu
        · exact hjoined value more below below' ht (hrest _ (by simp))
        · exact hrest u (by simp [hu])
      · rw [hfront]
        intro u hu
        rcases List.mem_cons.mp hu with rfl | hu
        · exact ht
        · exact hrest u hu

/-- After joining no two texts stand side by side. -/
theorem apart_joinTexts (between : List Char) (ts : List Tree) :
    Apart (joinTexts between ts) := by
  induction ts with
  | nil => exact .nil
  | cons t ts ih =>
      rw [joinTexts_cons]
      rcases joinFront_cases between t (joinTexts between ts) with
        ⟨value, more, below, below', rest, rfl, heq, hfront⟩ | ⟨hapart, hfront⟩
      · rw [heq] at ih
        rw [hfront]
        cases rest with
        | nil => exact .singleton _
        | cons u rest =>
            obtain ⟨hfirst, hrest⟩ := List.isChain_cons_cons.mp ih
            exact List.isChain_cons_cons.mpr ⟨hfirst, hrest⟩
      · rw [hfront]
        exact List.isChain_cons.mpr ⟨hapart, ih⟩

/-- Whatever is read off tree by tree, joined texts giving what the texts gave together,
does not change. -/
theorem flatMap_joinTexts {α : Type} {f : Tree → List α}
    (hjoined : ∀ value more below below', f (.node (.text value) below) ++
      f (.node (.text more) below') =
        f (.node (.text (value ++ String.ofList between ++ more)) [])) (ts : List Tree) :
    (joinTexts between ts).flatMap f = ts.flatMap f := by
  induction ts with
  | nil => rfl
  | cons t ts ih =>
      rw [joinTexts_cons, List.flatMap_cons, ← ih]
      rcases joinFront_cases between t (joinTexts between ts) with
        ⟨value, more, below, below', rest, rfl, heq, hfront⟩ | ⟨-, hfront⟩
      · rw [hfront, heq, List.flatMap_cons, List.flatMap_cons, ← List.append_assoc,
          hjoined value more below below']
      · rw [hfront, List.flatMap_cons]

theorem joinTexts_eq_nil_iff : joinTexts between ts = [] ↔ ts = [] := by
  cases ts with
  | nil => simp [joinTexts]
  | cons t ts =>
      rw [joinTexts_cons]
      rcases joinFront_cases between t (joinTexts between ts) with
        ⟨value, more, below, below', rest, -, -, hfront⟩ | ⟨-, hfront⟩
      · simp [hfront]
      · simp [hfront]

/-! ## The written form -/

theorem escape_indentation (depth : Nat) :
    Entity.escape (indentation depth) = indentation depth := by
  have hblank : Entity.escapeChar ' ' = [' '] := rfl
  rw [indentation, Entity.escape, List.flatMap_replicate, hblank, List.flatten_replicate_singleton]

/-- Texts alone are written one behind the other. -/
theorem renderInline_joinTexts (ts : List Tree) :
    ((joinTexts [] ts).flatMap fun t => renderInline t.content) =
      ts.flatMap fun t => renderInline t.content := by
  apply flatMap_joinTexts
  intro value more below below'
  simp [content, renderInline, escape_append]

theorem renderAll_eq_flatMap (depth : Nat) (ts : List Tree) :
    renderAll depth ts = ts.flatMap (render depth) := by
  induction ts with
  | nil => rfl
  | cons t ts ih => simp [renderAll, ih]

/-- Texts among elements are written on a line each. -/
theorem renderAll_joinTexts (depth : Nat) (ts : List Tree) :
    renderAll depth (joinTexts ('\n' :: indentation depth) ts) = renderAll depth ts := by
  rw [renderAll_eq_flatMap, renderAll_eq_flatMap]
  apply flatMap_joinTexts
  intro value more below below'
  have hline : Entity.escapeChar '\n' = ['\n'] := rfl
  simp [render, escape_append, escape_cons, escape_indentation, hline]

/-- Whether there are only texts does not change. -/
theorem all_joinTexts (between : List Char) (ts : List Tree) :
    ((joinTexts between ts).all fun t => !t.content.isElement) =
      ts.all fun t => !t.content.isElement := by
  induction ts with
  | nil => rfl
  | cons t ts ih =>
      rw [joinTexts_cons, List.all_cons, ← ih]
      rcases joinFront_cases between t (joinTexts between ts) with
        ⟨value, more, below, below', rest, rfl, heq, hfront⟩ | ⟨-, hfront⟩
      · rw [hfront, heq, List.all_cons, List.all_cons]
        rfl
      · rw [hfront, List.all_cons]

/-- What stands below the trees does not matter to whether there are only texts. -/
theorem all_joinedAll (depth : Nat) (ts : List Tree) :
    ((joinedAll depth ts).all fun t => !t.content.isElement) =
      ts.all fun t => !t.content.isElement := by
  simp [joinedAll_eq_map, List.all_map, Function.comp_def]

theorem renderInner_joinTexts (depth : Nat) (ts : List Tree) :
    renderInner depth (joinTexts (textBreak (depth + 1) ts) ts) = renderInner depth ts := by
  unfold renderInner textBreak
  rw [all_joinTexts]
  split
  · exact renderInline_joinTexts ts
  · rw [renderAll_joinTexts]

/-- Joining texts does not change the written form. -/
theorem render_joined (depth : Nat) (t : Tree) : (t.joined depth).render depth = t.render depth := by
  induction t generalizing depth with
  | node c children ih =>
      cases c with
      | text value => rfl
      | element name attributes =>
          rw [joined]
          by_cases hnil : children = []
          · subst hnil
            rfl
          · have hne : joinTexts (textBreak (depth + 1) children)
                (joinedAll (depth + 1) children) ≠ [] := by
              rw [Ne, joinTexts_eq_nil_iff, joinedAll_eq_map, List.map_eq_nil_iff]
              exact hnil
            have hlines : renderAll (depth + 1) (joinedAll (depth + 1) children) =
                renderAll (depth + 1) children := by
              rw [renderAll_eq_flatMap, renderAll_eq_flatMap, joinedAll_eq_map, List.flatMap_map]
              exact List.flatMap_congr fun t ht => ih t ht (depth + 1)
            have hinline : ((joinedAll (depth + 1) children).flatMap fun t =>
                renderInline t.content) = children.flatMap fun t => renderInline t.content := by
              simp [joinedAll_eq_map, List.flatMap_map]
            have hinner : renderInner depth (joinedAll (depth + 1) children) =
                renderInner depth children := by
              rw [renderInner, all_joinedAll, hlines, hinline]
              rfl
            have hbreak : textBreak (depth + 1) (joinedAll (depth + 1) children) =
                textBreak (depth + 1) children := by
              rw [textBreak, all_joinedAll]
              rfl
            rw [render_element depth hne, render_element depth hnil, ← hbreak,
              renderInner_joinTexts, hinner]

/-! ## Reading the written form -/

/-- Texts of a joined tree have nothing below them. -/
theorem textsAreLeaves_joined (depth : Nat) (t : Tree) : (t.joined depth).TextsAreLeaves := by
  induction t generalizing depth with
  | node c children ih =>
      cases c with
      | text value => exact .text value
      | element name attributes =>
          rw [joined, joinedAll_eq_map]
          apply TextsAreLeaves.element
          apply forall_mem_joinTexts
          · intro u hu
            obtain ⟨t, ht, rfl⟩ := List.mem_map.mp hu
            exact ih t ht (depth + 1)
          · intro value more below below' _ _
            exact .text _

/-- Where every tag and every text can be written, the joined tree can. -/
theorem writable_joined (depth : Nat) {t : Tree} (h : ∀ c ∈ t.contents, c.IsWritable) :
    (t.joined depth).Writable := by
  induction t generalizing depth with
  | node c children ih =>
      rw [contents, contentsAll_eq_flatMap] at h
      have hc := h c (by simp)
      cases c with
      | text value => exact .text hc
      | element name attributes =>
          rw [joined, joinedAll_eq_map]
          refine .element hc ?_ (apart_joinTexts _ _)
          apply forall_mem_joinTexts
          · intro u hu
            obtain ⟨t, ht, rfl⟩ := List.mem_map.mp hu
            apply ih t ht (depth + 1)
            intro c hc
            exact h c (List.mem_cons_of_mem _ (List.mem_flatMap.mpr ⟨t, ht, hc⟩))
          · intro value more below below' hvalue hmore
            cases hvalue with
            | text hvalue =>
                cases hmore with
                | text hmore =>
                    have hjoined := hvalue.append (textBreak (depth + 1) children) hmore
                    apply Writable.text
                    rwa [String.toList_append, String.toList_append, String.toList_ofList]

end Tree

namespace Document

/-- A written tree with tags and texts that can be written is read as the tree with its
texts joined, which is written as the tree was. -/
theorem exists_parse_eq_joined {t : Tree} (h : ∀ c ∈ t.contents, c.IsWritable)
    (htop : t.content.isElement) :
    ∃ d, parse t.toText = .ok d ∧ d.tree d.root = t.joined 0 ∧ d.serialize = t.toText := by
  have htext : (t.joined 0).toText = t.toText := by
    rw [Tree.toText, Tree.render_joined, Tree.toText]
  have htop' : (t.joined 0).content.isElement := by
    rw [Tree.content_joined]
    exact htop
  obtain ⟨d, hparse, htree⟩ := exists_parse_toText (Tree.writable_joined 0 h).legible htop'
  rw [(Tree.textsAreLeaves_joined 0 t).pruned_eq] at htree
  refine ⟨d, htext ▸ hparse, htree, ?_⟩
  rw [serialize, htree, htext]

end Document

end RouteCompiler.Route
