import RouteCompiler.Proofs.Document.Building
import RouteCompiler.Proofs.Document.Scanning

/-!
# What reading can still make

What has been read is not changed by what follows, but for a text at the end of the
innermost element, which may grow.  So if the outcome of reading is known, it is known at
every stage which tree must come next.

Main definitions:

- `place` and `put`: the stage in which the next tree is read, and the stage behind it.
- `Completes`: how the elements around a place become a given tree.
- `Stage.Within`: everything that has been read is part of a given tree.

Main results:

- Theorem `Completes.unique`: only one tree fits a place.
- Theorem `Reads.within`: what is part of a tree after a token was so before it.
- Theorem `ReadsAll.within`: what has been read becomes part of what is read in the end.
-/

namespace RouteCompiler.Route

open RouteCompiler.Text

namespace Builder

variable {f g : Frame} {fs outer : List Frame} {stage stage' : Stage} {x : Placed} {u : Tree}
  {content : List Char}

/-! ## Where the next tree stands -/

/-- The stage in which the next tree is put into an open element, or is the root. -/
def place : List Frame → Stage
  | [] => .before
  | f :: fs => .inside f fs

/-- The stage behind a tree that was put there. -/
def put (outer : List Frame) (x : Placed) : Stage :=
  match outer with
  | [] => .after x
  | f :: fs => .inside (f.add x) fs

theorem not_reads_broken (fault : TokenFault) : ¬ Reads (.broken fault) stage stage' := by
  intro h
  cases h with
  | blank hcontent => cases hcontent
  | newText n hcontent => cases hcontent
  | moreText hcontent => cases hcontent

theorem Reads.of_close {name : List Char} (h : Reads (.close name) stage stage') :
    ∃ f fs, stage = .inside f fs ∧ name = (openName f).2 ∧ stage' = put fs (f.fill []) := by
  cases h with
  | blank hcontent => cases hcontent
  | newText n hcontent => cases hcontent
  | moreText hcontent => cases hcontent
  | @closing f g fs => exact ⟨f, g :: fs, rfl, rfl, rfl⟩
  | @closeRoot f => exact ⟨f, [], rfl, rfl, rfl⟩

theorem Reads.of_empty (h : Reads (.tag content true) (place outer) stage') :
    ∃ n attributes, Attribute.ofTagContent content = .ok attributes ∧
      stage' = put outer (.node n (tagged content attributes) []) := by
  cases outer with
  | nil =>
      cases h with
      | blank hcontent => cases hcontent
      | @emptyRoot content attributes n htag => exact ⟨n, attributes, htag, rfl⟩
  | cons f fs =>
      cases h with
      | blank hcontent => cases hcontent
      | newText n hcontent => cases hcontent
      | moreText hcontent => cases hcontent
      | @empty content attributes f fs n htag => exact ⟨n, attributes, htag, rfl⟩

theorem Reads.of_opening (h : Reads (.tag content false) (place outer) stage') :
    ∃ n attributes, Attribute.ofTagContent content = .ok attributes ∧
      stage' = .inside ⟨n, tagged content attributes, [], []⟩ outer := by
  cases outer with
  | nil =>
      cases h with
      | blank hcontent => cases hcontent
      | @openRoot content attributes n htag => exact ⟨n, attributes, htag, rfl⟩
  | cons f fs =>
      cases h with
      | blank hcontent => cases hcontent
      | newText n hcontent => cases hcontent
      | moreText hcontent => cases hcontent
      | @opening content attributes f fs n htag => exact ⟨n, attributes, htag, rfl⟩

/-- A text that does not stand behind another one becomes a leaf. -/
theorem Reads.of_text {value : String} (h : Reads (.text (Entity.escape value.toList))
    (place outer) stage') (hvalue : IsValue value.toList)
    (hlast : ∀ f ∈ outer.head?, ¬ EndsWithText f) :
    ∃ n, stage' = put outer (.node n (.text value) []) := by
  have hwritten : ∀ {ds}, characters? (.text (Entity.escape value.toList)) = some ds →
      ds = value.toList := by
    intro ds hds
    rw [characters?, Entity.unescape_escape] at hds
    exact (Option.some.inj hds).symm
  have htrimmed : trimChars value.toList = value.toList :=
    trimChars_eq_self hvalue.head hvalue.last
  cases outer with
  | nil =>
      cases h with
      | blank hcontent hblank =>
          rw [hwritten hcontent, htrimmed] at hblank
          exact absurd hblank hvalue.nonempty
  | cons f fs =>
      cases h with
      | blank hcontent hblank =>
          rw [hwritten hcontent, htrimmed] at hblank
          exact absurd hblank hvalue.nonempty
      | newText n hcontent =>
          refine ⟨n, ?_⟩
          rw [hwritten hcontent, htrimmed, String.ofList_toList]
          rfl
      | @moreText _ _ _ _ left cs i value' hcontent hnonempty hleft =>
          exact absurd ⟨left, i, value', cs, hleft⟩ (hlast f rfl)

/-! ## What is read becomes part of the whole -/

/-- The elements around a place, with an element at it and more behind it on every level,
are a given tree. -/
def Completes : List Frame → Content → List Tree → Tree → Prop
  | [], c, ts, u => .node c ts = u
  | g :: fs, c, ts, u =>
      ∃ right, Completes fs g.content (g.left.map Placed.toTree ++ .node c ts :: right) u

/-- Only one tree stands at a place of a given tree. -/
theorem Completes.unique {c c' : Content} {ts ts' : List Tree} (h : Completes fs c ts u)
    (h' : Completes fs c' ts' u) : c = c' ∧ ts = ts' := by
  induction fs generalizing c c' ts ts' with
  | nil => exact Tree.node.inj (Eq.trans h (Eq.symm h'))
  | cons g fs ih =>
      obtain ⟨right, h⟩ := h
      obtain ⟨right', h'⟩ := h'
      obtain ⟨-, hsame⟩ := ih h h'
      exact Tree.node.inj (List.cons.inj (List.append_cancel_left hsame)).1

/-- What has been read in an element comes first among its children, but a text at the end
may still grow. -/
def Begins (left : List Placed) (ts : List Tree) : Prop :=
  ∃ front, front.map Placed.toTree <+: ts ∧
    (left = front ∨ ∃ i value cs, left = front ++ [.node i (.text value) cs])

/-- Everything that has been read is part of a given tree. -/
def Stage.Within (u : Tree) : Stage → Prop
  | .before => True
  | .inside f fs => ∃ ts, Begins f.left ts ∧ Completes fs f.content ts u
  | .after t => t.toTree = u

variable {left : List Placed} {ts : List Tree}

theorem Begins.of_front (h : left.map Placed.toTree <+: ts) : Begins left ts :=
  ⟨left, h, .inl rfl⟩

/-- Nothing in front of the last tree can change. -/
theorem Begins.of_add (h : Begins (left ++ [x]) ts) : left.map Placed.toTree <+: ts := by
  obtain ⟨front, hfront, rfl | ⟨i, value, cs, hlast⟩⟩ := h
  · rw [List.map_append] at hfront
    exact (List.prefix_append _ _).trans hfront
  · rw [(List.append_inj' hlast rfl).1]
    exact hfront

theorem Begins.of_element (h : Begins (left ++ [x]) ts) (hx : x.content.isElement) :
    ∃ right, ts = left.map Placed.toTree ++ x.toTree :: right := by
  obtain ⟨front, ⟨right, hright⟩, rfl | ⟨i, value, cs, hlast⟩⟩ := h
  · refine ⟨right, ?_⟩
    rw [← hright]
    simp
  · rw [List.singleton_inj.mp (List.append_inj' hlast rfl).2] at hx
    cases hx

/-- An element that was put at a place stands there. -/
theorem Stage.Within.of_put {i : NodeId} {c : Content} {cs : List Placed}
    (h : (put outer (.node i c cs)).Within u) (hc : c.isElement) :
    Completes outer c (cs.map Placed.toTree) u := by
  cases outer with
  | nil => exact (Placed.toTree_node ..).symm.trans h
  | cons g fs =>
      obtain ⟨ts, hbegins, hcompletes⟩ := h
      obtain ⟨right, rfl⟩ := hbegins.of_element hc
      rw [Placed.toTree_node] at hcompletes
      exact ⟨right, hcompletes⟩

/-- Open elements are elements, and are read in order. -/
def Stage.IsOpen : Stage → Prop
  | .inside f fs => ∀ g ∈ f :: fs, Builder.IsOpen g
  | _ => True

/-- No closing tag is read where a tree is still to come. -/
theorem Completes.not_within_of_close {c : Content} {ts : List Tree} {name : List Char}
    (h : Completes outer c ts u) (hopen : (place outer).IsOpen)
    (hclose : Reads (.close name) (place outer) stage') : ¬ stage'.Within u := by
  intro hwithin
  obtain ⟨f, fs, hplace, -, rfl⟩ := hclose.of_close
  cases outer with
  | nil => cases hplace
  | cons g gs =>
      obtain ⟨rfl, rfl⟩ := Stage.inside.inj hplace
      have hg := hopen g (by simp)
      obtain ⟨right, hcompletes⟩ := h
      obtain ⟨-, hts⟩ := hcompletes.unique (hwithin.of_put hg.isElement)
      rw [hg.right, List.append_nil, List.append_nil] at hts
      have hlength := congrArg List.length hts
      simp at hlength

variable {token : Token}

theorem Reads.isOpen (h : Reads token stage stage') (hopen : stage.IsOpen) : stage'.IsOpen := by
  have hfirst : ∀ {f f' : Frame} {fs : List Frame}, (∀ g ∈ f :: fs, Builder.IsOpen g) →
      Builder.IsOpen f' → ∀ g ∈ f' :: fs, Builder.IsOpen g := by
    intro f f' fs hall hf' g hg
    rcases List.mem_cons.mp hg with rfl | hg
    · exact hf'
    · exact hall g (by simp [hg])
  cases h with
  | blank => exact hopen
  | newText n hcontent htrimmed hlast => exact hfirst hopen ((hopen _ (by simp)).add _)
  | @moreText _ _ f fs left cs i value hcontent htrimmed hleft =>
      exact hfirst hopen ⟨(hopen f (by simp)).isElement, rfl⟩
  | openRoot n htag =>
      intro g hg
      rw [List.mem_singleton.mp hg]
      exact ⟨rfl, rfl⟩
  | emptyRoot n htag => trivial
  | opening n htag =>
      intro g hg
      rcases List.mem_cons.mp hg with rfl | hg
      · exact ⟨rfl, rfl⟩
      · exact hopen g hg
  | empty n htag => exact hfirst hopen ((hopen _ (by simp)).add _)
  | @closing f g fs =>
      have houter : ∀ k ∈ g :: fs, Builder.IsOpen k := by
        intro k hk
        exact hopen k (by simp [hk])
      exact hfirst houter ((houter g (by simp)).add _)
  | closeRoot => trivial

/-- What is part of a tree after a token was so before it. -/
theorem Reads.within (h : Reads token stage stage') (hopen : stage.IsOpen)
    (hwithin : stage'.Within u) : stage.Within u := by
  cases h with
  | blank => exact hwithin
  | newText n hcontent htrimmed hlast =>
      obtain ⟨ts, hbegins, hcompletes⟩ := hwithin
      exact ⟨ts, .of_front hbegins.of_add, hcompletes⟩
  | @moreText _ _ f fs left cs i value hcontent htrimmed hleft =>
      obtain ⟨ts, hbegins, hcompletes⟩ := hwithin
      exact ⟨ts, ⟨left, hbegins.of_add, .inr ⟨i, value, cs, hleft⟩⟩, hcompletes⟩
  | openRoot n htag => trivial
  | emptyRoot n htag => trivial
  | opening n htag =>
      obtain ⟨ts, -, right, hcompletes⟩ := hwithin
      exact ⟨_, .of_front (List.prefix_append _ _), hcompletes⟩
  | empty n htag =>
      obtain ⟨ts, hbegins, hcompletes⟩ := hwithin
      exact ⟨ts, .of_front hbegins.of_add, hcompletes⟩
  | @closing f g fs =>
      have hf := hopen f (by simp)
      have hcompletes : Completes (g :: fs) f.content _ u :=
        Stage.Within.of_put hwithin hf.isElement
      rw [hf.right, List.append_nil, List.append_nil] at hcompletes
      exact ⟨_, .of_front (List.prefix_refl _), hcompletes⟩
  | @closeRoot f =>
      have hf := hopen f (by simp)
      have hcompletes : Completes [] f.content _ u := Stage.Within.of_put hwithin hf.isElement
      rw [hf.right, List.append_nil, List.append_nil] at hcompletes
      exact ⟨_, .of_front (List.prefix_refl _), hcompletes⟩

/-- What has been read becomes part of what is read in the end. -/
theorem ReadsAll.within {tokens : List Token} (h : ReadsAll tokens stage (.after x))
    (hopen : stage.IsOpen) : stage.Within x.toTree := by
  generalize hend : Stage.after x = last at h
  induction h with
  | done =>
      subst hend
      rfl
  | step hfirst hrest ih => exact hfirst.within hopen (ih (hfirst.isOpen hopen) hend)

end Builder

end RouteCompiler.Route
