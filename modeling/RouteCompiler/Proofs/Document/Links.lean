import Mathlib.Logic.Relation
import RouteCompiler.Proofs.Document.Forest

/-!
# Links of a document

Child lists and parent links are stored apart, and each edit updates both.  Where they agree
and no node is below itself, the links form a forest, and following them ends.

Detached nodes may come and go, and an edit may move a node below another one; what it must not
do is to move a node below itself, or to move the root.

Main definitions:

- `Document.HangsFrom`, `Document.AtOrBelow` and `Document.Below`: where nodes stand.
- `Document.IsForest`: the links of a document form a forest.

Main results:

- Theorem `IsForest.not_below_self`: no node is below itself.
- Theorem `IsForest.reaches_top_of_moved`: nodes may be moved below a node that is not below
  one of them.
- Theorems `IsForest.push_empty`, `IsForest.push`, `IsForest.modifyContent`, `IsForest.link`,
  `IsForest.push_link`, `IsForest.detach` and `IsForest.appendChild`: edits that keep a forest.
-/

namespace RouteCompiler.Route.Document

open Relation

variable {d d' : Document} {x y p q a c : NodeId}

/-! ## Where nodes stand -/

/-- The first node hangs directly from the second one. -/
def HangsFrom (d : Document) (x p : NodeId) : Prop :=
  d.parent? x = some p

instance (d : Document) (x p : NodeId) : Decidable (d.HangsFrom x p) :=
  inferInstanceAs (Decidable (d.parent? x = some p))

/-- The first node is the second one, or below it. -/
def AtOrBelow (d : Document) : NodeId → NodeId → Prop :=
  ReflTransGen d.HangsFrom

/-- The first node is below the second one. -/
def Below (d : Document) : NodeId → NodeId → Prop :=
  TransGen d.HangsFrom

theorem HangsFrom.unique (h : d.HangsFrom x p) (h' : d.HangsFrom x q) : p = q :=
  Option.some.inj (h.symm.trans h')

theorem not_hangsFrom_of_top (h : d.parent? x = none) : ¬ d.HangsFrom x p := by
  intro hstep
  rw [HangsFrom, h] at hstep
  cases hstep

/-- Only a node itself is at or above a node without a parent. -/
theorem AtOrBelow.eq_of_top (h : d.AtOrBelow x a) (htop : d.parent? x = none) : a = x := by
  rcases ReflTransGen.cases_head h with heq | ⟨p, hstep, -⟩
  · exact heq.symm
  · exact absurd hstep (not_hangsFrom_of_top htop)

/-- A node from which a top is reached is not below itself. -/
theorem AtOrBelow.not_below_self {top : NodeId} (h : d.AtOrBelow x top)
    (htop : d.parent? top = none) : ¬ d.Below x x := by
  induction h using ReflTransGen.head_induction_on with
  | refl =>
      intro hcycle
      obtain ⟨p, hstep, -⟩ := TransGen.head'_iff.mp hcycle
      exact not_hangsFrom_of_top htop hstep
  | head hstep _ ih =>
      intro hcycle
      obtain ⟨q, hstep', hback⟩ := TransGen.head'_iff.mp hcycle
      obtain rfl := hstep.unique hstep'
      exact ih (TransGen.tail' hback hstep)

/-! ## Addresses of links -/

/-- What has a parent is in the arena. -/
theorem HangsFrom.lt_size (h : d.HangsFrom x p) : x < d.size := by
  obtain ⟨n, hn, -⟩ := Option.bind_eq_some_iff.mp h
  exact (Array.getElem?_eq_some_iff.mp hn).1

/-- What is at or below a node of the arena is in the arena. -/
theorem AtOrBelow.lt_size (h : d.AtOrBelow x a) (ha : a < d.size) : x < d.size := by
  rcases ReflTransGen.cases_head h with rfl | ⟨p, hstep, -⟩
  · exact ha
  · exact hstep.lt_size

/-- Of two nodes above a third one, one is above the other. -/
theorem AtOrBelow.total (h : d.AtOrBelow x a) (h' : d.AtOrBelow x c) :
    d.AtOrBelow a c ∨ d.AtOrBelow c a :=
  ReflTransGen.total_of_right_unique (fun _ _ _ => HangsFrom.unique) h h'

theorem children_of_size_le (h : d.size ≤ p) : d.children p = [] := by
  rw [children, Array.getElem?_eq_none h]
  rfl

/-- What has children is in the arena. -/
theorem lt_size_of_mem_children (h : c ∈ d.children p) : p < d.size := by
  refine Nat.lt_of_not_le fun hle => ?_
  rw [children_of_size_le hle] at h
  cases h

/-! ## Forests -/

/-- The links of a document form a forest, with the root at one of its tops. -/
structure IsForest (d : Document) : Prop where
  /-- The root is in the arena. -/
  root_lt : d.root < d.size
  /-- The root hangs from nothing. -/
  parent_root : d.parent? d.root = none
  /-- Every stored parent is in the arena. -/
  parent_lt : ∀ x p, d.parent? x = some p → p < d.size
  /-- Every stored child is in the arena. -/
  child_lt : ∀ p, ∀ c ∈ d.children p, c < d.size
  /-- Child lists and parent links agree. -/
  mem_children : ∀ p c, c ∈ d.children p ↔ d.parent? c = some p
  /-- A child is listed once. -/
  nodup_children : ∀ p, (d.children p).Nodup
  /-- Going from parent to parent ends. -/
  reaches_top : ∀ x, ∃ top, d.AtOrBelow x top ∧ d.parent? top = none

namespace IsForest

/-- Links that agree lead into the arena only. -/
theorem of_links (hroot : d.root < d.size) (hparent : d.parent? d.root = none)
    (hmem : ∀ p c, c ∈ d.children p ↔ d.parent? c = some p)
    (hnodup : ∀ p, (d.children p).Nodup)
    (htop : ∀ x, ∃ top, d.AtOrBelow x top ∧ d.parent? top = none) : d.IsForest where
  root_lt := hroot
  parent_root := hparent
  parent_lt x p h := lt_size_of_mem_children ((hmem p x).mpr h)
  child_lt p c h := HangsFrom.lt_size ((hmem p c).mp h)
  mem_children := hmem
  nodup_children := hnodup
  reaches_top := htop

/-- No node is below itself. -/
theorem not_below_self (h : d.IsForest) (x : NodeId) : ¬ d.Below x x := by
  obtain ⟨top, hreaches, htop⟩ := h.reaches_top x
  exact hreaches.not_below_self htop

/-- A node is not at or above the node from which it hangs. -/
theorem not_atOrBelow_of_hangsFrom (h : d.IsForest) (hx : d.HangsFrom x p) :
    ¬ d.AtOrBelow p x :=
  fun hback => h.not_below_self x (TransGen.head' hx hback)

/-- Where the nodes of a forest keep their parents, whatever is above one of them is one of
them. -/
theorem lt_size_of_atOrBelow (h : d.IsForest)
    (hkept : ∀ x, x < d.size → d'.parent? x = d.parent? x) (hx : x < d.size)
    (ha : d'.AtOrBelow x a) : a < d.size := by
  induction ha using ReflTransGen.head_induction_on with
  | refl => exact hx
  | @head y z hstep _ ih =>
      rw [HangsFrom, hkept y hx] at hstep
      exact ih (h.parent_lt y z hstep)

/-- Where some nodes are moved below a node that is at or below none of them, and others keep
their parents or lose them, going from parent to parent still ends. -/
theorem reaches_top_of_moved (h : d.IsForest) (p : NodeId) (moved : NodeId → Prop)
    (hmoved : ∀ x, moved x → d'.parent? x = some p)
    (hkept : ∀ x, ¬ moved x → d'.parent? x = d.parent? x ∨ d'.parent? x = none)
    (habove : ∀ a, d.AtOrBelow p a → ¬ moved a) (x : NodeId) :
    ∃ top, d'.AtOrBelow x top ∧ d'.parent? top = none := by
  have hstay : ∀ x, ¬ moved x → (∀ y, d.HangsFrom x y → ∃ top, d'.AtOrBelow y top ∧
      d'.parent? top = none) → ∃ top, d'.AtOrBelow x top ∧ d'.parent? top = none := by
    intro x hx hnext
    rcases hkept x hx with hsame | hnone
    · cases hparent : d.parent? x with
      | none => exact ⟨x, .refl, hsame.trans hparent⟩
      | some y =>
          obtain ⟨top, hreaches, htop⟩ := hnext y hparent
          exact ⟨top, .head (hsame.trans hparent) hreaches, htop⟩
    · exact ⟨x, .refl, hnone⟩
  -- Nothing at or above the new parent is moved, so its own way up is the old one, or shorter.
  have hnew : ∀ y, d.AtOrBelow p y → ∃ top, d'.AtOrBelow y top ∧ d'.parent? top = none := by
    intro y hy
    obtain ⟨top, hreaches, htop⟩ := h.reaches_top y
    induction hreaches using ReflTransGen.head_induction_on with
    | refl => exact hstay top (habove top hy) fun z hz => absurd hz (not_hangsFrom_of_top htop)
    | @head y z hstep _ ih =>
        refine hstay y (habove y hy) fun z' hz' => ?_
        obtain rfl := hstep.unique hz'
        exact ih (.tail hy hstep)
  obtain ⟨top, hreaches, htop⟩ := h.reaches_top x
  induction hreaches using ReflTransGen.head_induction_on with
  | refl =>
      by_cases hx : moved top
      · obtain ⟨top', hreaches', htop'⟩ := hnew p .refl
        exact ⟨top', .head (hmoved top hx) hreaches', htop'⟩
      · exact hstay top hx fun z hz => absurd hz (not_hangsFrom_of_top htop)
  | @head x z hstep _ ih =>
      by_cases hx : moved x
      · obtain ⟨top', hreaches', htop'⟩ := hnew p .refl
        exact ⟨top', .head (hmoved x hx) hreaches', htop'⟩
      · refine hstay x hx fun z' hz' => ?_
        obtain rfl := hstep.unique hz'
        exact ih

/-- An edit that keeps all links, and the root, keeps a forest. -/
theorem of_same_links (h : d.IsForest) (hroot : d'.root = d.root) (hsize : d.size ≤ d'.size)
    (hparent : ∀ x, d'.parent? x = d.parent? x) (hchildren : ∀ p, d'.children p = d.children p) :
    d'.IsForest := by
  refine of_links ?_ ?_ ?_ ?_ ?_
  · rw [hroot]
    exact Nat.lt_of_lt_of_le h.root_lt hsize
  · rw [hparent, hroot, h.parent_root]
  · intro p c
    rw [hchildren, hparent, h.mem_children]
  · intro p
    rw [hchildren]
    exact h.nodup_children p
  · exact h.reaches_top_of_moved d.root (fun _ => False) (fun x hx => hx.elim)
      (fun x _ => .inl (hparent x)) fun a _ ha => ha

end IsForest

/-! ## Links after basic edits -/

section Basic

variable (d : Document)

@[simp] theorem parent_push (content : Content) (x : NodeId) :
    (d.push content).1.parent? x = d.parent? x := by
  simp only [parent?, push, Array.getElem?_push]
  split
  · next hx => simp [hx]
  · rfl

@[simp] theorem children_push (content : Content) (p : NodeId) :
    (d.push content).1.children p = d.children p := by
  simp only [children, push, Array.getElem?_push]
  split
  · next hp => simp [hp]
  · rfl

@[simp] theorem parent_modifyContent (id : NodeId) (f : Content → Content) (x : NodeId) :
    (d.modifyContent id f).parent? x = d.parent? x := by
  simp only [parent?, modifyContent, getElem_modifyNode]
  split
  · cases d.nodes[x]? <;> rfl
  · rfl

@[simp] theorem children_modifyContent (id : NodeId) (f : Content → Content) (p : NodeId) :
    (d.modifyContent id f).children p = d.children p := by
  simp only [children, modifyContent, getElem_modifyNode]
  split
  · cases d.nodes[p]? <;> rfl
  · rfl

@[simp] theorem size_setParent (id : NodeId) (parent : Option NodeId) :
    (d.setParent id parent).size = d.size := by
  simp [setParent]

theorem parent_link (p c x : NodeId) :
    (d.link p c).parent? x = if x = c ∧ x < d.size then some p else d.parent? x := by
  rw [link, parent_modifyChildren, parent_setParent]

theorem children_link (p c x : NodeId) :
    (d.link p c).children x = if x = p ∧ x < d.size then d.children x ++ [c] else d.children x := by
  rw [link, children_modifyChildren, size_setParent, children_setParent]

/-- An unlinked node has no parent; others keep theirs. -/
theorem parent_detach (id x : NodeId) :
    (d.detach id).parent? x = if x = id then none else d.parent? x := by
  rw [detach]
  split
  · next hnone =>
    split
    · next hx => rw [hx, hnone]
    · rfl
  · next p hparent =>
    have hid : id < d.size := HangsFrom.lt_size hparent
    rw [parent_modifyChildren, parent_setParent]
    by_cases hx : x = id
    · simp [hx, hid]
    · simp [hx]

end Basic

namespace IsForest

/-! ## Edits that keep a forest -/

/-- The first node stands alone, and is the root. -/
theorem push_empty (content : Content) : (Document.empty.push content).1.IsForest := by
  have hparent : ∀ x, (Document.empty.push content).1.parent? x = none := by
    rintro (_ | x) <;> rfl
  have hchildren : ∀ p, (Document.empty.push content).1.children p = [] := by
    rintro (_ | p) <;> rfl
  refine of_links Nat.zero_lt_one (hparent 0) ?_ ?_ fun x => ⟨x, .refl, hparent x⟩
  · simp [hparent, hchildren]
  · simp [hchildren]

theorem ofRootName (name : String) : (Document.ofRootName name).IsForest :=
  push_empty (.element name [])

theorem push (h : d.IsForest) (content : Content) : (d.push content).1.IsForest :=
  h.of_same_links rfl (by simp) (by simp) (by simp)

theorem modifyContent (h : d.IsForest) (id : NodeId) (f : Content → Content) :
    (d.modifyContent id f).IsForest :=
  h.of_same_links rfl (by simp) (by simp) (by simp)

/-- A top other than the root is linked to a node that is not below it. -/
theorem link (h : d.IsForest) (hp : p < d.size) (hc : c < d.size) (htop : d.parent? c = none)
    (hroot : c ≠ d.root) (hbelow : ¬ d.AtOrBelow p c) : (d.link p c).IsForest := by
  have hparent : ∀ x, (d.link p c).parent? x = if x = c then some p else d.parent? x := by
    intro x
    rw [parent_link]
    by_cases hx : x = c
    · simp [hx, hc]
    · simp [hx]
  have hchildren : ∀ q, (d.link p c).children q =
      if q = p then d.children q ++ [c] else d.children q := by
    intro q
    rw [children_link]
    by_cases hq : q = p
    · simp [hq, hp]
    · simp [hq]
  have hfree : ∀ q, c ∉ d.children q := by
    intro q hq
    rw [h.mem_children, htop] at hq
    cases hq
  refine of_links ?_ ?_ ?_ ?_ ?_
  · simpa using h.root_lt
  · rw [hparent, root_link, if_neg (Ne.symm hroot), h.parent_root]
  · intro q x
    rw [hchildren, hparent]
    by_cases hx : x = c
    · subst hx
      by_cases hq : q = p
      · simp [hq]
      · simp [hq, hfree q, Ne.symm hq]
    · by_cases hq : q = p
      · simp [hq, hx, h.mem_children]
      · simp [hq, hx, h.mem_children]
  · intro q
    rw [hchildren]
    split
    · rw [List.nodup_append]
      refine ⟨h.nodup_children q, List.nodup_singleton c, ?_⟩
      rintro x hx _ hc' rfl
      exact hfree q (List.mem_singleton.mp hc' ▸ hx)
    · exact h.nodup_children q
  · refine h.reaches_top_of_moved p (fun x => x = c) ?_ ?_ ?_
    · rintro x rfl
      rw [hparent, if_pos rfl]
    · intro x hx
      rw [hparent, if_neg hx]
      exact .inl rfl
    · rintro a ha rfl
      exact hbelow ha

/-- A new node is added below a node. -/
theorem push_link (h : d.IsForest) (content : Content) (hp : p < d.size) :
    ((d.push content).1.link p d.size).IsForest := by
  have htop : d.parent? d.size = none := by
    rw [parent?, Array.getElem?_eq_none (Nat.le_refl d.size)]
    rfl
  refine (h.push content).link ?_ ?_ ?_ ?_ ?_
  · rw [size_push]
    exact Nat.lt_succ_of_lt hp
  · rw [size_push]
    exact Nat.lt_succ_self d.size
  · rw [parent_push, htop]
  · exact (Nat.ne_of_lt h.root_lt).symm
  · intro hbelow
    exact Nat.lt_irrefl d.size
      (h.lt_size_of_atOrBelow (fun x _ => parent_push d content x) hp hbelow)

/-- An unlinked node is in no child list; nothing else leaves one. -/
theorem children_detach (h : d.IsForest) (id p : NodeId) :
    (d.detach id).children p = (d.children p).filter (· != id) := by
  have hkept : ∀ q, d.parent? id ≠ some q → (d.children q).filter (· != id) = d.children q := by
    intro q hq
    rw [List.filter_eq_self]
    intro x hx
    refine bne_iff_ne.mpr ?_
    rintro rfl
    exact hq ((h.mem_children q x).mp hx)
  rw [Document.detach]
  split
  · next hnone => exact (hkept p (by simp [hnone])).symm
  · next q hparent =>
    rw [children_modifyChildren, size_setParent, children_setParent]
    by_cases hp : p = q
    · have hlt : q < d.size := h.parent_lt id q hparent
      simp [hp, hlt]
    · rw [if_neg (by simp [hp]), hkept p (by simp [hparent, Ne.symm hp])]

theorem detach (h : d.IsForest) (id : NodeId) : (d.detach id).IsForest := by
  refine of_links ?_ ?_ ?_ ?_ ?_
  · simpa using h.root_lt
  · rw [root_detach, parent_detach, h.parent_root]
    split <;> rfl
  · intro p c
    rw [h.children_detach, parent_detach, List.mem_filter, h.mem_children, bne_iff_ne]
    by_cases hc : c = id
    · simp [hc]
    · simp [hc]
  · intro p
    rw [h.children_detach]
    exact (h.nodup_children p).filter _
  · refine h.reaches_top_of_moved d.root (fun _ => False) (fun x hx => hx.elim) ?_
      fun a _ ha => ha
    intro x _
    rw [parent_detach]
    split
    · exact .inr rfl
    · exact .inl rfl

end IsForest

/-- Unlinking puts nothing below anything. -/
theorem AtOrBelow.of_detach {id : NodeId} (h : (d.detach id).AtOrBelow x a) : d.AtOrBelow x a := by
  refine ReflTransGen.mono (fun y q hstep => ?_) _ _ h
  rw [HangsFrom, parent_detach] at hstep
  split at hstep
  · cases hstep
  · exact hstep

/-- Appending a node that has no parent only links it. -/
theorem appendChild_of_top (htop : d.parent? c = none) : d.appendChild p c = d.link p c := by
  rw [appendChild, detach, htop]

/-- A node other than the root is moved below a node that is not below it. -/
theorem IsForest.appendChild (h : d.IsForest) (hp : p < d.size) (hc : c < d.size)
    (hroot : c ≠ d.root) (hbelow : ¬ d.AtOrBelow p c) : (d.appendChild p c).IsForest := by
  refine (h.detach c).link ?_ ?_ ?_ ?_ ?_
  · simpa using hp
  · simpa using hc
  · rw [parent_detach, if_pos rfl]
  · simpa using hroot
  · exact fun hafter => hbelow hafter.of_detach

/-- A node other than the root may be put below the root. -/
theorem IsForest.appendChild_root (h : d.IsForest) (hc : c < d.size) (hroot : c ≠ d.root) :
    (d.appendChild d.root c).IsForest :=
  h.appendChild h.root_lt hc hroot fun hbelow => hroot (hbelow.eq_of_top h.parent_root)

end RouteCompiler.Route.Document
