import RouteCompiler.Proofs.Document.Unfolding

/-!
# Document order

A walk keeps a list of nodes that are still to be met, and knows nothing of the tree it is in.
It meets the elements in the order in which a recursion over child lists does, and in a forest
neither of them needs a bound.

Main definitions:

- `Document.Traverses`: the recursion over child lists, which passes over texts.
- `Document.Walks`: a walk with pending nodes, without any bound on its steps.
- `Document.BelowByElements`: where only elements stand on the way up.
- `Document.IsFirst`: the first of some nodes with a property.

Main results:

- Theorems `IsForest.traverses_iff` and `IsForest.walks_iff`: what both of them meet below a
  node of a forest is what is listed there.
- Theorem `IsForest.mem_descendants`: which nodes are listed below a node.
-/

namespace RouteCompiler.Route.Document

open Relation

variable {d : Document} {x y id : NodeId} {xs rest out behind : List NodeId} {t : Placed}
  {ts : List Placed} {above : Option NodeId}

/-! ## Two ways of going through a document -/

/-- Going through nodes one after the other: an element is met before what is below it, and that
before what is behind it; a text is passed over, with whatever is below it. -/
inductive Traverses (d : Document) : List NodeId → List NodeId → Prop
  | done : Traverses d [] []
  | element {x : NodeId} {rest below behind : List NodeId} (hx : d.isElement x = true)
      (hbelow : Traverses d (d.children x) below) (hbehind : Traverses d rest behind) :
      Traverses d (x :: rest) (x :: (below ++ behind))
  | text {x : NodeId} {rest behind : List NodeId} (hx : d.isElement x = false)
      (hbehind : Traverses d rest behind) : Traverses d (x :: rest) behind

/-- A walk with pending nodes: the children of an element are put in front of them. -/
inductive Walks (d : Document) : List NodeId → List NodeId → Prop
  | done : Walks d [] []
  | element {x : NodeId} {pending out : List NodeId} (hx : d.isElement x = true)
      (hrest : Walks d (d.children x ++ pending) out) : Walks d (x :: pending) (x :: out)
  | text {x : NodeId} {pending out : List NodeId} (hx : d.isElement x = false)
      (hrest : Walks d pending out) : Walks d (x :: pending) out

/-- A recursion over nodes meets the same elements in one way only. -/
theorem Traverses.unique {other : List NodeId} (h : d.Traverses xs out)
    (h' : d.Traverses xs other) : out = other := by
  induction h generalizing other with
  | done =>
      cases h'
      rfl
  | element hx _ _ ihbelow ihbehind =>
      cases h' with
      | element _ hbelow' hbehind' => rw [ihbelow hbelow', ihbehind hbehind']
      | text hx' _ => rw [hx] at hx'; cases hx'
  | text hx _ ihbehind =>
      cases h' with
      | element hx' _ _ => rw [hx] at hx'; cases hx'
      | text _ hbehind' => exact ihbehind hbehind'

theorem Walks.unique {other : List NodeId} (h : d.Walks xs out) (h' : d.Walks xs other) :
    out = other := by
  induction h generalizing other with
  | done =>
      cases h'
      rfl
  | element hx _ ih =>
      cases h' with
      | element _ hrest' => rw [ih hrest']
      | text hx' _ => rw [hx] at hx'; cases hx'
  | text hx _ ih =>
      cases h' with
      | element hx' _ => rw [hx] at hx'; cases hx'
      | text _ hrest' => exact ih hrest'

/-- What the recursion meets, a walk meets before the nodes that were pending. -/
theorem Traverses.walks (h : d.Traverses xs out) (hrest : d.Walks rest behind) :
    d.Walks (xs ++ rest) (out ++ behind) := by
  -- The nodes that are pending behind a child list are those behind its node, and the old ones.
  induction h generalizing rest behind with
  | done => exact hrest
  | element hx _ _ ihbelow ihbehind =>
      rw [List.cons_append, List.cons_append, List.append_assoc]
      exact .element hx (ihbelow (ihbehind hrest))
  | text hx _ ihbehind => exact .text hx (ihbehind hrest)

/-! ## What is met in a forest -/

/-- What goes through each of some trees, whatever comes behind it, goes through all of them. -/
theorem traverses_of_each (h : ∀ t ∈ ts, ∀ {rest behind : List NodeId}, d.Traverses rest behind →
      d.Traverses (t.id :: rest) (t.elements.map Prod.fst ++ behind)) :
    d.Traverses (ts.map Placed.id) ((ts.flatMap Placed.elements).map Prod.fst) := by
  induction ts with
  | nil => exact .done
  | cons t ts ih =>
      rw [List.map_cons, List.flatMap_cons, List.map_append]
      exact h t List.mem_cons_self (ih fun u hu => h u (List.mem_cons_of_mem t hu))

/-- The recursion goes through a stored tree, whatever comes behind it. -/
theorem Stores.traverses (h : d.Stores above t) (hrest : d.Traverses rest behind) :
    d.Traverses (t.id :: rest) (t.elements.map Prod.fst ++ behind) := by
  induction t generalizing above rest behind with
  | node id content children ih =>
      have hbelow : d.Traverses (d.children id)
          ((children.flatMap Placed.elements).map Prod.fst) := by
        rw [h.children]
        exact traverses_of_each fun u hu => ih u hu ((stores_node.mp h).2 u hu)
      cases content with
      | element name attributes =>
          have hx : d.isElement id = true := by
            simp [isElement, name?, h.content, Content.name?]
          rw [Placed.elements_element, List.map_cons, List.cons_append]
          exact .element hx hbelow hrest
      | text value =>
          have hx : d.isElement id = false := by
            simp [isElement, name?, h.content, Content.name?]
          rw [Placed.elements_text]
          exact .text hx hrest

/-- One step up to a node from an element. -/
def ElementHangsFrom (d : Document) (x p : NodeId) : Prop :=
  d.HangsFrom x p ∧ d.isElement x = true

/-- The first node is an element below the second one, and so are all nodes between them. -/
def BelowByElements (d : Document) : NodeId → NodeId → Prop :=
  TransGen d.ElementHangsFrom

namespace IsForest

/-- The recursion over the children of a node meets what is listed below the node. -/
theorem traverses (h : d.IsForest) (id : NodeId) :
    d.Traverses (d.children id) (d.descendants id) := by
  by_cases hid : id < d.size
  · obtain ⟨fs, content, cs, others, hplace⟩ := h.exists_place hid
    have hlist := hplace.descendants_plug
    have hchildren := hplace.children_plug
    rw [Placed.id_node, Placed.children_node] at hlist hchildren
    rw [hlist, hchildren]
    exact traverses_of_each fun u hu => ((stores_node.mp hplace.storesAt).2 u hu).traverses
  · have hnone := children_of_size_le (Nat.le_of_not_lt hid)
    rw [descendants, hnone]
    cases d.weightWithin d.size id <;> exact .done

/-- The recursion over the children of a node meets what is listed below the node, and nothing
else. -/
theorem traverses_iff (h : d.IsForest) (id : NodeId) :
    d.Traverses (d.children id) out ↔ out = d.descendants id := by
  constructor
  · exact fun hout => hout.unique (h.traverses id)
  · rintro rfl
    exact h.traverses id

/-- A walk from the children of a node ends, and meets what is listed below the node. -/
theorem walks_iff (h : d.IsForest) (id : NodeId) :
    d.Walks (d.children id) out ↔ out = d.descendants id := by
  have hwalk := (h.traverses id).walks .done
  rw [List.append_nil, List.append_nil] at hwalk
  constructor
  · exact fun hout => hout.unique hwalk
  · rintro rfl
    exact hwalk

/-- No node is listed twice below a node. -/
theorem nodup_descendants (h : d.IsForest) (id : NodeId) : (d.descendants id).Nodup := by
  by_cases hid : id < d.size
  · obtain ⟨fs, content, cs, others, hplace⟩ := h.exists_place hid
    have hlist := hplace.descendants_plug
    rw [Placed.id_node, Placed.children_node] at hlist
    have hids := (List.nodup_append.mp (List.nodup_append.mp hplace.nodup_plug).2.1).1
    rw [Placed.ids_node, List.nodup_cons] at hids
    have hsub : ((cs.flatMap Placed.elements).map Prod.fst).Sublist (cs.flatMap Placed.ids) := by
      simp only [List.map_flatMap]
      exact List.Sublist.flatMap_right _ fun u _ => u.elements_sublist.map Prod.fst
    rw [hlist]
    exact hids.2.sublist hsub
  · rw [descendants, children_of_size_le (Nat.le_of_not_lt hid)]
    cases d.weightWithin d.size id <;> exact List.nodup_nil

/-- What the recursion meets stands at or below one of its nodes. -/
theorem mem_of_traverses (h : d.IsForest) (hout : d.Traverses xs out) :
    y ∈ out ↔ ∃ x ∈ xs, d.isElement x = true ∧ ReflTransGen d.ElementHangsFrom y x := by
  induction hout with
  | done => simp
  | @element x rest below behind hx _ _ ihbelow ihbehind =>
      have htop : ReflTransGen d.ElementHangsFrom y x ↔ y = x ∨ y ∈ below := by
        rw [ReflTransGen.cases_tail_iff, ihbelow]
        refine or_congr eq_comm (exists_congr fun c => ?_)
        rw [ElementHangsFrom, HangsFrom, ← h.mem_children]
        tauto
      rw [List.mem_cons, List.mem_append, ihbehind, List.exists_mem_cons_iff, htop]
      tauto
  | text hx _ ihbehind =>
      rw [ihbehind, List.exists_mem_cons_iff]
      simp [hx]

/-- The elements listed below a node are those below it with only elements between. -/
theorem mem_descendants (h : d.IsForest) (id : NodeId) :
    y ∈ d.descendants id ↔ d.BelowByElements y id := by
  rw [h.mem_of_traverses (h.traverses id), BelowByElements, TransGen.tail'_iff]
  refine exists_congr fun c => ?_
  rw [ElementHangsFrom, HangsFrom, ← h.mem_children]
  tauto

/-- Where nothing is below a text, all elements below a node are listed. -/
theorem mem_descendants_of_texts (h : d.IsForest)
    (htexts : ∀ x, d.isElement x = false → d.children x = []) (id : NodeId) :
    y ∈ d.descendants id ↔ d.isElement y = true ∧ d.Below y id := by
  -- Whatever a node hangs from has a child, and so is an element.
  have helement : ∀ {x p}, d.HangsFrom x p → d.isElement p = true := by
    intro x p hstep
    cases hp : d.isElement p with
    | true => rfl
    | false =>
        have hmem := (h.mem_children p x).mpr hstep
        rw [htexts p hp] at hmem
        cases hmem
  rw [h.mem_descendants]
  constructor
  · intro hy
    obtain ⟨p, hstep, -⟩ := TransGen.head'_iff.mp hy
    exact ⟨hstep.2, TransGen.mono (fun _ _ hstep => hstep.1) _ _ hy⟩
  · rintro ⟨hy, hbelow⟩
    induction hbelow using TransGen.head_induction_on with
    | single hstep => exact .single ⟨hstep, hy⟩
    | head hstep _ ih => exact .head ⟨hstep, hy⟩ (ih (helement hstep))

end IsForest

/-! ## First matches -/

/-- A node is the first of some nodes with a property. -/
def IsFirst (xs : List NodeId) (P : NodeId → Prop) (x : NodeId) : Prop :=
  ∃ before behind, xs = before ++ x :: behind ∧ P x ∧ ∀ y ∈ before, ¬ P y

theorem find_eq_some_iff_isFirst {P : NodeId → Bool} :
    xs.find? P = some x ↔ IsFirst xs (P · = true) x := by
  rw [List.find?_eq_some_iff_append, IsFirst]
  simp only [Bool.not_eq_eq_eq_not, Bool.not_true, Bool.not_eq_true]
  constructor
  · rintro ⟨hx, before, behind, hxs, hbefore⟩
    exact ⟨before, behind, hxs, hx, hbefore⟩
  · rintro ⟨before, behind, hxs, hx, hbefore⟩
    exact ⟨hx, before, behind, hxs, hbefore⟩

end RouteCompiler.Route.Document
