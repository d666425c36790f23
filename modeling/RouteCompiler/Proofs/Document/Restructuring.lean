import RouteCompiler.Proofs.Document.Unfolding

/-!
# Restructuring a document

Putting nodes in the place of another one unlinks them first, which may shift the very child
list they are put into.  What comes out is an edit of lists all the same: nodes that move leave
the lists they are in, and the node they replace makes room for them where it stands.  A copy is
made node by node at the end of the arena, and leaves everything in front of it alone.

Main definitions:

- `Document.Replaces`: all that a replacement does to the links.
- `Document.Copies`: all that adding a copy does.

Main results:

- Theorems `IsForest.replaceWithMany` and `IsForest.replace`: where the new nodes are not above
  the place, a replacement keeps a forest.
- Theorem `IsForest.restructures`: both ways of replacing a node, and copying one, as edits of
  lists.
-/

namespace RouteCompiler.Route.Document

open Relation

variable {d d' other : Document} {x a p q r target id : NodeId} {rs left right : List NodeId}

/-! ## Unlinking and linking several nodes -/

section Several

variable (d : Document)

theorem parent_foldl_detach (rs : List NodeId) (x : NodeId) :
    (rs.foldl detach d).parent? x = if x ∈ rs then none else d.parent? x := by
  induction rs generalizing d with
  | nil => simp
  | cons r rs ih =>
      rw [List.foldl_cons, ih, parent_detach]
      by_cases hx : x = r
      · simp [hx]
      · simp [hx]

@[simp] theorem content_detach (id x : NodeId) : (d.detach id).content? x = d.content? x := by
  rw [detach]
  split
  · rfl
  · rw [content_modifyChildren, content_setParent]

theorem content_foldl_detach (rs : List NodeId) (x : NodeId) :
    (rs.foldl detach d).content? x = d.content? x := by
  induction rs generalizing d with
  | nil => rfl
  | cons r rs ih => rw [List.foldl_cons, ih, content_detach]

theorem parent_setParents (rs : List NodeId) (p x : NodeId) :
    (d.setParents rs p).parent? x = if x ∈ rs ∧ x < d.size then some p else d.parent? x := by
  rw [parent?, getElem_setParents]
  by_cases hx : x ∈ rs
  · by_cases hlt : x < d.nodes.size
    · simp [hx, hlt, size]
    · simp [hx, hlt, size, parent?]
  · simp [hx, parent?]

@[simp] theorem children_setParents (rs : List NodeId) (p x : NodeId) :
    (d.setParents rs p).children x = d.children x := by
  rw [children, getElem_setParents]
  split
  · cases hx : d.nodes[x]? <;> simp [children, hx]
  · rfl

@[simp] theorem content_setParents (rs : List NodeId) (p x : NodeId) :
    (d.setParents rs p).content? x = d.content? x := by
  rw [content?, getElem_setParents]
  split
  · cases hx : d.nodes[x]? <;> simp [content?, hx]
  · rfl

theorem parent_spliceAt (p target : NodeId) (rs : List NodeId) (x : NodeId) :
    (d.spliceAt p target rs).parent? x =
      if x ∈ rs ∧ x < d.size then some p
      else if x = target ∧ x < d.size then none else d.parent? x := by
  have hsize : (d.modifyChildren p (splice target rs)).size = d.size := size_modifyNode ..
  rw [spliceAt, parent_setParents, size_setParent, parent_setParent, parent_modifyChildren, hsize]

theorem children_spliceAt (p target : NodeId) (rs : List NodeId) (x : NodeId) :
    (d.spliceAt p target rs).children x =
      if x = p ∧ x < d.size then splice target rs (d.children x) else d.children x := by
  rw [spliceAt, children_setParents, children_setParent, children_modifyChildren]

theorem content_spliceAt (p target : NodeId) (rs : List NodeId) (x : NodeId) :
    (d.spliceAt p target rs).content? x = d.content? x := by
  rw [spliceAt, content_setParents, content_setParent, content_modifyChildren]

end Several

/-- Where an address occurs once, splicing replaces it wherever it is. -/
theorem splice_eq_flatMap {l : List NodeId} (h : l.Nodup) (target : NodeId) (rs : List NodeId) :
    splice target rs l = l.flatMap fun c => if c = target then rs else [c] := by
  induction l with
  | nil => rfl
  | cons c cs ih =>
      obtain ⟨hc, hcs⟩ := List.nodup_cons.mp h
      rw [splice, List.flatMap_cons]
      split
      · next heq =>
        have hrest : (cs.flatMap fun c => if c = target then rs else [c]) = cs := by
          have hone : ∀ y ∈ cs, (if y = target then rs else [y]) = [y] := by
            intro y hy
            refine if_neg ?_
            rintro rfl
            exact hc (heq ▸ hy)
          rw [List.flatMap_congr hone, List.flatMap_singleton']
        rw [hrest]
      · rw [ih hcs, List.singleton_append]

namespace IsForest

theorem foldl_detach (h : d.IsForest) (rs : List NodeId) :
    (rs.foldl Document.detach d).IsForest := by
  induction rs generalizing d with
  | nil => exact h
  | cons r rs ih => exact ih (h.detach r)

/-- Unlinked nodes are in no child list; nothing else leaves one. -/
theorem children_foldl_detach (h : d.IsForest) (rs : List NodeId) (q : NodeId) :
    (rs.foldl Document.detach d).children q = (d.children q).filter (· ∉ rs) := by
  induction rs generalizing d with
  | nil => simp
  | cons r rs ih =>
      rw [List.foldl_cons, ih (h.detach r), h.children_detach, List.filter_filter]
      refine List.filter_congr fun c _ => ?_
      by_cases hc : c = r
      · simp [hc]
      · simp [hc, bne_iff_ne.mpr hc]

/-! ## Replacing a node -/

/-- Below a forest's nodes a replacement unlinks the new nodes and puts them in. -/
theorem replaceWithMany_eq (h : d.IsForest) (hp : d.parent? target = some p) (ht : target ∉ rs) :
    d.replaceWithMany target rs = (rs.foldl Document.detach d).spliceAt p target rs := by
  have hmem : target ∈ (rs.foldl Document.detach d).children p := by
    rw [h.children_foldl_detach, List.mem_filter, h.mem_children]
    exact ⟨hp, decide_eq_true ht⟩
  rw [Document.replaceWithMany, hp]
  exact if_pos hmem

/-- Putting one node in the place of another one is the same for both ways of doing it. -/
theorem replace_eq_replaceWithMany (h : d.IsForest) (hr : r ≠ target) :
    d.replace target r = d.replaceWithMany target [r] := by
  cases hp : d.parent? target with
  | none => rw [Document.replace, Document.replaceWithMany, hp]
  | some p =>
      rw [h.replaceWithMany_eq hp (by simpa using hr.symm), Document.replace, hp]
      rfl

end IsForest

/-- All that putting nodes in the place of another one, which hangs from `p`, does to a
document. -/
structure Replaces (before after : Document) (target p : NodeId) (rs : List NodeId) : Prop where
  /-- The new nodes stand, in order, where the other one stood; they are nowhere else in the
  list. -/
  children_parent : after.children p =
    ((before.children p).filter (· ∉ rs)).flatMap fun c => if c = target then rs else [c]
  /-- The new nodes leave other lists, and nothing else happens to these. -/
  children_other : ∀ q, q ≠ p → after.children q = (before.children q).filter (· ∉ rs)
  parent_target : after.parent? target = none
  parent_new : ∀ r ∈ rs, after.parent? r = some p
  parent_other : ∀ x, x ≠ target → x ∉ rs → after.parent? x = before.parent? x
  content : ∀ x, after.content? x = before.content? x
  size : after.size = before.size
  root : after.root = before.root

namespace IsForest

theorem replaces (h : d.IsForest) (hp : d.parent? target = some p) (ht : target ∉ rs)
    (hrs : ∀ r ∈ rs, r < d.size) : Replaces d (d.replaceWithMany target rs) target p rs := by
  have heq := h.replaceWithMany_eq hp ht
  have hplt : p < d.size := h.parent_lt target p hp
  have htlt : target < d.size := HangsFrom.lt_size hp
  refine ⟨?_, ?_, ?_, ?_, ?_, ?_, size_replaceWithMany d target rs,
    root_replaceWithMany d target rs⟩
  · have hnodup := ((h.foldl_detach rs).nodup_children p)
    rw [heq, children_spliceAt, if_pos ⟨rfl, by rwa [size_foldl_detach]⟩,
      splice_eq_flatMap hnodup, h.children_foldl_detach]
  · intro q hq
    rw [heq, children_spliceAt, if_neg (fun hboth => hq hboth.1), h.children_foldl_detach]
  · rw [heq, parent_spliceAt, if_neg (fun hboth => ht hboth.1), if_pos]
    exact ⟨rfl, by rwa [size_foldl_detach]⟩
  · intro r hr
    rw [heq, parent_spliceAt, if_pos]
    exact ⟨hr, by rw [size_foldl_detach]; exact hrs r hr⟩
  · intro x hxt hx
    rw [heq, parent_spliceAt, if_neg (fun hboth => hx hboth.1), if_neg (fun hboth => hxt hboth.1),
      parent_foldl_detach, if_neg hx]
  · intro x
    rw [heq, content_spliceAt, content_foldl_detach]

end IsForest

/-- What is in the list from which the other node was taken. -/
theorem Replaces.mem_children_parent (h : Replaces d d' target p rs) (hd : d.IsForest)
    (hp : d.parent? target = some p) (ht : target ∉ rs) :
    x ∈ d'.children p ↔ x ∈ rs ∨ (x ≠ target ∧ x ∉ rs ∧ d.parent? x = some p) := by
  have htmem := (hd.mem_children p target).mpr hp
  rw [h.children_parent, List.mem_flatMap]
  constructor
  · rintro ⟨c, hc, hx⟩
    obtain ⟨hc, hcrs⟩ := List.mem_filter.mp hc
    split at hx
    · exact .inl hx
    · next hct =>
      obtain rfl := List.mem_singleton.mp hx
      exact .inr ⟨hct, of_decide_eq_true hcrs, (hd.mem_children p x).mp hc⟩
  · rintro (hx | ⟨hxt, hxrs, hx⟩)
    · exact ⟨target, List.mem_filter.mpr ⟨htmem, decide_eq_true ht⟩, by rwa [if_pos rfl]⟩
    · refine ⟨x, List.mem_filter.mpr ⟨(hd.mem_children p x).mpr hx, decide_eq_true hxrs⟩, ?_⟩
      rw [if_neg hxt]
      exact List.mem_singleton_self x

theorem Replaces.parent_eq (h : Replaces d d' target p rs) (x : NodeId) :
    d'.parent? x = if x ∈ rs then some p else if x = target then none else d.parent? x := by
  split
  · next hx => exact h.parent_new x hx
  · next hx =>
    split
    · next hxt => rw [hxt, h.parent_target]
    · next hxt => exact h.parent_other x hxt hx

/-- After a replacement child lists and parent links agree again. -/
theorem Replaces.mem_children (h : Replaces d d' target p rs) (hd : d.IsForest)
    (hp : d.parent? target = some p) (ht : target ∉ rs) (q c : NodeId) :
    c ∈ d'.children q ↔ d'.parent? c = some q := by
  rw [h.parent_eq]
  by_cases hq : q = p
  · subst hq
    rw [h.mem_children_parent hd hp ht]
    split_ifs with hc hct
    · simp [hc]
    · simp [hct, ht]
    · simp [hc, hct]
  · rw [h.children_other q hq, List.mem_filter, hd.mem_children]
    split_ifs with hc hct
    · simp [hc, Ne.symm hq]
    · simp [hct, hp, Ne.symm hq]
    · simp [hc]

/-- Distinct new nodes are listed once, since they have left the list before they are put in. -/
theorem Replaces.nodup_children (h : Replaces d d' target p rs) (hd : d.IsForest)
    (hnodup : rs.Nodup) (q : NodeId) : (d'.children q).Nodup := by
  by_cases hq : q = p
  · subst hq
    rw [h.children_parent]
    refine List.nodup_flatMap.mpr ⟨?_, ?_⟩
    · intro c _
      split
      · exact hnodup
      · exact List.nodup_singleton c
    · refine ((hd.nodup_children q).filter _).imp_of_mem fun {a b} ha hb hab => ?_
      have hars := of_decide_eq_true (List.mem_filter.mp ha).2
      have hbrs := of_decide_eq_true (List.mem_filter.mp hb).2
      simp only [Function.onFun]
      split_ifs with hat hbt hbt
      · exact absurd (hat.trans hbt.symm) hab
      · exact List.disjoint_singleton.mpr hbrs
      · exact List.singleton_disjoint.mpr hars
      · exact List.disjoint_singleton.mpr (by simpa using hab.symm)
  · rw [h.children_other q hq]
    exact (hd.nodup_children q).filter _

/-- Above a node that is below none of the new nodes, a replacement adds nothing. -/
theorem Replaces.atOrBelow_of (h : Replaces d d' target p rs)
    (hfree : ∀ r ∈ rs, ¬ d.AtOrBelow x r) (ha : d'.AtOrBelow x a) : d.AtOrBelow x a := by
  induction ha using ReflTransGen.head_induction_on with
  | refl => exact .refl
  | @head y z hstep _ ih =>
      have hy : y ∉ rs := fun hmem => hfree y hmem .refl
      have hne : y ≠ target := by
        rintro rfl
        rw [HangsFrom, h.parent_target] at hstep
        cases hstep
      rw [HangsFrom, h.parent_other y hne hy] at hstep
      exact .head hstep (ih fun r hr hz => hfree r hr (.head hstep hz))

namespace IsForest

/-- Where none of the new nodes is the replaced one or above it, a replacement keeps a forest. -/
theorem replaceWithMany (h : d.IsForest) (hrs : ∀ r ∈ rs, r < d.size) (hnodup : rs.Nodup)
    (hroot : d.root ∉ rs) (habove : ∀ r ∈ rs, ¬ d.AtOrBelow target r) :
    (d.replaceWithMany target rs).IsForest := by
  cases hp : d.parent? target with
  | none =>
      rw [Document.replaceWithMany, hp]
      exact h
  | some p =>
      have ht : target ∉ rs := fun hmem => habove target hmem .refl
      have hnew := h.replaces hp ht hrs
      refine of_links ?_ ?_ (hnew.mem_children h hp ht) (hnew.nodup_children h hnodup) ?_
      · rw [hnew.root, hnew.size]
        exact h.root_lt
      · have hne : d.root ≠ target := by
          rintro heq
          rw [← heq, h.parent_root] at hp
          cases hp
        rw [hnew.root, hnew.parent_other d.root hne hroot, h.parent_root]
      · refine h.reaches_top_of_moved p (· ∈ rs) hnew.parent_new ?_ ?_
        · intro x hx
          by_cases hxt : x = target
          · exact .inr (hxt ▸ hnew.parent_target)
          · exact .inl (hnew.parent_other x hxt hx)
        · exact fun a ha hmem => habove a hmem (.head hp ha)

/-- Where the new node is not the replaced one or above it, a replacement keeps a forest. -/
theorem replace (h : d.IsForest) (hr : r < d.size) (hroot : r ≠ d.root)
    (habove : ¬ d.AtOrBelow target r) : (d.replace target r).IsForest := by
  have hne : r ≠ target := fun heq => habove (heq ▸ .refl)
  rw [h.replace_eq_replaceWithMany hne]
  refine h.replaceWithMany ?_ (List.nodup_singleton r) ?_ ?_
  · simpa using hr
  · simpa using hroot.symm
  · simpa using habove

end IsForest

/-! ## Copies -/

/-- All that adding a copy of a node does: what is read off below the copy and below the node
is the same tree, and the copy consists of the places that were added. -/
structure Copies (before after other : Document) (id copy : NodeId) : Prop where
  detached : after.parent? copy = none
  isomorphic : ∃ t, other.Unfolds id t ∧ after.Unfolds copy t
  unchanged : ∀ x, x < before.size → after.nodes[x]? = before.nodes[x]?
  added : ∀ x, x < after.size → (after.AtOrBelow x copy ↔ before.size ≤ x)
  root : after.root = before.root
  isForest : after.IsForest

/-- Where trees are added to a forest, its own nodes stay as they are. -/
theorem Shows.unchanged_of_subset {ts ts' : List Placed} (h : d.Shows ts) (h' : d'.Shows ts')
    (hsub : ts ⊆ ts') (hx : x < d.size) : d'.nodes[x]? = d.nodes[x]? := by
  obtain ⟨t, ht, hxt⟩ := List.mem_flatMap.mp (h.placed.mem_iff.mpr (List.mem_range.mpr hx))
  rw [← Placed.entries_map_fst none] at hxt
  obtain ⟨e, he, rfl⟩ := List.mem_map.mp hxt
  rw [h.stored t ht e he, h'.stored t (hsub ht) e he]

theorem size_lt_size_graft (d : Document) (t : Tree) : d.size < (d.graft t).1.size := by
  cases t
  rw [size_graft, Tree.contents, List.length_cons]
  omega

namespace IsForest

/-- A copy of a tree is made of new places. -/
theorem unchanged_graft (h : d.IsForest) (t : Tree) (hx : x < d.size) :
    (d.graft t).1.nodes[x]? = d.nodes[x]? := by
  obtain ⟨ts, hts⟩ := h.exists_shows
  exact hts.unchanged_of_subset (hts.graft t) (List.subset_cons_self _ ts) hx

theorem parent_graft (h : d.IsForest) (t : Tree) (hx : x < d.size) :
    (d.graft t).1.parent? x = d.parent? x := by
  rw [parent?, h.unchanged_graft t hx, parent?]

theorem parent_graft_top (h : d.IsForest) (t : Tree) : (d.graft t).1.parent? d.size = none := by
  obtain ⟨ts, hts⟩ := h.exists_shows
  have htop := (hts.graft t).stored _ List.mem_cons_self
  rw [← Placed.eta (.number _ _), Placed.id_number] at htop
  exact htop.parent

/-- No node that was there before is in a copy. -/
theorem not_atOrBelow_graft (h : d.IsForest) (t : Tree) (hx : x < d.size) :
    ¬ (d.graft t).1.AtOrBelow x d.size :=
  fun hbelow => Nat.lt_irrefl d.size
    (h.lt_size_of_atOrBelow (fun _ hy => h.parent_graft t hy) hx hbelow)

theorem graft (h : d.IsForest) (t : Tree) : (d.graft t).1.IsForest := by
  obtain ⟨ts, hts, u, hu, hroot⟩ := isForest_iff_shows.mp h
  exact (hts.graft t).isForest ⟨u, List.mem_cons_of_mem _ hu, by rw [root_graft, hroot]⟩

theorem copies (h : d.IsForest) (hother : other.IsForest) (hid : id < other.size) :
    Copies d (d.copyFrom other id).1 other id (d.copyFrom other id).2 := by
  obtain ⟨ts, hts⟩ := h.exists_shows
  have hcopy := hts.graft (other.tree id)
  have htop := hcopy.stored _ List.mem_cons_self
  rw [copyFrom, id_graft]
  refine ⟨h.parent_graft_top _, ⟨other.tree id, hother.unfolds hid, ?_⟩,
    fun x hx => h.unchanged_graft _ hx, fun x hx => ⟨fun hbelow => ?_, fun hle => ?_⟩,
    root_graft d _, h.graft _⟩
  · have hunfolds := htop.unfolds
    rwa [Placed.id_number, Placed.toTree_number] at hunfolds
  · exact Nat.le_of_not_lt fun hlt => h.not_atOrBelow_graft _ hlt hbelow
  · have hmem := hcopy.placed.mem_iff.mpr (List.mem_range.mpr hx)
    rw [List.flatMap_cons, List.mem_append] at hmem
    rcases hmem with hnew | hold
    · have hbelow := htop.atOrBelow x hnew
      rwa [Placed.id_number] at hbelow
    · obtain ⟨t, ht, hxt⟩ := List.mem_flatMap.mp hold
      exact absurd (hts.lt_size ht hxt) (Nat.not_lt.mpr hle)

/-! ## Putting copies to use -/

/-- A copy is added below a node. -/
theorem link_graft (h : d.IsForest) (hp : p < d.size) (t : Tree) :
    ((d.graft t).1.link p d.size).IsForest := by
  have hsize := size_lt_size_graft d t
  refine (h.graft t).link (Nat.lt_trans hp hsize) hsize (h.parent_graft_top t) ?_
    (h.not_atOrBelow_graft t hp)
  rw [root_graft]
  exact (Nat.ne_of_lt h.root_lt).symm

/-- Appending a copy to a node links it there. -/
theorem appendChild_graft_eq (h : d.IsForest) (p : NodeId) (t : Tree) :
    (d.graft t).1.appendChild p d.size = (d.graft t).1.link p d.size :=
  appendChild_of_top (h.parent_graft_top t)

/-- A copy is put in the place of a node. -/
theorem replace_graft (h : d.IsForest) (htarget : target < d.size) (t : Tree) :
    ((d.graft t).1.replace target d.size).IsForest := by
  refine (h.graft t).replace (size_lt_size_graft d t) ?_ (h.not_atOrBelow_graft t htarget)
  rw [root_graft]
  exact (Nat.ne_of_lt h.root_lt).symm

/-- A node that a copy has replaced is not above the copy. -/
theorem not_atOrBelow_replace_graft (h : d.IsForest) (htarget : target < d.size) (t : Tree) :
    ¬ ((d.graft t).1.replace target d.size).AtOrBelow d.size target := by
  have hne : d.size ≠ target := (Nat.ne_of_lt htarget).symm
  have hgraft := h.graft t
  intro habove
  cases hp : (d.graft t).1.parent? target with
  | none =>
      rw [Document.replace, hp] at habove
      exact hne (habove.eq_of_top (h.parent_graft_top t)).symm
  | some p =>
      have hplt : p < d.size := h.parent_lt target p (by rw [← hp, h.parent_graft t htarget])
      rw [hgraft.replace_eq_replaceWithMany hne] at habove
      have hreplaces : Replaces _ _ target p [d.size] :=
        hgraft.replaces hp (by simpa using hne.symm) (by simpa using size_lt_size_graft d t)
      rcases ReflTransGen.cases_head habove with heq | ⟨q, hstep, hrest⟩
      · exact hne heq
      · obtain rfl := hstep.unique (hreplaces.parent_new d.size (List.mem_singleton_self _))
        have hold := hreplaces.atOrBelow_of (by simpa using h.not_atOrBelow_graft t hplt) hrest
        exact hgraft.not_atOrBelow_of_hangsFrom hp hold

/-! ## All edits together -/

/-- Where a node of a forest hangs from another one, putting distinct nodes in its place, none of
which is the node itself or above it, is an edit of lists, and keeps a forest unless the root is
moved; putting one node there is the same in both ways; and a copy of a node of a forest is a new
tree beside what was there. -/
theorem restructures (h : d.IsForest) (hp : d.parent? target = some p) :
    (∀ rs : List NodeId, rs.Nodup → (∀ r ∈ rs, r < d.size) → (∀ r ∈ rs, ¬ d.AtOrBelow target r) →
      Replaces d (d.replaceWithMany target rs) target p rs ∧
        (d.root ∉ rs → (d.replaceWithMany target rs).IsForest)) ∧
    (∀ r, ¬ d.AtOrBelow target r → d.replace target r = d.replaceWithMany target [r]) ∧
    (∀ other : Document, other.IsForest → ∀ id, id < other.size →
      Copies d (d.copyFrom other id).1 other id (d.copyFrom other id).2) := by
  refine ⟨?_, ?_, fun other hother id hid => h.copies hother hid⟩
  · intro rs hnodup hrs habove
    refine ⟨h.replaces hp (fun hmem => habove target hmem .refl) hrs, fun hroot => ?_⟩
    exact h.replaceWithMany hrs hnodup hroot habove
  · intro r hr
    exact h.replace_eq_replaceWithMany fun heq => hr (heq ▸ .refl)

end IsForest

/-- A route with three actions. -/
def threeActions : Document :=
  ["a", "b", "c"].foldl (fun d name => (d.createElement name).1.link 0 d.size) (ofRootName "route")

theorem isForest_threeActions : threeActions.IsForest :=
  (((IsForest.ofRootName "route").push_link _ (by decide)).push_link _ (by decide)).push_link _
    (by decide)

/-- Putting the first action in the place of the last one: unlinking it shifts the place. -/
theorem restructures_earlier_sibling :
    threeActions.parent? 3 = some 0 ∧ ¬ threeActions.AtOrBelow 3 1 ∧
      (threeActions.replaceWithMany 3 [1]).children 0 = [2, 1] ∧
      (threeActions.replaceWithMany 3 [1]).parent? 3 = none ∧
      threeActions.replace 3 1 = threeActions.replaceWithMany 3 [1] ∧
      (threeActions.copyFrom threeActions 0).1.parent? 4 = none := by
  have hp : threeActions.parent? 3 = some 0 := by decide
  have hfree : ¬ threeActions.AtOrBelow 3 1 := by
    intro habove
    rcases ReflTransGen.cases_head habove with heq | ⟨y, hstep, hrest⟩
    · cases heq
    · obtain rfl : y = 0 := HangsFrom.unique hstep hp
      cases AtOrBelow.eq_of_top hrest (by decide)
  obtain ⟨hmany, hone, hcopy⟩ := isForest_threeActions.restructures hp
  obtain ⟨hlists, -⟩ := hmany [1] (by decide) (by decide) (by simpa using hfree)
  refine ⟨hp, hfree, ?_, hlists.parent_target, hone 1 hfree, ?_⟩
  · rw [hlists.children_parent]
    decide
  · exact (hcopy _ isForest_threeActions 0 (by decide)).detached

end RouteCompiler.Route.Document
