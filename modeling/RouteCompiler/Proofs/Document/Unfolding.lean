import RouteCompiler.Proofs.Document.Links
import RouteCompiler.Proofs.Document.Walk

/-!
# Unfolding a document

Links form a forest exactly where the arena is the storage of trees.  So whatever follows child
lists downwards ends: the links below a node unfold to a tree, and the depth to which a tree is
read off never cuts it short.

Main definitions:

- `Document.Unfolds`: what following child lists from a node shows, without any bound.

Main results:

- Theorem `isForest_iff_shows`: the links of a document form a forest exactly if it shows trees,
  one of them with the root at its top.
- Theorem `IsForest.unfolds_iff`: a node of a forest unfolds to the tree that is read off there,
  and to no other.
-/

namespace RouteCompiler.Route.Document

open Relation

variable {d d' : Document} {x p c : NodeId} {t : Placed} {ts others : List Placed}
  {fs : List Frame} {s : Placed} {above : Option NodeId}

/-! ## From trees to links -/

/-- Below the top of a stored tree stand its nodes. -/
theorem Stores.atOrBelow (h : d.Stores above t) : ∀ x ∈ t.ids, d.AtOrBelow x t.id := by
  induction t generalizing above with
  | node id content children ih =>
      obtain ⟨-, hbelow⟩ := stores_node.mp h
      intro x hx
      rw [Placed.ids_node, List.mem_cons] at hx
      rcases hx with rfl | hx
      · exact .refl
      · obtain ⟨u, hu, hxu⟩ := List.mem_flatMap.mp hx
        have hu' := hbelow u hu
        have hstep : d.HangsFrom u.id id := by
          rw [← u.eta] at hu'
          exact hu'.parent
        exact .tail (ih u hu (hbelow u hu) x hxu) hstep

namespace Shows

theorem parent_plug (h : d.Shows (plug fs s :: others)) : d.parent? s.id = holder? fs := by
  have hstored := h.storesAt
  rw [← s.eta] at hstored
  exact hstored.parent

theorem children_plug (h : d.Shows (plug fs s :: others)) :
    d.children s.id = s.children.map Placed.id := by
  have hstored := h.storesAt
  rw [← s.eta] at hstored
  exact hstored.children

/-- Every node stands at a place in one of the trees. -/
theorem exists_place (h : d.Shows ts) (hx : x < d.size) :
    ∃ fs content cs others, d.Shows (plug fs (.node x content cs) :: others) := by
  obtain ⟨fs, content, cs, others, hperm⟩ := h.exists_plug hx
  exact ⟨fs, content, cs, others, h.perm hperm⟩

/-- Every node that has no parent is at the top of a tree. -/
theorem mem_tops (h : d.Shows ts) (hx : x < d.size) (htop : d.parent? x = none) :
    ∃ t ∈ ts, t.id = x := by
  obtain ⟨fs, content, cs, others, hperm⟩ := h.exists_plug hx
  have hplace := h.perm hperm
  cases fs with
  | nil => exact ⟨.node x content cs, hperm.mem_iff.mpr List.mem_cons_self, rfl⟩
  | cons f fs =>
      have hparent := hplace.parent_plug
      rw [Placed.id_node, htop] at hparent
      cases hparent

/-- From a place the top of its tree is reached. -/
theorem reaches_top_plug (h : d.Shows (plug fs s :: others)) :
    ∃ top, d.AtOrBelow s.id top ∧ d.parent? top = none := by
  induction fs generalizing s with
  | nil => exact ⟨s.id, .refl, h.parent_plug⟩
  | cons f fs ih =>
      have habove : d.Shows (plug fs (f.fill [s]) :: others) := h
      obtain ⟨top, hreaches, htop⟩ := ih habove
      exact ⟨top, .head h.parent_plug hreaches, htop⟩

theorem mem_children_iff (h : d.Shows ts) : c ∈ d.children p ↔ d.parent? c = some p := by
  constructor
  · intro hc
    obtain ⟨fs, content, cs, others, hplace⟩ := h.exists_place (lt_size_of_mem_children hc)
    have hchildren := hplace.children_plug
    rw [Placed.id_node, Placed.children_node] at hchildren
    rw [hchildren] at hc
    obtain ⟨u, hu, rfl⟩ := List.mem_map.mp hc
    have hstored := (stores_node.mp hplace.storesAt).2 u hu
    rw [← u.eta] at hstored
    exact hstored.parent
  · intro hparent
    obtain ⟨fs, content, cs, others, hplace⟩ := h.exists_place (HangsFrom.lt_size hparent)
    have hholder := hplace.parent_plug
    rw [Placed.id_node, hparent] at hholder
    cases fs with
    | nil => cases hholder
    | cons f fs =>
        have habove : d.Shows (plug fs (f.fill [.node c content cs]) :: others) := hplace
        have hchildren := habove.children_plug
        obtain rfl : p = f.id := Option.some.inj hholder
        have hfill : (f.fill [.node c content cs]).id = f.id := rfl
        rw [hfill] at hchildren
        simp [hchildren, Frame.fill]

/-- What is the storage of trees has links that form a forest. -/
theorem isForest (h : d.Shows ts) (hroot : ∃ t ∈ ts, t.id = d.root) : d.IsForest := by
  obtain ⟨t, ht, hid⟩ := hroot
  have hlt : d.root < d.size := h.lt_size ht (hid ▸ t.id_mem_ids)
  refine .of_links hlt ?_ (fun p c => h.mem_children_iff) ?_ ?_
  · rw [← hid]
    have hstored := h.stored t ht
    rw [← t.eta] at hstored
    exact hstored.parent
  · intro p
    by_cases hp : p < d.size
    · obtain ⟨fs, content, cs, others, hplace⟩ := h.exists_place hp
      have hchildren := hplace.children_plug
      rw [Placed.id_node, Placed.children_node] at hchildren
      rw [hchildren]
      exact hplace.nodup_children
    · rw [children_of_size_le (Nat.le_of_not_lt hp)]
      exact List.nodup_nil
  · intro x
    by_cases hx : x < d.size
    · obtain ⟨fs, content, cs, others, hplace⟩ := h.exists_place hx
      exact hplace.reaches_top_plug
    · refine ⟨x, .refl, ?_⟩
      rw [parent?, Array.getElem?_eq_none (Nat.le_of_not_lt hx)]
      rfl

end Shows

/-! ## From links to trees -/

/-- A document is known by what is read from it. -/
theorem ext_of_reads (hroot : d.root = d'.root) (hcontent : ∀ x, d.content? x = d'.content? x)
    (hparent : ∀ x, d.parent? x = d'.parent? x) (hchildren : ∀ x, d.children x = d'.children x) :
    d = d' := by
  have hnodes : d.nodes = d'.nodes := by
    refine Array.ext_getElem? fun x => ?_
    have hc := hcontent x
    have hp := hparent x
    have hs := hchildren x
    simp only [content?, parent?, children] at hc hp hs
    cases hn : d.nodes[x]? with
    | none =>
        rw [hn, Option.map_none] at hc
        exact (Option.map_eq_none_iff.mp hc.symm).symm
    | some n =>
        rw [hn, Option.map_some] at hc
        obtain ⟨n', hn', heq⟩ := Option.map_eq_some_iff.mp hc.symm
        rw [hn, hn'] at hp hs
        rw [hn']
        cases n
        cases n'
        simp_all
  cases d
  cases d'
  simp_all

namespace IsForest

/-- Unlinking the last child of a node can be undone. -/
theorem link_detach (h : d.IsForest) {front : List NodeId}
    (hchildren : d.children p = front ++ [c]) : (d.detach c).link p c = d := by
  have hstep : d.parent? c = some p := (h.mem_children p c).mp (by simp [hchildren])
  have hc : c < d.size := HangsFrom.lt_size hstep
  have hp : p < d.size := h.parent_lt c p hstep
  have hnodup := h.nodup_children p
  rw [hchildren, List.nodup_append] at hnodup
  have hfront : front.filter (· != c) = front := by
    rw [List.filter_eq_self]
    exact fun x hx => bne_iff_ne.mpr (hnodup.2.2 x hx c (List.mem_singleton_self c))
  refine ext_of_reads ?_ ?_ ?_ ?_
  · rw [root_link, root_detach]
  · intro x
    rw [Document.link, content_modifyChildren, content_setParent, Document.detach, hstep]
    simp
  · intro x
    rw [parent_link, parent_detach, size_detach]
    by_cases hx : x = c
    · simp [hx, hc, hstep]
    · simp [hx]
  · intro x
    rw [children_link, h.children_detach, size_detach]
    by_cases hx : x = p
    · subst hx
      simp [hp, hchildren, hfront]
    · rw [if_neg (by simp [hx]), List.filter_eq_self]
      intro y hy
      refine bne_iff_ne.mpr ?_
      rintro rfl
      rw [h.mem_children, hstep, Option.some.injEq] at hy
      exact hx hy.symm

/-- The nodes that hang from some other node. -/
def attached (d : Document) : List NodeId :=
  (List.range d.size).filter fun x => (d.parent? x).isSome

theorem attached_detach_lt (hc : d.parent? c = some p) :
    (attached (d.detach c)).length < (attached d).length := by
  rw [attached, attached, size_detach, ← List.countP_eq_length_filter,
    ← List.countP_eq_length_filter]
  have hmem : c ∈ List.range d.size := List.mem_range.mpr (HangsFrom.lt_size hc)
  obtain ⟨before, behind, hsplit⟩ := List.append_of_mem hmem
  have hle : ∀ l : List NodeId, l.countP (fun x => ((d.detach c).parent? x).isSome) ≤
      l.countP fun x => (d.parent? x).isSome := by
    intro l
    refine List.countP_mono_left fun x _ hx => ?_
    rw [parent_detach] at hx
    split at hx
    · cases hx
    · exact hx
  have hbefore := hle before
  have hbehind := hle behind
  simp only [hsplit, List.countP_append, List.countP_cons, parent_detach, hc, if_pos,
    Option.isSome_none, Option.isSome_some]
  simp only [parent_detach] at hbefore hbehind
  simp only [Bool.false_eq_true, if_false]
  omega

/-- Where nothing hangs from anything, every node is a tree. -/
theorem shows_of_tops (h : d.IsForest) (htops : ∀ x, d.parent? x = none) :
    d.Shows ((List.range d.size).map fun x => .node x ((d.content? x).getD (.text "")) []) := by
  constructor
  · intro t ht
    obtain ⟨x, hx, rfl⟩ := List.mem_map.mp ht
    refine stores_node.mpr ⟨?_, by simp⟩
    have hchildren : d.children x = [] := by
      refine List.eq_nil_iff_forall_not_mem.mpr fun c hc => ?_
      rw [h.mem_children, htops] at hc
      cases hc
    have hparent := htops x
    obtain ⟨n, hn⟩ : ∃ n, d.nodes[x]? = some n :=
      ⟨_, Array.getElem?_eq_getElem (List.mem_range.mp hx)⟩
    rw [children, hn] at hchildren
    rw [parent?, hn] at hparent
    rw [content?, hn]
    cases n
    simp_all
  · rw [List.flatMap_map]
    simp

/-- What has links that form a forest is the storage of trees. -/
theorem exists_shows (h : d.IsForest) : ∃ ts, d.Shows ts := by
  -- The last child of some node is unlinked, and linked again where it was.
  generalize hn : (attached d).length = n
  induction n using Nat.strongRecOn generalizing d with
  | _ n ih =>
      by_cases htops : ∀ x, d.parent? x = none
      · exact ⟨_, h.shows_of_tops htops⟩
      · obtain ⟨x, hx⟩ := not_forall.mp htops
        obtain ⟨p, hp⟩ := Option.ne_none_iff_exists'.mp hx
        have hne : d.children p ≠ [] := List.ne_nil_of_mem ((h.mem_children p x).mpr hp)
        obtain ⟨front, c, hchildren⟩ : ∃ front c, d.children p = front ++ [c] :=
          ⟨_, _, (List.dropLast_append_getLast hne).symm⟩
        have hstep : d.HangsFrom c p := (h.mem_children p c).mp (by simp [hchildren])
        obtain ⟨ts, hts⟩ := ih _ (hn ▸ attached_detach_lt hstep) (h.detach c) rfl
        have hplt : p < (d.detach c).size := by
          rw [size_detach]
          exact h.parent_lt c p hstep
        have hclt : c < (d.detach c).size := by
          rw [size_detach]
          exact hstep.lt_size
        obtain ⟨fs, content, cs, others, hplace⟩ := hts.exists_place hplt
        obtain ⟨t, ht, rfl⟩ := hplace.mem_tops hclt (by rw [parent_detach, if_pos rfl])
        rcases List.mem_cons.mp ht with rfl | ht
        · have hbelow := (hplace.stored _ List.mem_cons_self).atOrBelow p (by simp [ids_plug])
          exact absurd hbelow.of_detach (h.not_atOrBelow_of_hangsFrom hstep)
        · obtain ⟨before, behind, rfl⟩ := List.append_of_mem ht
          have hlink := (hplace.perm (List.perm_middle.cons _)).link
          rw [h.link_detach hchildren] at hlink
          exact ⟨_, hlink⟩

end IsForest

/-- Links form a forest exactly where the arena is the storage of trees, one of which has the
root at its top. -/
theorem isForest_iff_shows :
    d.IsForest ↔ ∃ ts, d.Shows ts ∧ ∃ t ∈ ts, t.id = d.root := by
  constructor
  · intro h
    obtain ⟨ts, hts⟩ := h.exists_shows
    exact ⟨ts, hts, hts.mem_tops h.root_lt h.parent_root⟩
  · rintro ⟨ts, hts, hroot⟩
    exact hts.isForest hroot

/-! ## Following child lists -/

/-- Following child lists from a node shows a tree. -/
inductive Unfolds (d : Document) : NodeId → Tree → Prop
  | node {x : NodeId} {content : Content} {trees : List Tree}
      (hcontent : d.content? x = some content)
      (hbelow : List.Forall₂ (Unfolds d) (d.children x) trees) :
      Unfolds d x (.node content trees)

theorem Stores.unfolds (h : d.Stores above t) : d.Unfolds t.id t.toTree := by
  induction t generalizing above with
  | node id content children ih =>
      rw [Placed.toTree_node]
      refine .node h.content ?_
      rw [Placed.id_node, h.children, List.forall₂_map_left_iff, List.forall₂_map_right_iff,
        List.forall₂_same]
      exact fun u hu => ih u hu ((stores_node.mp h).2 u hu)

private theorem unique_of_unfoldsAll {xs : List NodeId} {trees others : List Tree}
    (ih : ∀ t ∈ trees, ∀ {x u}, d.Unfolds x t → d.Unfolds x u → t = u)
    (h : List.Forall₂ d.Unfolds xs trees) (h' : List.Forall₂ d.Unfolds xs others) :
    trees = others := by
  induction h generalizing others with
  | nil =>
      cases h'
      rfl
  | cons hfirst hrest ihrest =>
      cases h' with
      | cons hfirst' hrest' =>
          rw [ih _ List.mem_cons_self hfirst hfirst',
            ihrest (fun t ht => ih t (List.mem_cons_of_mem _ ht)) hrest']

/-- A node unfolds to one tree. -/
theorem Unfolds.unique {t u : Tree} (h : d.Unfolds x t) (h' : d.Unfolds x u) : t = u := by
  induction t generalizing x u with
  | node content trees ih =>
      obtain ⟨hcontent, hbelow⟩ := h
      obtain ⟨hcontent', hbelow'⟩ := h'
      rw [hcontent, Option.some.injEq] at hcontent'
      rw [hcontent', unique_of_unfoldsAll (fun t ht _ _ => ih t ht) hbelow hbelow']

theorem Unfolds.isElement {t : Tree} (h : d.Unfolds x t) :
    d.isElement x = t.content.isElement := by
  obtain ⟨hcontent, -⟩ := h
  simp [Document.isElement, name?, hcontent, Tree.content, Content.isElement]

/-- What stands below the top of a tree is what a child of the node unfolds to. -/
theorem Unfolds.exists_child {content : Content} {trees : List Tree} {u : Tree}
    (h : d.Unfolds x (.node content trees)) (hu : u ∈ trees) :
    ∃ y ∈ d.children x, d.Unfolds y u := by
  obtain ⟨-, hbelow⟩ := h
  generalize d.children x = ys at hbelow ⊢
  induction hbelow with
  | nil => cases hu
  | @cons y t ys ts hfirst hrest ih =>
      rcases List.mem_cons.mp hu with rfl | hu
      · exact ⟨y, List.mem_cons_self, hfirst⟩
      · obtain ⟨z, hz, hzu⟩ := ih hu
        exact ⟨z, List.mem_cons_of_mem y hz, hzu⟩

/-- Every node of a forest stands at a place in a tree that is stored. -/
theorem IsForest.exists_place (h : d.IsForest) (hx : x < d.size) :
    ∃ fs content cs others, d.Shows (plug fs (.node x content cs) :: others) := by
  obtain ⟨ts, hts⟩ := h.exists_shows
  exact hts.exists_place hx

/-- A node of a forest unfolds to the tree that is read off there. -/
theorem IsForest.unfolds (h : d.IsForest) (hx : x < d.size) : d.Unfolds x (d.tree x) := by
  obtain ⟨fs, content, cs, others, hplace⟩ := h.exists_place hx
  have htree := hplace.tree_plug
  rw [Placed.id_node] at htree
  rw [htree]
  exact hplace.storesAt.unfolds

/-- A node of a forest unfolds to the tree that is read off there, and to no other. -/
theorem IsForest.unfolds_iff (h : d.IsForest) (hx : x < d.size) {t : Tree} :
    d.Unfolds x t ↔ t = d.tree x := by
  constructor
  · exact fun ht => ht.unique (h.unfolds hx)
  · rintro rfl
    exact h.unfolds hx

end RouteCompiler.Route.Document
