import RouteCompiler.Proofs.Document.Placed
import Mathlib.Data.List.Nodup

/-!
# Documents as forests

The arena of a document is the storage of a forest: every address belongs to
exactly one node of one tree, and each node is stored with the links that its
tree shows.  Every edit of a document is an edit of its forest.

Main definitions:

- `Document.Stores`: the arena stores a tree below a given parent.
- `Document.Shows`: the arena is the storage of exactly the given trees.

Main results:

- One theorem per edit, `Shows.push`, `Shows.modifyContent`, `Shows.detach`,
  `Shows.link`, `Shows.replace` and `Shows.replaceWithMany`: which forest the
  edited document shows.
-/

namespace RouteCompiler.Route.Document

open List (Perm)
open scoped List

/-- The arena stores a tree whose top has the given parent. -/
def Stores (d : Document) (parent : Option NodeId) (t : Placed) : Prop :=
  ∀ e ∈ t.entries parent, d.nodes[e.1]? = some e.2

/-- The arena is the storage of exactly the given trees. -/
structure Shows (d : Document) (ts : List Placed) : Prop where
  stored : ∀ t ∈ ts, d.Stores none t
  placed : (ts.flatMap Placed.ids).Perm (List.range d.size)

/-! ## Reading a stored tree -/

section Stores

variable {d : Document} {above : Option NodeId} {id : NodeId} {c : Content}
  {cs : List Placed}

theorem stores_node :
    d.Stores above (.node id c cs) ↔
      d.nodes[id]? = some ⟨c, above, cs.map Placed.id⟩ ∧ ∀ t ∈ cs, d.Stores (some id) t := by
  simp only [Stores, Placed.entries_node, List.mem_cons, forall_eq_or_imp, List.mem_flatMap,
    forall_exists_index, and_imp]
  exact and_congr_right fun _ => ⟨fun h t ht e he => h e t ht he, fun h e t ht he => h t ht e he⟩

theorem Stores.content (h : d.Stores above (.node id c cs)) : d.content? id = some c := by
  simp [content?, (stores_node.mp h).1]

theorem Stores.children (h : d.Stores above (.node id c cs)) :
    d.children id = cs.map Placed.id := by
  simp [Document.children, (stores_node.mp h).1]

theorem Stores.parent (h : d.Stores above (.node id c cs)) : d.parent? id = above := by
  simp [parent?, (stores_node.mp h).1]

theorem Stores.top {t : Placed} (h : d.Stores above t) :
    d.nodes[t.id]? = some ⟨t.content, above, t.children.map Placed.id⟩ := by
  cases t
  exact (stores_node.mp h).1

/-- What a node of a stored tree holds. -/
theorem Stores.content_of_mem {t : Placed} (h : d.Stores above t) {e : NodeId × Content}
    (he : e ∈ t.nodes) : d.content? e.1 = some e.2 := by
  rw [← Placed.entries_map_content above t] at he
  obtain ⟨entry, hentry, rfl⟩ := List.mem_map.mp he
  simp [content?, h entry hentry]

/-- The arena stores one tree at an address. -/
theorem Stores.unique {t u : Placed} (h : d.Stores above t) (hu : d.Stores above u)
    (hid : t.id = u.id) : t = u := by
  induction t generalizing above u with
  | node i c cs ih =>
      obtain ⟨i', c', cs'⟩ := u
      rw [Placed.id_node, Placed.id_node] at hid
      subst hid
      obtain ⟨htop, hbelow⟩ := stores_node.mp h
      obtain ⟨htop', hbelow'⟩ := stores_node.mp hu
      rw [htop, Option.some.injEq, Node.mk.injEq] at htop'
      obtain ⟨rfl, -, hids⟩ := htop'
      have hchildren : cs = cs' := by
        have hlength : cs.length = cs'.length := by
          simpa using congrArg List.length hids
        refine List.ext_getElem hlength fun n hn hn' => ?_
        have hn_id : cs[n].id = cs'[n].id := by
          have hmap := List.getElem_of_eq hids (i := n) (by simpa using hn)
          simpa using hmap
        exact ih cs[n] (List.getElem_mem hn) (hbelow _ (List.getElem_mem hn))
          (hbelow' _ (List.getElem_mem hn')) hn_id
      rw [hchildren]

/-- A tree is stored in any arena that agrees on its nodes. -/
theorem Stores.congr {d' : Document} {t : Placed} (h : d.Stores above t)
    (heq : ∀ x ∈ t.ids, d'.nodes[x]? = d.nodes[x]?) : d'.Stores above t := by
  intro e he
  rw [heq e.1 (Placed.mem_ids_of_mem_entries he)]
  exact h e he

/-- A tree stays stored if only its top gets another parent. -/
theorem Stores.reparent {d' : Document} {t : Placed} {above' : Option NodeId}
    (h : d.Stores above t) (htop : d'.nodes[t.id]? =
      some ⟨t.content, above', t.children.map Placed.id⟩)
    (heq : ∀ x ∈ t.children.flatMap Placed.ids, d'.nodes[x]? = d.nodes[x]?) :
    d'.Stores above' t := by
  cases t with
  | node id c cs =>
      refine stores_node.mpr ⟨htop, fun t ht => ?_⟩
      exact ((stores_node.mp h).2 t ht).congr fun x hx =>
        heq x (List.mem_flatMap.mpr ⟨t, ht, hx⟩)

theorem stores_plug {fs : List Frame} {t : Placed} :
    d.Stores none (plug fs t) ↔
      d.Stores (holder? fs) t ∧ ∀ e ∈ entriesOutside fs t.id, d.nodes[e.1]? = some e.2 := by
  simp only [Stores, mem_entries_plug]
  exact ⟨fun h => ⟨fun e he => h e (.inl he), fun e he => h e (.inr he)⟩,
    fun h e he => he.elim (h.1 e) (h.2 e)⟩

/-- An edit at one place keeps what is stored outside. -/
theorem Stores.plug_congr {d' : Document} {fs : List Frame} {t t' : Placed}
    (h : d.Stores none (plug fs t)) (hid : t'.id = t.id) (hin : d'.Stores (holder? fs) t')
    (heq : ∀ x ∈ idsOutside fs, d'.nodes[x]? = d.nodes[x]?) : d'.Stores none (plug fs t') := by
  refine stores_plug.mpr ⟨hin, fun e he => ?_⟩
  rw [hid] at he
  rw [heq e.1 (entriesOutside_map_fst_subset he)]
  exact (stores_plug.mp h).2 e he

end Stores

/-! ## Several links at once -/

section SetParents

variable (d : Document) (p : NodeId)

/-- Give several nodes one parent. -/
def setParents (d : Document) (rs : List NodeId) (p : NodeId) : Document :=
  rs.foldl (fun d r => d.setParent r (some p)) d

@[simp] theorem size_setParents (rs : List NodeId) : (d.setParents rs p).size = d.size := by
  induction rs generalizing d with
  | nil => rfl
  | cons r rs ih => exact (ih (d.setParent r (some p))).trans (by simp [setParent])

@[simp] theorem root_setParents (rs : List NodeId) : (d.setParents rs p).root = d.root := by
  induction rs generalizing d with
  | nil => rfl
  | cons r rs ih => exact ih (d.setParent r (some p))

theorem getElem_setParents (rs : List NodeId) (x : NodeId) :
    (d.setParents rs p).nodes[x]? =
      if x ∈ rs then d.nodes[x]?.map fun n => ⟨n.content, some p, n.children⟩
      else d.nodes[x]? := by
  induction rs generalizing d with
  | nil => simp [setParents]
  | cons r rs ih =>
      have hstep : (d.setParents (r :: rs) p).nodes[x]? =
          ((d.setParent r (some p)).setParents rs p).nodes[x]? := rfl
      rw [hstep, ih, setParent, getElem_modifyNode]
      by_cases hr : x = r
      · cases d.nodes[x]? <;> simp [hr]
      · simp [hr]

/-- Put several nodes in the place of another one below a node. -/
def spliceAt (d : Document) (p target : NodeId) (rs : List NodeId) : Document :=
  ((d.modifyChildren p (splice target rs)).setParent target none).setParents rs p

@[simp] theorem size_spliceAt (target : NodeId) (rs : List NodeId) :
    (d.spliceAt p target rs).size = d.size := by
  simp [spliceAt, modifyChildren, setParent]

theorem getElem_spliceAt (target : NodeId) (rs : List NodeId) (x : NodeId) :
    (d.spliceAt p target rs).nodes[x]? =
      if x ∈ rs then
        if x = p then d.nodes[x]?.map fun n => ⟨n.content, some p, splice target rs n.children⟩
        else d.nodes[x]?.map fun n => ⟨n.content, some p, n.children⟩
      else if x = target then
        if x = p then d.nodes[x]?.map fun n => ⟨n.content, none, splice target rs n.children⟩
        else d.nodes[x]?.map fun n => ⟨n.content, none, n.children⟩
      else if x = p then
        d.nodes[x]?.map fun n => ⟨n.content, n.parent, splice target rs n.children⟩
      else d.nodes[x]? := by
  rw [spliceAt, getElem_setParents, setParent, getElem_modifyNode, modifyChildren,
    getElem_modifyNode]
  cases d.nodes[x]? <;> split_ifs <;> rfl

end SetParents

/-- Splicing replaces the first occurrence of an address. -/
theorem splice_append {target : NodeId} {left : List NodeId} (h : target ∉ left)
    (rs right : List NodeId) :
    splice target rs (left ++ target :: right) = left ++ rs ++ right := by
  induction left with
  | nil => simp [splice]
  | cons x left ih =>
      simp only [List.mem_cons, not_or] at h
      simp [splice, Ne.symm h.1, ih h.2]

/-! ## Addresses of a forest -/

namespace Shows

variable {d d' : Document} {ts ts' : List Placed} {fs : List Frame} {p : NodeId}
  {c : Content} {left right cs rs : List Placed} {s : Placed}

theorem nodup (h : d.Shows ts) : (ts.flatMap Placed.ids).Nodup :=
  h.placed.nodup_iff.mpr List.nodup_range

theorem lt_size (h : d.Shows ts) {t : Placed} (ht : t ∈ ts) {x : NodeId} (hx : x ∈ t.ids) :
    x < d.size :=
  List.mem_range.mp (h.placed.mem_iff.mp (List.mem_flatMap.mpr ⟨t, ht, hx⟩))

/-- The order of the trees of a forest does not matter. -/
theorem perm (h : d.Shows ts) (hperm : ts.Perm ts') : d.Shows ts' :=
  ⟨fun t ht => h.stored t (hperm.mem_iff.mpr ht),
    (hperm.flatMap_right Placed.ids).symm.trans h.placed⟩

/-- The forest that shows nothing. -/
theorem empty : Document.empty.Shows [] :=
  ⟨by simp, by simp [Document.empty, size]⟩

/-! ## Edits -/

theorem push (h : d.Shows ts) (c : Content) :
    (d.push c).1.Shows (.node d.size c [] :: ts) := by
  have hold : ∀ x, x < d.size → (d.push c).1.nodes[x]? = d.nodes[x]? := by
    intro x hx
    exact (Array.getElem?_push ..).trans (if_neg (Nat.ne_of_lt hx))
  refine ⟨?_, ?_⟩
  · intro t ht
    rcases List.mem_cons.mp ht with rfl | ht
    · exact stores_node.mpr ⟨by simp [Document.push, size], by simp⟩
    · exact (h.stored t ht).congr fun x hx => hold x (h.lt_size ht hx)
  · have hsize : (d.push c).1.size = d.size + 1 := by simp [Document.push, size]
    rw [hsize, List.range_succ]
    simpa using (@List.perm_append_comm _ [d.size] _).trans
      (List.Perm.append_right [d.size] h.placed)

/-- The addresses outside a place, at the place and in the other trees. -/
theorem nodup_plug (h : d.Shows (plug fs s :: ts)) :
    (idsOutside fs ++ (s.ids ++ ts.flatMap Placed.ids)).Nodup := by
  have hnodup := h.nodup
  rw [List.flatMap_cons] at hnodup
  rw [← List.append_assoc]
  exact ((ids_plug_perm fs s).append_right _).nodup_iff.mp hnodup

/-- The children of a node are distinct. -/
theorem nodup_children (h : d.Shows (plug fs (.node p c cs) :: ts)) :
    (cs.map Placed.id).Nodup := by
  have hids := (List.nodup_append.mp (List.nodup_append.mp h.nodup_plug).2.1).1
  rw [Placed.ids_node] at hids
  exact (List.nodup_append.mp ((Placed.ids_perm_tops cs).nodup_iff.mp hids.of_cons)).1

/-- An edit that works on one place and on the other trees, and neither adds nor
loses an address. -/
theorem edit {t : Placed} (h : d.Shows (plug fs s :: ts)) (hsize : d'.size = d.size)
    (hids : (t.ids ++ ts'.flatMap Placed.ids).Perm (s.ids ++ ts.flatMap Placed.ids))
    (hid : t.id = s.id) (hout : ∀ x ∈ idsOutside fs, d'.nodes[x]? = d.nodes[x]?)
    (hin : d'.Stores (holder? fs) t) (hrest : ∀ u ∈ ts', d'.Stores none u) :
    d'.Shows (plug fs t :: ts') := by
  refine ⟨?_, ?_⟩
  · intro u hu
    rcases List.mem_cons.mp hu with rfl | hu
    · exact (h.stored (plug fs s) (by simp)).plug_congr hid hin hout
    · exact hrest u hu
  · have hplaced := h.placed
    rw [List.flatMap_cons] at hplaced ⊢
    rw [hsize]
    calc (plug fs t).ids ++ ts'.flatMap Placed.ids
      _ ~ idsOutside fs ++ t.ids ++ ts'.flatMap Placed.ids := (ids_plug_perm fs t).append_right _
      _ ~ idsOutside fs ++ s.ids ++ ts.flatMap Placed.ids := by
          simpa only [List.append_assoc] using hids.append_left (idsOutside fs)
      _ ~ (plug fs s).ids ++ ts.flatMap Placed.ids := ((ids_plug_perm fs s).symm).append_right _
      _ ~ List.range d.size := hplaced

/-- Every node stands at a place of one of the trees. -/
theorem exists_plug (h : d.Shows ts) {x : NodeId} (hx : x < d.size) :
    ∃ fs c cs others, ts.Perm (plug fs (.node x c cs) :: others) := by
  have hmem := h.placed.mem_iff.mpr (List.mem_range.mpr hx)
  obtain ⟨t, ht, hxt⟩ := List.mem_flatMap.mp hmem
  obtain ⟨fs, c, cs, rfl⟩ := exists_plug_of_mem_ids hxt
  obtain ⟨before, behind, rfl⟩ := List.append_of_mem ht
  exact ⟨fs, c, cs, before ++ behind, List.perm_middle⟩

/-- Where two documents show the same outside of a place, they store the same there. -/
theorem agree {s' : Placed} {gone : List Placed} (h : d.Shows (plug fs s :: ts))
    (h' : d'.Shows (plug fs s' :: (ts ++ gone))) (hid : s'.id = s.id) {x : NodeId}
    (hx : x < d.size) (hout : x ∉ s.ids) : d'.nodes[x]? = d.nodes[x]? := by
  have hmem := h.placed.mem_iff.mpr (List.mem_range.mpr hx)
  rw [List.flatMap_cons, List.mem_append] at hmem
  rcases hmem with hplug | hothers
  · rw [← Placed.entries_map_fst none] at hplug
    obtain ⟨e, he, rfl⟩ := List.mem_map.mp hplug
    rcases mem_entries_plug.mp he with hin | hoff
    · exact absurd (Placed.mem_ids_of_mem_entries hin) hout
    · have hbefore := (stores_plug.mp (h.stored (plug fs s) (by simp))).2 e hoff
      rw [← hid] at hoff
      have hafter := (stores_plug.mp (h'.stored (plug fs s') (by simp))).2 e hoff
      rw [hbefore, hafter]
  · obtain ⟨t, ht, hxt⟩ := List.mem_flatMap.mp hothers
    rw [← Placed.entries_map_fst none] at hxt
    obtain ⟨e, he, rfl⟩ := List.mem_map.mp hxt
    rw [h.stored t (by simp [ht]) e he, h'.stored t (by simp [ht]) e he]

theorem storesAt (h : d.Shows (plug fs s :: ts)) : d.Stores (holder? fs) s :=
  (stores_plug.mp (h.stored (plug fs s) (by simp))).1

theorem content_plug (h : d.Shows (plug fs s :: ts)) : d.content? s.id = some s.content := by
  simp [content?, h.storesAt.top]

/-- Nodes apart from the changed ones keep what is stored for them. -/
theorem unchanged (before after : Document) (changed : List NodeId) {fixed : List NodeId}
    (hnodup : (changed ++ fixed).Nodup)
    (hold : ∀ x, x ∉ changed → after.nodes[x]? = before.nodes[x]?) :
    ∀ x ∈ fixed, after.nodes[x]? = before.nodes[x]? :=
  fun x hx => hold x fun hchanged => List.disjoint_of_nodup_append hnodup hchanged hx

/-- Changing what a node holds changes its content in the forest. -/
theorem modifyContent (h : d.Shows (plug fs (.node p c cs) :: ts)) (f : Content → Content) :
    (d.modifyContent p f).Shows (plug fs (.node p (f c) cs) :: ts) := by
  obtain ⟨htop, hbelow⟩ := stores_node.mp h.storesAt
  have hold : ∀ x ∈ idsOutside fs ++ cs.flatMap Placed.ids ++ ts.flatMap Placed.ids,
      (d.modifyContent p f).nodes[x]? = d.nodes[x]? := by
    refine unchanged d _ [p] ?_ fun x hx => ?_
    · refine (List.perm_iff_count.mpr fun x => ?_).nodup_iff.mp h.nodup_plug
      simp only [Placed.ids_node, List.count_append, List.count_cons, List.count_nil]
      omega
    · rw [Document.modifyContent, getElem_modifyNode, if_neg (by simpa using hx)]
  refine h.edit (by simp [Document.modifyContent]) (by simp) rfl ?_ ?_ ?_
  · exact fun x hx => hold x (by simp [hx])
  · refine stores_node.mpr ⟨?_, fun t ht => (hbelow t ht).congr fun x hx => hold x ?_⟩
    · simp [Document.modifyContent, getElem_modifyNode, htop]
    · simp only [List.mem_append, List.mem_flatMap]
      exact .inl (.inr ⟨t, ht, hx⟩)
  · refine fun t ht => (h.stored t (by simp [ht])).congr fun x hx => hold x ?_
    simp only [List.mem_append, List.mem_flatMap]
    exact .inr ⟨t, ht, hx⟩

/-- A top has no parent to be unlinked from. -/
theorem detach_top (h : d.Shows ts) (hs : s ∈ ts) : d.detach s.id = d := by
  have hparent : d.parent? s.id = none := by
    rw [← s.eta] at hs
    exact (h.stored _ hs).parent
  rw [Document.detach, hparent]

/-- Where nothing is written twice, a node, the one below it and the tops to come are different
ones, and none of the trees beside is called as one of them. -/
theorem apart_of_nodup {i : NodeId} {tops rest : List NodeId} {us : List Placed}
    (h : ((p :: i :: tops) ++ (us.flatMap Placed.ids ++ rest)).Nodup) :
    p ≠ i ∧ p ∉ tops ∧ i ∉ tops ∧ i ∉ us.map Placed.id := by
  simp only [List.cons_append, List.nodup_cons, List.mem_cons, List.mem_append, not_or] at h
  obtain ⟨⟨hne, hp, -⟩, ⟨hi, hbeside, -⟩, -⟩ := h
  refine ⟨hne, hp, hi, fun hmem => hbeside ?_⟩
  obtain ⟨u, hu, rfl⟩ := List.mem_map.mp hmem
  exact List.mem_flatMap.mpr ⟨u, hu, u.id_mem_ids⟩

/-- Linking a top makes its tree the last one below a node. -/
theorem link (h : d.Shows (plug fs (.node p c cs) :: s :: ts)) :
    (d.link p s.id).Shows (plug fs (.node p c (cs ++ [s])) :: ts) := by
  obtain ⟨htop, hbelow⟩ := stores_node.mp h.storesAt
  have hs := h.stored s (by simp)
  obtain ⟨i, ci, is⟩ := s
  obtain ⟨hstop, hsbelow⟩ := stores_node.mp hs
  have hnodup : ([p, i] ++ (cs.flatMap Placed.ids ++ (idsOutside fs ++ is.flatMap Placed.ids ++
      ts.flatMap Placed.ids))).Nodup := by
    refine (List.perm_iff_count.mpr fun x => ?_).nodup_iff.mp h.nodup_plug
    simp only [Placed.ids_node, List.flatMap_cons, List.count_append, List.count_cons,
      List.count_nil]
    omega
  obtain ⟨hne, -⟩ := apart_of_nodup hnodup
  have hold := unchanged d (d.link p i) _ hnodup fun x hx => by
    simp only [List.mem_cons, List.not_mem_nil, or_false, not_or] at hx
    rw [Document.link, modifyChildren, getElem_modifyNode, if_neg hx.1, setParent,
      getElem_modifyNode, if_neg hx.2]
  simp only [List.mem_append, List.mem_flatMap] at hold
  refine h.edit (by simp [Document.link, modifyChildren, setParent]) (by simp) rfl ?_ ?_ ?_
  · exact fun x hx => hold x (by simp [hx])
  · refine stores_node.mpr ⟨?_, fun t ht => ?_⟩
    · simp [Document.link, modifyChildren, setParent, getElem_modifyNode, htop, hne]
    · rcases List.mem_append.mp ht with ht | ht
      · exact (hbelow t ht).congr fun x hx => hold x (.inl ⟨t, ht, hx⟩)
      · rw [List.mem_singleton.mp ht]
        refine hs.reparent ?_ fun x hx =>
          hold x (.inr (.inl (.inr (List.mem_flatMap.mp hx))))
        simp [Document.link, modifyChildren, setParent, getElem_modifyNode, hstop, hne.symm]
  · exact fun t ht => (h.stored t (by simp [ht])).congr fun x hx =>
      hold x (.inr (.inr ⟨t, ht, hx⟩))

/-- Unlinking a node takes its tree out of the one above it. -/
theorem detach (h : d.Shows (plug fs (.node p c (left ++ s :: right)) :: ts)) :
    (d.detach s.id).Shows (plug fs (.node p c (left ++ right)) :: s :: ts) := by
  obtain ⟨htop, hbelow⟩ := stores_node.mp h.storesAt
  have hs := hbelow s (by simp)
  obtain ⟨i, ci, is⟩ := s
  obtain ⟨hstop, hsbelow⟩ := stores_node.mp hs
  have hnodup : ([p, i] ++ ((left ++ right).flatMap Placed.ids ++ (idsOutside fs ++
      is.flatMap Placed.ids ++ ts.flatMap Placed.ids))).Nodup := by
    refine (List.perm_iff_count.mpr fun x => ?_).nodup_iff.mp h.nodup_plug
    simp only [Placed.ids_node, List.flatMap_cons, List.flatMap_append, List.count_append,
      List.count_cons, List.count_nil]
    omega
  obtain ⟨hne, -, -, hi⟩ := apart_of_nodup hnodup
  have hkept : ((left ++ right).map Placed.id).filter (· != i) = (left ++ right).map Placed.id := by
    rw [List.filter_eq_self]
    intro x hx
    simpa using fun heq : x = i => hi (heq ▸ hx)
  have hdetach : d.detach i = (d.setParent i none).modifyChildren p (·.filter (· != i)) := by
    rw [Document.detach, hs.parent]
  have hold := unchanged d (d.detach i) _ hnodup fun x hx => by
    simp only [List.mem_cons, List.not_mem_nil, or_false, not_or] at hx
    rw [hdetach, modifyChildren, getElem_modifyNode, if_neg hx.1, setParent,
      getElem_modifyNode, if_neg hx.2]
  simp only [List.mem_append, List.mem_flatMap] at hold
  refine h.edit (by simp [hdetach, modifyChildren, setParent]) ?_ rfl ?_ ?_ ?_
  · refine List.perm_iff_count.mpr fun x => ?_
    simp only [Placed.ids_node, List.flatMap_cons, List.flatMap_append, List.count_append,
      List.count_cons]
    omega
  · exact fun x hx => hold x (by simp [hx])
  · refine stores_node.mpr ⟨?_, fun t ht => ?_⟩
    · rw [← hkept]
      simp [hdetach, modifyChildren, setParent, getElem_modifyNode, htop, hne]
    · have hmem : t ∈ left ++ Placed.node i ci is :: right := by
        simp only [List.mem_append, List.mem_cons] at ht ⊢
        tauto
      exact (hbelow t hmem).congr fun x hx => hold x (.inl ⟨t, List.mem_append.mp ht, hx⟩)
  · intro t ht
    rcases List.mem_cons.mp ht with rfl | ht
    · refine hs.reparent ?_ fun x hx =>
        hold x (.inr (.inl (.inr (List.mem_flatMap.mp hx))))
      simp [hdetach, modifyChildren, setParent, getElem_modifyNode, hstop, hne.symm]
    · exact (h.stored t (by simp [ht])).congr fun x hx =>
        hold x (.inr (.inr ⟨t, ht, hx⟩))

/-- Unlinking neighbours takes their trees out one by one. -/
theorem detachAll (h : d.Shows (plug fs (.node p c (left ++ rs ++ right)) :: ts)) :
    ((rs.map Placed.id).foldl Document.detach d).Shows
      (plug fs (.node p c (left ++ right)) :: (rs ++ ts)) := by
  induction rs generalizing d ts with
  | nil => simpa using h
  | cons r rs ih =>
      have hfirst : d.Shows (plug fs (.node p c (left ++ r :: (rs ++ right))) :: ts) := by
        simpa using h
      have hrest := ih (by simpa using hfirst.detach)
      exact hrest.perm (List.Perm.cons _ List.perm_middle)

/-- Splicing tops in the place of a node puts their trees there. -/
theorem spliceAt (h : d.Shows (plug fs (.node p c (left ++ s :: right)) :: (rs ++ ts))) :
    (d.spliceAt p s.id (rs.map Placed.id)).Shows
      (plug fs (.node p c (left ++ rs ++ right)) :: s :: ts) := by
  obtain ⟨htop, hbelow⟩ := stores_node.mp h.storesAt
  have hs := hbelow s (by simp)
  obtain ⟨i, ci, is⟩ := s
  obtain ⟨hstop, hsbelow⟩ := stores_node.mp hs
  have hnodup : ((p :: i :: rs.map Placed.id) ++ ((left ++ right).flatMap Placed.ids ++
      (idsOutside fs ++ is.flatMap Placed.ids ++
        rs.flatMap (fun r => r.children.flatMap Placed.ids) ++ ts.flatMap Placed.ids))).Nodup := by
    refine (List.perm_iff_count.mpr fun x => ?_).nodup_iff.mp h.nodup_plug
    have hcount := (Placed.ids_perm_tops rs).count_eq x
    simp only [Placed.ids_node, List.flatMap_cons, List.flatMap_append, List.count_append,
      List.count_cons] at hcount ⊢
    omega
  obtain ⟨hne, hp, hi, hbeside⟩ := apart_of_nodup hnodup
  have hleft : i ∉ left.map Placed.id := by
    rw [List.map_append, List.mem_append, not_or] at hbeside
    exact hbeside.1
  have hold := unchanged d (d.spliceAt p i (rs.map Placed.id)) _ hnodup
    fun x hx => by
      simp only [List.mem_cons, not_or] at hx
      rw [getElem_spliceAt, if_neg hx.2.2, if_neg hx.2.1, if_neg hx.1]
  simp only [List.mem_append, List.mem_flatMap] at hold
  refine h.edit (size_spliceAt ..) ?_ rfl ?_ ?_ ?_
  · refine List.perm_iff_count.mpr fun x => ?_
    simp only [Placed.ids_node, List.flatMap_cons, List.flatMap_append, List.count_append,
      List.count_cons]
    omega
  · exact fun x hx => hold x (by simp [hx])
  · refine stores_node.mpr ⟨?_, fun t ht => ?_⟩
    · rw [Placed.id_node, getElem_spliceAt, if_neg hp, if_neg hne, if_pos rfl, htop]
      simp [splice_append hleft]
    · by_cases hside : t ∈ left ∨ t ∈ right
      · have hmem : t ∈ left ++ Placed.node i ci is :: right := by
          simp only [List.mem_append, List.mem_cons]
          tauto
        exact (hbelow t hmem).congr fun x hx => hold x (.inl ⟨t, hside, hx⟩)
      · have hr : t ∈ rs := by
          simp only [List.mem_append] at ht
          tauto
        have htid : t.id ∈ rs.map Placed.id := List.mem_map_of_mem hr
        have htp : t.id ≠ p := fun heq => hp (heq ▸ htid)
        have ht := h.stored t (by simp [hr])
        refine ht.reparent ?_ fun x hx => hold x (.inr (.inl (.inr ⟨t, hr, List.mem_flatMap.mp hx⟩)))
        rw [getElem_spliceAt, if_pos htid, if_neg htp, ht.top]
        rfl
  · intro t ht
    rcases List.mem_cons.mp ht with rfl | ht
    · refine hs.reparent ?_ fun x hx => hold x (.inr (.inl (.inl (.inr (List.mem_flatMap.mp hx)))))
      simp [getElem_spliceAt, hstop, hi, hne.symm]
    · exact (h.stored t (by simp [ht])).congr fun x hx => hold x (.inr (.inr ⟨t, ht, hx⟩))

/-- Putting neighbours from elsewhere, in order, in the place of a node: what they
leave behind is shown by the two ways of writing the tree. -/
theorem replaceWithMany {fs' : List Frame} {p' : NodeId} {c' : Content} {left' right' : List Placed}
    (h : d.Shows (plug fs' (.node p' c' (left' ++ rs ++ right')) :: ts))
    (hrest : plug fs' (.node p' c' (left' ++ right')) =
      plug fs (.node p c (left ++ s :: right)))
    (hparent : d.parent? s.id = some p) :
    (d.replaceWithMany s.id (rs.map Placed.id)).Shows
      (plug fs (.node p c (left ++ rs ++ right)) :: s :: ts) := by
  have hdetached := h.detachAll
  rw [hrest] at hdetached
  have hmem : s.id ∈ ((rs.map Placed.id).foldl Document.detach d).children p := by
    rw [hdetached.storesAt.children]
    simp
  rw [Document.replaceWithMany, hparent]
  simp only [if_pos hmem]
  exact hdetached.spliceAt

/-- Putting a top in the place of a node puts its tree there. -/
theorem replace {r : Placed} (h : d.Shows (plug fs (.node p c (left ++ s :: right)) :: r :: ts)) :
    (d.replace s.id r.id).Shows (plug fs (.node p c (left ++ r :: right)) :: s :: ts) := by
  have hparent : d.parent? s.id = some p := by
    have hs := (stores_node.mp h.storesAt).2 s (by simp)
    rw [← s.eta] at hs
    exact hs.parent
  rw [Document.replace, hparent, h.detach_top (by simp)]
  have hnext : d.Shows (plug fs (.node p c (left ++ s :: right)) :: ([r] ++ ts)) := h
  have hone := hnext.spliceAt
  simpa [Document.spliceAt, setParents] using hone

/-- Appending a top to a node makes its tree the last one there. -/
theorem appendChild (h : d.Shows (plug fs (.node p c cs) :: s :: ts)) :
    (d.appendChild p s.id).Shows (plug fs (.node p c (cs ++ [s])) :: ts) := by
  rw [Document.appendChild, h.detach_top (by simp)]
  exact h.link

end Shows

/-! ## The root -/

section Root

variable (d : Document)

@[simp] theorem root_push (c : Content) : (d.push c).1.root = d.root := rfl

@[simp] theorem root_modifyContent (id : NodeId) (f : Content → Content) :
    (d.modifyContent id f).root = d.root := rfl

@[simp] theorem root_link (p s : NodeId) : (d.link p s).root = d.root := rfl

@[simp] theorem root_detach (id : NodeId) : (d.detach id).root = d.root := by
  unfold detach
  split <;> rfl

@[simp] theorem root_appendChild (p s : NodeId) : (d.appendChild p s).root = d.root := by
  simp [appendChild]

@[simp] theorem root_replace (target r : NodeId) : (d.replace target r).root = d.root := by
  unfold replace
  split
  · rfl
  · exact root_detach d r

theorem root_foldl_detach (rs : List NodeId) : (rs.foldl detach d).root = d.root := by
  induction rs generalizing d with
  | nil => rfl
  | cons r rs ih => exact (ih (d.detach r)).trans (root_detach d r)

@[simp] theorem root_replaceWithMany (target : NodeId) (rs : List NodeId) :
    (d.replaceWithMany target rs).root = d.root := by
  unfold replaceWithMany
  split
  · rfl
  · next p _ =>
    dsimp only
    split
    · exact (root_setParents _ p rs).trans (root_foldl_detach d rs)
    · exact root_foldl_detach d rs

end Root

/-! ## The number of places -/

section Size

variable (d : Document)

@[simp] theorem size_push (c : Content) : (d.push c).1.size = d.size + 1 := by
  simp [push, size]

@[simp] theorem size_modifyContent (id : NodeId) (f : Content → Content) :
    (d.modifyContent id f).size = d.size := by
  simp [modifyContent]

@[simp] theorem size_link (p s : NodeId) : (d.link p s).size = d.size := by
  simp [link, modifyChildren, setParent]

@[simp] theorem size_detach (id : NodeId) : (d.detach id).size = d.size := by
  unfold detach
  split <;> simp [modifyChildren, setParent]

@[simp] theorem size_appendChild (p s : NodeId) : (d.appendChild p s).size = d.size := by
  simp [appendChild]

@[simp] theorem size_replace (target r : NodeId) : (d.replace target r).size = d.size := by
  unfold replace
  split
  · rfl
  · simp [setParent, modifyChildren]

theorem size_foldl_detach (rs : List NodeId) : (rs.foldl detach d).size = d.size := by
  induction rs generalizing d with
  | nil => rfl
  | cons r rs ih => exact (ih (d.detach r)).trans (size_detach d r)

@[simp] theorem size_replaceWithMany (target : NodeId) (rs : List NodeId) :
    (d.replaceWithMany target rs).size = d.size := by
  unfold replaceWithMany
  split
  · rfl
  · next p _ =>
    dsimp only
    split
    · exact (size_spliceAt (rs.foldl detach d) p target rs).trans (size_foldl_detach d rs)
    · exact size_foldl_detach d rs

end Size

end RouteCompiler.Route.Document
