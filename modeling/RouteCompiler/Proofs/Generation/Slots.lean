import RouteCompiler.Generation.BatchRetry
import RouteCompiler.Proofs.Document.Rooted
import Mathlib.Data.List.Find

/-!
# Filling slots

A slot is the first element of a name, in document order, among some trees and
below them.  Filling it puts other trees in its place.  The search does not
distinguish slots of a template from elements of the same name that were moved
into the template before.

Main definitions:

- `Placed.fillAll?`: the trees with a slot filled, if there is one.

Main results:

- Theorem `Placed.fillAll_eq_some`: where the slot was, and what filling it kept.
- Theorems `ShowsAmong.fillSlot` and `ShowsAmong.fillWithTree`: filling a slot in a
  document fills it in the tree where it stands.
-/

namespace RouteCompiler.Route

/-- Put trees at a place in a list of trees. -/
def plugAll : List Frame → List Placed → List Placed
  | [], us => us
  | g :: gs, us => [plug gs (g.fill us)]

theorem plugAll_singleton (gs : List Frame) (t : Placed) : plugAll gs [t] = [plug gs t] := by
  cases gs <;> rfl

/-- A place in one of several neighbours is a place in the tree above them. -/
theorem plug_plugAll_singleton (fs gs : List Frame) (r : NodeId) (c : Content)
    (left right : List Placed) (t : Placed) :
    plug fs (.node r c (left ++ plugAll gs [t] ++ right)) =
      plug (gs ++ ⟨r, c, left, right⟩ :: fs) t := by
  rw [plugAll_singleton, plug_append]
  rfl

theorem nodes_plugAll (gs : List Frame) (us : List Placed) :
    (plugAll gs us).flatMap Placed.nodes =
      nodesBefore gs ++ us.flatMap Placed.nodes ++ nodesBehind gs := by
  cases gs with
  | nil => simp [plugAll, nodesBefore, nodesBehind]
  | cons g gs => simp [plugAll, nodes_plug, Frame.fill, nodesBefore, nodesBehind]

theorem elements_plugAll {gs : List Frame} (h : Open gs) (us : List Placed) :
    (plugAll gs us).flatMap Placed.elements =
      elementsBefore gs ++ us.flatMap Placed.elements ++ elementsBehind gs := by
  cases gs with
  | nil => simp [plugAll, elementsBefore, elementsBehind]
  | cons g gs =>
      have hg : g.content.isElement := h g (by simp)
      rw [plugAll, List.flatMap_singleton, elements_plug fun k hk => h k (by simp [hk]),
        Frame.fill, Placed.elements_of_isElement hg]
      simp [elementsBefore, elementsBehind]

namespace Placed

mutual

/-- A tree with a slot filled, if there is one. -/
def fill? (slot : String) (us : List Placed) : Placed → Option (List Placed)
  | node id content children =>
      if content.name? = some slot then some us
      else if content.isElement then
        (fillAll? slot us children).map fun children => [node id content children]
      else none

/-- Trees with a slot filled, if there is one among them. -/
def fillAll? (slot : String) (us : List Placed) : List Placed → Option (List Placed)
  | [] => none
  | t :: ts =>
      match fill? slot us t with
      | some filled => some (filled ++ ts)
      | none => (fillAll? slot us ts).map (t :: ·)

end

variable {slot : String} {us ts ts' : List Placed} {t : Placed}

/-! ## Where a slot is -/

/-- A slot of several trees is a slot of one of them. -/
theorem fillAll_cons (t : Placed) (ts : List Placed) :
    fillAll? slot us (t :: ts) =
      ((fill? slot us t).map (· ++ ts)).or ((fillAll? slot us ts).map (t :: ·)) := by
  rw [fillAll?]
  cases fill? slot us t <;> rfl

theorem fillAll_append (ts ts₂ : List Placed) :
    fillAll? slot us (ts ++ ts₂) =
      ((fillAll? slot us ts).map (· ++ ts₂)).or ((fillAll? slot us ts₂).map (ts ++ ·)) := by
  induction ts with
  | nil => simp [fillAll?]
  | cons t ts ih =>
      rw [List.cons_append, fillAll_cons, fillAll_cons, ih]
      cases fill? slot us t <;> cases fillAll? slot us ts <;> simp [Function.comp_def]

private theorem fillAll_eq_none_of_fill
    (h : ∀ t ∈ ts, fill? slot us t = none ↔ ∀ e ∈ t.elements, e.2.name? ≠ some slot) :
    fillAll? slot us ts = none ↔ ∀ e ∈ ts.flatMap elements, e.2.name? ≠ some slot := by
  induction ts with
  | nil => simp [fillAll?]
  | cons t ts ih =>
      have hrest := ih fun u hu => h u (by simp [hu])
      rw [fillAll_cons, Option.or_eq_none_iff, Option.map_eq_none_iff, Option.map_eq_none_iff,
        h t (by simp), hrest]
      simp only [List.flatMap_cons, List.mem_append]
      exact ⟨fun h e he => he.elim (h.1 e) (h.2 e),
        fun h => ⟨fun e he => h e (.inl he), fun e he => h e (.inr he)⟩⟩

/-- There is no slot where no element has its name. -/
theorem fill_eq_none :
    fill? slot us t = none ↔ ∀ e ∈ t.elements, e.2.name? ≠ some slot := by
  induction t with
  | node id content children ih =>
      have hchildren := fillAll_eq_none_of_fill ih
      rw [fill?]
      split
      · next hname =>
        rw [elements_of_isElement (by simp [Content.isElement, hname])]
        simp [hname]
      · next hname =>
        split
        · next helement =>
          rw [elements_of_isElement helement, Option.map_eq_none_iff, hchildren]
          simp [hname]
        · next htext =>
          cases content with
          | text value => simp
          | element name attributes => exact absurd rfl htext

/-- There is no slot where no element has its name. -/
theorem fillAll_eq_none :
    fillAll? slot us ts = none ↔ ∀ e ∈ ts.flatMap elements, e.2.name? ≠ some slot :=
  fillAll_eq_none_of_fill fun _ _ => fill_eq_none

theorem plugAll_append_frame (gs : List Frame) (f : Frame) (us : List Placed) :
    plugAll (gs ++ [f]) us = [f.fill (plugAll gs us)] := by
  cases gs with
  | nil => rfl
  | cons g gs => simp [plugAll, plug_append, plug]

private theorem fillAll_eq_some_of_fill
    (ih : ∀ t ∈ ts, ∀ {filled}, fill? slot us t = some filled →
      ∃ gs i c cs, [t] = plugAll gs [node i c cs] ∧ filled = plugAll gs us ∧
        c.name? = some slot ∧ Open gs ∧ ∀ e ∈ elementsBefore gs, e.2.name? ≠ some slot)
    (h : fillAll? slot us ts = some ts') :
    ∃ left gs i c cs right, ts = left ++ plugAll gs [node i c cs] ++ right ∧
      ts' = left ++ plugAll gs us ++ right ∧ c.name? = some slot ∧ Open gs ∧
        ∀ e ∈ left.flatMap elements ++ elementsBefore gs, e.2.name? ≠ some slot := by
  induction ts generalizing ts' with
  | nil => simp [fillAll?] at h
  | cons t ts ihts =>
      rw [fillAll_cons] at h
      cases hfill : fill? slot us t with
      | some filled =>
          simp only [hfill, Option.map_some, Option.some_or, Option.some.injEq] at h
          obtain ⟨gs, i, c, cs, ht, hfilled, hname, hopen, hbefore⟩ := ih t (by simp) hfill
          refine ⟨[], gs, i, c, cs, ts, ?_, ?_, hname, hopen, by simpa using hbefore⟩
          · rw [List.nil_append, ← ht]
            rfl
          · rw [← h, hfilled]
            rfl
      | none =>
          simp only [hfill, Option.map_none, Option.none_or, Option.map_eq_some_iff] at h
          obtain ⟨filled, hfilled, rfl⟩ := h
          obtain ⟨left, gs, i, c, cs, right, rfl, rfl, hname, hopen, hbefore⟩ :=
            ihts (fun u hu => ih u (by simp [hu])) hfilled
          refine ⟨t :: left, gs, i, c, cs, right, rfl, rfl, hname, hopen, ?_⟩
          intro e he
          rw [List.flatMap_cons, List.append_assoc, List.mem_append] at he
          exact he.elim (fill_eq_none.mp hfill e) (hbefore e)

/-- A filled slot stood at a place of the tree, behind elements of other names. -/
theorem fill_eq_some {filled : List Placed} (h : fill? slot us t = some filled) :
    ∃ gs i c cs, [t] = plugAll gs [node i c cs] ∧ filled = plugAll gs us ∧
      c.name? = some slot ∧ Open gs ∧ ∀ e ∈ elementsBefore gs, e.2.name? ≠ some slot := by
  induction t generalizing filled with
  | node id content children ih =>
      rw [fill?] at h
      split at h
      · next hname =>
        simp only [Option.some.injEq] at h
        exact ⟨[], id, content, children, rfl, h.symm, hname, by simp [Open],
          by simp [elementsBefore]⟩
      · next hname =>
        split at h
        · next helement =>
          obtain ⟨children', hchildren, rfl⟩ := Option.map_eq_some_iff.mp h
          obtain ⟨left, gs, i, c, cs, right, rfl, rfl, hslot, hopen, hbefore⟩ :=
            fillAll_eq_some_of_fill (fun t ht _ hfilled => ih t ht hfilled) hchildren
          refine ⟨gs ++ [⟨id, content, left, right⟩], i, c, cs, ?_, ?_, hslot, ?_, ?_⟩
          · rw [plugAll_append_frame]
            rfl
          · rw [plugAll_append_frame]
            rfl
          · intro g hg
            rcases List.mem_append.mp hg with hg | hg
            · exact hopen g hg
            · rw [List.mem_singleton.mp hg]
              exact helement
          · intro e he
            rw [elementsBefore_append] at he
            simp only [elementsBefore, List.nil_append, List.cons_append, List.mem_cons] at he
            rcases he with rfl | he
            · exact hname
            · exact hbefore e he
        · simp at h

/-- A filled slot was the first element of its name, and filling it kept everything
else. -/
theorem fillAll_eq_some (h : fillAll? slot us ts = some ts') :
    ∃ left gs i c cs right, ts = left ++ plugAll gs [node i c cs] ++ right ∧
      ts' = left ++ plugAll gs us ++ right ∧ c.name? = some slot ∧ Open gs ∧
        ∀ e ∈ left.flatMap elements ++ elementsBefore gs, e.2.name? ≠ some slot :=
  fillAll_eq_some_of_fill (fun _ _ _ hfilled => fill_eq_some hfilled) h

/-! ## What filling keeps -/

/-- Filling a slot keeps the nodes on both sides of it. -/
theorem nodes_of_fillAll (h : fillAll? slot us ts = some ts') :
    ∃ before x below behind, ts.flatMap nodes = before ++ (x :: below) ++ behind ∧
      ts'.flatMap nodes = before ++ us.flatMap nodes ++ behind ∧ x.2.name? = some slot ∧
        x ∈ ts.flatMap elements := by
  obtain ⟨left, gs, i, c, cs, right, rfl, rfl, hname, hopen, -⟩ := fillAll_eq_some h
  refine ⟨left.flatMap nodes ++ nodesBefore gs, (i, c), cs.flatMap nodes,
    nodesBehind gs ++ right.flatMap nodes, ?_, ?_, hname, ?_⟩
  · simp [nodes_plugAll]
  · simp [nodes_plugAll]
  · have hc : c.isElement := by simp [Content.isElement, hname]
    simp [elements_plugAll hopen, elements_of_isElement hc]

/-- Filling a slot keeps the elements on both sides of it. -/
theorem elements_of_fillAll (h : fillAll? slot us ts = some ts') :
    ∃ before x below behind, ts.flatMap elements = before ++ (x :: below) ++ behind ∧
      ts'.flatMap elements = before ++ us.flatMap elements ++ behind ∧
        x.2.name? = some slot ∧ ∀ e ∈ before, e.2.name? ≠ some slot := by
  obtain ⟨left, gs, i, c, cs, right, rfl, rfl, hname, hopen, hbefore⟩ := fillAll_eq_some h
  have hc : c.isElement := by simp [Content.isElement, hname]
  refine ⟨left.flatMap elements ++ elementsBefore gs, (i, c), cs.flatMap elements,
    elementsBehind gs ++ right.flatMap elements, ?_, ?_, hname, hbefore⟩
  · simp [elements_plugAll hopen, elements_of_isElement hc]
  · simp [elements_plugAll hopen]

end Placed

/-! ## Filling slots of a document -/

namespace Document

open BatchRetry

variable {d : Document} {r : NodeId} {c : Content} {fs : List Frame}
  {ls us ms ts ts' others : List Placed} {slot : String}

/-- The search for a slot meets the elements of the trees in document order. -/
theorem findAmong_eq (htops : ∀ t ∈ ts, t.content.isElement)
    (hshows : ∀ t ∈ ts, ∃ fs detached, d.Shows (plug fs t :: detached)) :
    findAmong? d (ts.map Placed.id) slot =
      ((ts.flatMap Placed.elements).find? fun e => e.2.name? == some slot).map Prod.fst := by
  induction ts with
  | nil => rfl
  | cons t ts ih =>
      have hrest := ih (fun u hu => htops u (by simp [hu])) fun u hu => hshows u (by simp [hu])
      obtain ⟨gs, detached, ht⟩ := hshows t (by simp)
      have hcontent : ∀ e ∈ t.elements, d.isNamed slot e.1 = (e.2.name? == some slot) := by
        intro e he
        exact isNamed_of_content (ht.storesAt.content_of_mem (t.elements_sublist.subset he)) slot
      have helements := Placed.elements_eq_cons (htops t (by simp))
      have htree : (if d.isNamed slot t.id then some t.id else d.findDescendant? t.id slot) =
          (t.elements.find? fun e => e.2.name? == some slot).map Prod.fst := by
        rw [helements] at hcontent ⊢
        have hbelow : d.findDescendant? t.id slot =
            (t.elementsBelow.find? fun e => e.2.name? == some slot).map Prod.fst := by
          rw [findDescendant?, ht.descendants_plug, List.find?_map]
          congr 1
          exact List.find?_congr fun e he => hcontent e (List.mem_cons_of_mem _ he)
        rw [hcontent (t.id, t.content) (by simp), List.find?_cons, hbelow]
        split
        · next h => simp [h]
        · next h => simp [h]
      rw [findAmong?] at hrest ⊢
      rw [List.map_cons, List.findSome?_cons, htree, List.flatMap_cons, List.find?_append]
      cases t.elements.find? fun e => e.2.name? == some slot with
      | some e => rfl
      | none => exact hrest

/-- The first element of a name among the elements around a place where it stands. -/
theorem find_elements_of_place {left gs cs right : List _} {i : NodeId} {content : Content}
    (hname : content.name? = some slot) (hopen : Open gs)
    (hbefore : ∀ e ∈ left.flatMap Placed.elements ++ elementsBefore gs, e.2.name? ≠ some slot) :
    ((left ++ plugAll gs [Placed.node i content cs] ++ right).flatMap Placed.elements).find?
      (fun e => e.2.name? == some slot) = some (i, content) := by
  have helement : content.isElement := by simp [Content.isElement, hname]
  have hsplit : (left ++ plugAll gs [Placed.node i content cs] ++ right).flatMap
      Placed.elements = (left.flatMap Placed.elements ++ elementsBefore gs) ++ (i, content) ::
        (cs.flatMap Placed.elements ++ elementsBehind gs ++ right.flatMap Placed.elements) := by
    simp [elements_plugAll hopen, Placed.elements_of_isElement helement]
  have hnone : (left.flatMap Placed.elements ++ elementsBefore gs).find?
      (fun e => e.2.name? == some slot) = none := by
    rw [List.find?_eq_none]
    intro e he
    simpa using hbefore e he
  rw [hsplit, List.find?_append, hnone]
  simp [hname]

/-- Trees below one node, one by one. -/
theorem ShowsAmong.shows_each (h : d.ShowsAmong others (plug fs (.node r c (ls ++ ts)))) :
    ∀ t ∈ ts, ∃ fs detached, d.Shows (plug fs t :: detached) := by
  intro t ht
  obtain ⟨a, b, rfl⟩ := List.append_of_mem ht
  obtain ⟨gone, hshows⟩ := h
  refine ⟨⟨r, c, ls ++ a, b⟩ :: fs, others ++ gone, ?_⟩
  simpa [plug, Frame.fill] using hshows

/-- Filling a slot with trees that stand below the same node moves them into it. -/
theorem ShowsAmong.fillSlot (h : d.ShowsAmong others (plug fs (.node r c (ls ++ us ++ (ms ++ ts)))))
    (htops : ∀ t ∈ ts, t.content.isElement) (hfill : Placed.fillAll? slot us ts = some ts') :
    (fillSlot d (ts.map Placed.id) slot (us.map Placed.id)).ShowsAmong others
      (plug fs (.node r c (ls ++ (ms ++ ts')))) := by
  obtain ⟨left, gs, i, content, cs, right, rfl, rfl, hname, hopen, hbefore⟩ :=
    Placed.fillAll_eq_some hfill
  have hshows : d.ShowsAmong others (plug fs (.node r c ((ls ++ us ++ ms) ++
      (left ++ plugAll gs [.node i content cs] ++ right)))) := by
    simpa using h
  rw [BatchRetry.fillSlot, findAmong_eq htops hshows.shows_each,
    find_elements_of_place hname hopen hbefore]
  obtain ⟨gone, hstored⟩ := hshows
  have hplace : d.Shows (plug (gs ++ ⟨r, c, ls ++ us ++ ms ++ left, right⟩ :: fs)
      (.node i content cs) :: (others ++ gone)) := by
    rw [← plug_plugAll_singleton]
    simpa using hstored
  have hparent := hplace.storesAt.parent
  -- The slot stands directly below the node, or deeper inside one of the trees.
  cases gs with
  | nil =>
      have hrest : plug fs (.node r c (ls ++ (ms ++ (left ++ plugAll [] [.node i content cs] ++
          right)))) = plug fs (.node r c ((ls ++ ms ++ left) ++ .node i content cs :: right)) := by
        simp [plugAll]
      simpa [plugAll] using h.replaceWithMany hrest hparent
  | cons g gs =>
      have hrest : plug fs (.node r c (ls ++ (ms ++ (left ++
          plugAll (g :: gs) [.node i content cs] ++ right)))) =
            plug (gs ++ ⟨r, c, ls ++ ms ++ left, right⟩ :: fs)
              (.node g.id g.content (g.left ++ .node i content cs :: g.right)) := by
        have hplug := plug_plugAll_singleton fs (g :: gs) r c (ls ++ ms ++ left) right
          (.node i content cs)
        simpa [plug, Frame.fill] using hplug
      have hmoved := h.replaceWithMany hrest hparent
      have hresult := plug_plugAll_singleton fs gs r c (ls ++ ms ++ left) right (g.fill us)
      rw [← Frame.fill, ← hresult, plugAll_singleton] at hmoved
      simpa [plugAll] using hmoved

/-- Where there is no slot, nothing is filled. -/
theorem ShowsAmong.fillSlot_of_none (h : d.ShowsAmong others (plug fs (.node r c (ls ++ ts))))
    (htops : ∀ t ∈ ts, t.content.isElement) (hfill : Placed.fillAll? slot us ts = none) :
    findAmong? d (ts.map Placed.id) slot = none := by
  rw [findAmong_eq htops h.shows_each, Option.map_eq_none_iff, List.find?_eq_none]
  intro e he
  simpa using Placed.fillAll_eq_none.mp hfill e he

/-- Filling a slot with a copy of a tree puts the copy into it. -/
theorem ShowsAmong.fillWithTree (h : d.ShowsAmong others (plug fs (.node r c (ls ++ ts))))
    (htops : ∀ t ∈ ts, t.content.isElement) (tree : Tree)
    (hfill : Placed.fillAll? slot [.number d.size tree] ts = some ts') :
    (fillWithTree d (ts.map Placed.id) slot tree).ShowsAmong others (plug fs (.node r c (ls ++ ts'))) := by
  have hfound : findAmong? d (ts.map Placed.id) slot = _ := findAmong_eq htops h.shows_each
  obtain ⟨left, gs, i, content, cs, right, rfl, rfl, hname, hopen, hbefore⟩ :=
    Placed.fillAll_eq_some hfill
  rw [find_elements_of_place hname hopen hbefore] at hfound
  have hmade : BatchRetry.fillWithTree d ((left ++ plugAll gs [Placed.node i content cs] ++
      right).map Placed.id) slot tree = (d.graft tree).1.replace i d.size := by
    rw [BatchRetry.fillWithTree, hfound, ← id_graft d tree]
    rfl
  rw [hmade]
  cases gs with
  | nil =>
      have hplace : d.ShowsAmong others (plug fs (.node r c ((ls ++ left) ++
          .node i content cs :: right))) := by
        simpa [plugAll] using h
      simpa [plugAll] using hplace.replaceGraft tree
  | cons g gs =>
      have hplace : d.ShowsAmong others (plug (gs ++ ⟨r, c, ls ++ left, right⟩ :: fs)
          (.node g.id g.content (g.left ++ .node i content cs :: g.right))) := by
        have hplug := plug_plugAll_singleton fs (g :: gs) r c (ls ++ left) right
          (.node i content cs)
        rw [List.append_assoc, List.append_assoc, ← List.append_assoc left] at hplug
        rw [hplug] at h
        simpa [plug, Frame.fill] using h
      have hput := hplace.replaceGraft tree
      have hresult := plug_plugAll_singleton fs gs r c (ls ++ left) right
        (g.fill [Placed.number d.size tree])
      have hfilled : Placed.node g.id g.content (g.left ++ .number d.size tree :: g.right) =
          g.fill [.number d.size tree] := by
        simp [Frame.fill]
      rw [hfilled, ← hresult, plugAll_singleton] at hput
      simpa [plugAll] using hput

end Document

end RouteCompiler.Route
