import RouteCompiler.Proofs.Generation.Resolving
import RouteCompiler.Proofs.Generation.Slots

/-!
# Templates laid out

A template that stands in a document is a few frames around its slots.  Once the
slots are filled, a later search meets what they were filled with in document
order: the number of attempts, the actions, the sender, and what comes next.

Main definitions:

- `Layout`: a numbered template without what is in its slots.

Main results:

- Theorem `Layout.fillAll_fill`: which of the slots a search finds.
- Theorem `exists_layout`: both templates are laid out so.
-/

namespace RouteCompiler.Route

/-! ## Inert parts -/

/-- The names that templates use for their slots. -/
def slotNames : List String :=
  [BatchRetry.actionsSlot, BatchRetry.nextSlot, BatchRetry.retrySlot, BatchRetry.maxRetrySlot]

/-- Whether this is plain and no slot. -/
def Content.isInert (c : Content) : Bool :=
  decide c.IsPlain && c.name?.all fun name => !slotNames.contains name

theorem Content.isPlain_of_isInert {c : Content} (h : c.isInert) : c.IsPlain := by
  simp only [isInert, Bool.and_eq_true, decide_eq_true_eq] at h
  exact h.1

theorem Content.name_ne_of_isInert {c : Content} (h : c.isInert) {slot : String}
    (hslot : slot ∈ slotNames) : c.name? ≠ some slot := by
  intro hname
  simp [isInert, hname, hslot] at h

namespace Frame

/-- The nodes of a frame: its own and those on both sides. -/
def parts (f : Frame) : List (NodeId × Content) :=
  (f.id, f.content) :: f.left.flatMap Placed.nodes ++ f.right.flatMap Placed.nodes

/-- Whether a frame is an element that has inert parts only. -/
def isInert (f : Frame) : Bool :=
  f.content.isElement && f.parts.all fun e => e.2.isInert

variable {f : Frame} {slot : String} {us ts : List Placed}

theorem isInert_of_mem (h : f.isInert) {e : NodeId × Content} (he : e ∈ f.parts) :
    e.2.isInert := by
  simp only [isInert, Bool.and_eq_true, List.all_eq_true] at h
  exact h.2 e he

/-- A search passes through an inert frame. -/
theorem fill_fill (h : f.isInert) (hslot : slot ∈ slotNames) :
    Placed.fill? slot us (f.fill ts) = (Placed.fillAll? slot us ts).map fun ts => [f.fill ts] := by
  have hside : ∀ side : List Placed, (∀ e ∈ side.flatMap Placed.nodes, e ∈ f.parts) →
      Placed.fillAll? slot us side = none := by
    intro side hmem
    refine Placed.fillAll_eq_none.mpr fun e he => ?_
    obtain ⟨t, ht, he⟩ := List.mem_flatMap.mp he
    have hnode := List.mem_flatMap.mpr ⟨t, ht, t.elements_sublist.subset he⟩
    exact Content.name_ne_of_isInert (isInert_of_mem h (hmem e hnode)) hslot
  have hleft := hside f.left fun e he => by simp [parts, he]
  have hright := hside f.right fun e he => by simp [parts, he]
  have hname : f.content.name? ≠ some slot :=
    Content.name_ne_of_isInert (isInert_of_mem h (e := (f.id, f.content)) (by simp [parts])) hslot
  have helement : f.content.isElement := by
    simp only [isInert, Bool.and_eq_true] at h
    exact h.1
  rw [Frame.fill, Placed.fill?, if_neg hname, if_pos helement, Placed.fillAll_append,
    Placed.fillAll_append, hleft, hright]
  simp [Option.map_map, Function.comp_def, Frame.fill]

end Frame

/-! ## Layouts -/

/-- A slot that nothing was put into. -/
def emptySlot (n : Nat) (name : String) : Placed :=
  .node n (.element name []) []

/-- What a template ends with: it sends failed messages back, and it may send on
what is left. -/
inductive Ending where
  | back (back : Frame)
  | backAndOn (both first back second next : Frame)

/-- A numbered template without what is in its slots. -/
structure Layout where
  start : Placed
  limit : Frame
  batch : Frame
  attempt : Frame
  ending : Ending

namespace Ending

/-- Whether what is left is sent on. -/
def sendsOn : Ending → Bool
  | back _ => false
  | backAndOn .. => true

/-- The frames of an ending. -/
def frames : Ending → List Frame
  | back f => [f]
  | backAndOn both first f second next => [both, first, f, second, next]

/-- An ending with its slots filled. -/
def fill (sender next : List Placed) : Ending → Placed
  | back f => f.fill sender
  | backAndOn both first f second g => both.fill [first.fill [f.fill sender], second.fill [g.fill next]]

end Ending

namespace Layout

/-- The frames of a layout. -/
def frames (l : Layout) : List Frame :=
  [l.limit, l.batch, l.attempt] ++ l.ending.frames

/-- The nodes of a layout. -/
def parts (l : Layout) : List (NodeId × Content) :=
  l.start.nodes ++ l.frames.flatMap Frame.parts

/-- Whether a layout has inert parts only. -/
def isInert (l : Layout) : Bool :=
  l.start.content.isElement && l.start.nodes.all (fun e => e.2.isInert) &&
    l.frames.all Frame.isInert

/-- A layout with its slots filled. -/
def fill (l : Layout) (limit actions sender next : List Placed) : List Placed :=
  [l.start, l.limit.fill limit, l.batch.fill [l.attempt.fill actions], l.ending.fill sender next]

/-- The addresses of the trees of a layout. -/
def tops (l : Layout) : List NodeId :=
  (l.fill [] [] [] []).map Placed.id

end Layout

/-! ## Searching a layout -/

section Search

variable {slot : String} {us : List Placed}

/-- A search of an ending meets the sender first. -/
theorem Ending.fill_fill {ending : Ending} (h : ∀ f ∈ ending.frames, f.isInert)
    (hslot : slot ∈ slotNames) (sender next : List Placed) :
    Placed.fill? slot us (ending.fill sender next) =
      ((Placed.fillAll? slot us sender).map fun sender => [ending.fill sender next]).or
        (if ending.sendsOn then
          (Placed.fillAll? slot us next).map fun next => [ending.fill sender next]
        else none) := by
  cases ending with
  | back f =>
      have hf := h f (by simp [frames])
      simp [fill, sendsOn, Frame.fill_fill hf hslot]
  | backAndOn both first f second g =>
      simp only [frames, List.forall_mem_cons] at h
      obtain ⟨hboth, hfirst, hf, hsecond, hg, -⟩ := h
      simp only [fill, sendsOn, Frame.fill_fill hboth hslot,
        Frame.fill_fill hfirst hslot, Frame.fill_fill hf hslot, Frame.fill_fill hsecond hslot,
        Frame.fill_fill hg hslot, Placed.fillAll?]
      cases Placed.fillAll? slot us sender <;> cases Placed.fillAll? slot us next <;> simp

/-- A search of a layout meets what is in its slots in document order. -/
theorem Layout.fillAll_fill {l : Layout} (h : l.isInert) (hslot : slot ∈ slotNames)
    (limit actions sender next : List Placed) :
    Placed.fillAll? slot us (l.fill limit actions sender next) =
      ((Placed.fillAll? slot us limit).map fun limit => l.fill limit actions sender next).or
      (((Placed.fillAll? slot us actions).map fun actions => l.fill limit actions sender next).or
      (((Placed.fillAll? slot us sender).map fun sender => l.fill limit actions sender next).or
      (if l.ending.sendsOn then
        (Placed.fillAll? slot us next).map fun next => l.fill limit actions sender next
      else none))) := by
  simp only [isInert, Bool.and_eq_true, List.all_eq_true, frames, List.cons_append,
    List.nil_append, List.forall_mem_cons] at h
  obtain ⟨⟨-, hstart⟩, hlimit, hbatch, hattempt, hending⟩ := h
  have hnone : Placed.fill? slot us l.start = none := by
    refine Placed.fill_eq_none.mpr fun e he => ?_
    exact Content.name_ne_of_isInert (hstart e (l.start.elements_sublist.subset he)) hslot
  simp only [fill, Placed.fillAll_cons, hnone, Frame.fill_fill hlimit hslot,
    Frame.fill_fill hbatch hslot, Frame.fill_fill hattempt hslot,
    Ending.fill_fill hending hslot, Placed.fillAll?]
  cases Placed.fillAll? slot us limit <;> cases Placed.fillAll? slot us actions <;>
    cases Placed.fillAll? slot us sender <;> cases l.ending.sendsOn <;>
      cases Placed.fillAll? slot us next <;> simp

@[simp] theorem fillAll_emptySlot (n : Nat) (slot : String) :
    Placed.fillAll? slot us [emptySlot n slot] = some us := by
  simp [emptySlot, Placed.fillAll?, Placed.fill?, Content.name?]

theorem fillAll_emptySlot_of_ne {name : String} (h : name ≠ slot) (n : Nat) :
    Placed.fillAll? slot us [emptySlot n name] = none := by
  simp [emptySlot, Placed.fillAll?, Placed.fill?, Content.name?, Content.isElement, h]

end Search

/-- The trees of a layout are elements. -/
theorem Layout.isElement_of_mem_fill {l : Layout} (h : l.isInert)
    {limit actions sender next : List Placed} :
    ∀ t ∈ l.fill limit actions sender next, t.content.isElement := by
  simp only [isInert, Bool.and_eq_true, frames, List.all_eq_true, List.cons_append,
    List.nil_append, List.forall_mem_cons, Frame.isInert] at h
  obtain ⟨⟨hstart, -⟩, ⟨hlimit, -⟩, ⟨hbatch, -⟩, -, hending⟩ := h
  have hlast : (l.ending.fill sender next).content.isElement := by
    cases hl : l.ending with
    | back f => exact (hending f (by simp [hl, Ending.frames])).1
    | backAndOn both first f second g => exact (hending both (by simp [hl, Ending.frames])).1
  simpa [fill, Frame.fill] using ⟨hstart, hlimit, hbatch, hlast⟩

/-- What is in the slots has no influence on the addresses of the trees. -/
theorem Layout.map_id_fill (l : Layout) (limit actions sender next : List Placed) :
    (l.fill limit actions sender next).map Placed.id = l.tops := by
  obtain ⟨start, limitFrame, batch, attempt, ending⟩ := l
  cases ending <;> rfl

/-- A layout that does not send on has no slot for what comes next. -/
theorem Layout.fill_of_not_sendsOn {l : Layout} (h : l.ending.sendsOn = false)
    (limit actions sender next next' : List Placed) :
    l.fill limit actions sender next = l.fill limit actions sender next' := by
  obtain ⟨start, limitFrame, batch, attempt, ending⟩ := l
  cases ending with
  | back f => rfl
  | backAndOn both first f second g => exact absurd h (by simp [Ending.sendsOn])

/-! ## What a layout holds -/

section Holds

variable {P : Content → Bool}

/-- An inert frame adds nothing that inert content does not have. -/
theorem Frame.tally_fill {f : Frame} (h : f.isInert) (hP : ∀ c : Content, c.isInert → P c = false)
    (ts : List Placed) : Placed.tally P [f.fill ts] = Placed.tally P ts := by
  have hpart : ∀ e ∈ f.parts, P e.2 = false := by
    intro e he
    exact hP e.2 (isInert_of_mem h he)
  have hside : ∀ side : List Placed, (∀ e ∈ side.flatMap Placed.nodes, e ∈ f.parts) →
      Placed.tally P side = 0 := by
    intro side hmem
    refine List.countP_eq_zero.mpr fun e he => ?_
    obtain ⟨t, ht, he⟩ := List.mem_flatMap.mp he
    have hnode := List.mem_flatMap.mpr ⟨t, ht, t.elements_sublist.subset he⟩
    simp [hpart e (hmem e hnode)]
  have hleft := hside f.left fun e he => by simp [parts, he]
  have hright := hside f.right fun e he => by simp [parts, he]
  have htop := hpart (f.id, f.content) (by simp [parts])
  have helement : f.content.isElement := by
    simp only [isInert, Bool.and_eq_true] at h
    exact h.1
  rw [Placed.tally, List.flatMap_singleton, Frame.fill, Placed.elements_of_isElement helement]
  simp only [Placed.tally] at hleft hright
  simp [htop, hleft, hright, Placed.tally]

theorem Ending.tally_fill {ending : Ending} (h : ∀ f ∈ ending.frames, f.isInert)
    (hP : ∀ c : Content, c.isInert → P c = false) (sender next : List Placed) :
    Placed.tally P [ending.fill sender next] =
      Placed.tally P sender + if ending.sendsOn then Placed.tally P next else 0 := by
  cases ending with
  | back f =>
      have hf := h f (by simp [frames])
      simp [fill, sendsOn, Frame.tally_fill hf hP]
  | backAndOn both first f second g =>
      simp only [frames, List.forall_mem_cons] at h
      obtain ⟨hboth, hfirst, hf, hsecond, hg, -⟩ := h
      rw [fill, Frame.tally_fill hboth hP, Placed.tally_cons, Frame.tally_fill hfirst hP,
        Frame.tally_fill hf hP, Frame.tally_fill hsecond hP, Frame.tally_fill hg hP]
      rfl

/-- A layout adds nothing that inert content does not have to what is in its
slots. -/
theorem Layout.tally_fill {l : Layout} (h : l.isInert) (hP : ∀ c : Content, c.isInert → P c = false)
    (limit actions sender next : List Placed) :
    Placed.tally P (l.fill limit actions sender next) =
      Placed.tally P limit + Placed.tally P actions + Placed.tally P sender +
        if l.ending.sendsOn then Placed.tally P next else 0 := by
  simp only [isInert, Bool.and_eq_true, List.all_eq_true, frames, List.cons_append,
    List.nil_append, List.forall_mem_cons] at h
  obtain ⟨⟨-, hstart⟩, hlimit, hbatch, hattempt, hending⟩ := h
  have hnone : Placed.tally P [l.start] = 0 := by
    refine List.countP_eq_zero.mpr fun e he => ?_
    rw [List.flatMap_singleton] at he
    have hinert := hstart e (l.start.elements_sublist.subset he)
    simp [hP e.2 hinert]
  rw [fill, Placed.tally_cons, Placed.tally_cons P (l.limit.fill limit),
    Placed.tally_cons P (l.batch.fill _), hnone,
    Frame.tally_fill hlimit hP, Frame.tally_fill hbatch hP, Frame.tally_fill hattempt hP,
    Ending.tally_fill hending hP]
  omega

theorem Frame.nodes_fill (f : Frame) (ts : List Placed) :
    (f.fill ts).nodes = (f.id, f.content) ::
      (f.left.flatMap Placed.nodes ++ ts.flatMap Placed.nodes ++ f.right.flatMap Placed.nodes) := by
  simp [Frame.fill]

theorem Frame.nodes_sublist_fill (f : Frame) (ts : List Placed) :
    (ts.flatMap Placed.nodes).Sublist (f.fill ts).nodes := by
  rw [nodes_fill, List.append_assoc]
  exact .cons _ ((List.sublist_append_left _ _).trans (List.sublist_append_right _ _))

theorem Ending.nodes_sublist_fill (ending : Ending) (sender next : List Placed) :
    (if ending.sendsOn then next.flatMap Placed.nodes else []).Sublist
      (ending.fill sender next).nodes := by
  cases ending with
  | back f => exact List.nil_sublist _
  | backAndOn both first f second g =>
      have hg := g.nodes_sublist_fill next
      have hsecond := second.nodes_sublist_fill [g.fill next]
      have hboth := both.nodes_sublist_fill [first.fill [f.fill sender], second.fill [g.fill next]]
      simp only [List.flatMap_cons, List.flatMap_nil, List.append_nil] at hsecond hboth
      exact (hg.trans hsecond).trans ((List.sublist_append_right _ _).trans hboth)

/-- What is in the slots for the actions and for what comes next stays in order. -/
theorem Layout.nodes_sublist_fill (l : Layout) (limit actions sender next : List Placed) :
    (actions.flatMap Placed.nodes ++ if l.ending.sendsOn then next.flatMap Placed.nodes else
      []).Sublist ((l.fill limit actions sender next).flatMap Placed.nodes) := by
  have hattempt := l.attempt.nodes_sublist_fill actions
  have hbatch := l.batch.nodes_sublist_fill [l.attempt.fill actions]
  have hending := l.ending.nodes_sublist_fill sender next
  rw [List.flatMap_singleton] at hbatch
  have hboth := (hattempt.trans hbatch).append hending
  rw [fill]
  simp only [List.flatMap_cons, List.flatMap_nil, List.append_nil]
  exact hboth.trans ((List.sublist_append_right _ _).trans (List.sublist_append_right _ _))

theorem Frame.mem_nodes_fill {f : Frame} {ts : List Placed} {e : NodeId × Content} :
    e ∈ (f.fill ts).nodes ↔ e ∈ f.parts ∨ e ∈ ts.flatMap Placed.nodes := by
  rw [nodes_fill, parts]
  simp only [List.mem_cons, List.mem_append, List.cons_append]
  tauto

theorem Ending.mem_nodes_fill {ending : Ending} {sender next : List Placed}
    {e : NodeId × Content} :
    e ∈ (ending.fill sender next).nodes ↔ e ∈ ending.frames.flatMap Frame.parts ∨
      e ∈ sender.flatMap Placed.nodes ∨ ending.sendsOn ∧ e ∈ next.flatMap Placed.nodes := by
  cases ending with
  | back f => simp [fill, frames, sendsOn, Frame.mem_nodes_fill]
  | backAndOn both first f second g =>
      simp only [fill, frames, sendsOn, Frame.mem_nodes_fill, List.flatMap_cons, List.flatMap_nil,
        List.append_nil, List.mem_append, true_and]
      tauto

/-- The nodes of a layout with its slots filled. -/
theorem Layout.mem_nodes_fill {l : Layout} {limit actions sender next : List Placed}
    {e : NodeId × Content} :
    e ∈ (l.fill limit actions sender next).flatMap Placed.nodes ↔
      e ∈ l.parts ∨ e ∈ limit.flatMap Placed.nodes ∨ e ∈ actions.flatMap Placed.nodes ∨
        e ∈ sender.flatMap Placed.nodes ∨
          l.ending.sendsOn ∧ e ∈ next.flatMap Placed.nodes := by
  simp only [fill, parts, frames, Frame.mem_nodes_fill, Ending.mem_nodes_fill, List.flatMap_cons,
    List.flatMap_nil, List.append_nil, List.cons_append, List.nil_append, List.mem_append]
  tauto

end Holds

/-! ## Templates -/

section Templates

open BatchRetry

theorem exists_layout_consumerOnly (n : Nat) :
    ∃ l i j k, Placed.numberAll n consumerOnly =
        Layout.fill l [emptySlot i maxRetrySlot] [emptySlot j actionsSlot]
          [emptySlot k retrySlot] [emptySlot n nextSlot] ∧
      l.isInert = true ∧ l.ending.sendsOn = false :=
  ⟨⟨_, ⟨_, _, [], []⟩, ⟨_, _, [_], []⟩, ⟨_, _, [_], [_]⟩, .back ⟨_, _, [_, _, _], []⟩⟩, _, _, _,
    rfl, rfl, rfl⟩

theorem exists_layout_consumerProducer (n : Nat) :
    ∃ l i j k m, Placed.numberAll n consumerProducer =
        Layout.fill l [emptySlot i maxRetrySlot] [emptySlot j actionsSlot]
          [emptySlot k retrySlot] [emptySlot m nextSlot] ∧
      l.isInert = true ∧ l.ending.sendsOn = true :=
  ⟨⟨_, ⟨_, _, [], []⟩, ⟨_, _, [_], []⟩, ⟨_, _, [_], [_]⟩, .backAndOn ⟨_, _, [], []⟩
    ⟨_, _, [], []⟩ ⟨_, _, [_, _, _], []⟩ ⟨_, _, [], []⟩ ⟨_, _, [_, _, _], []⟩⟩, _, _, _, _,
    rfl, rfl, rfl⟩

/-- A copy of a template is a layout whose addresses start where numbering starts. -/
theorem exists_layout (n : Nat) (onward : Bool) :
    ∃ l i j k m, Placed.numberAll n (if onward then consumerProducer else consumerOnly) =
        Layout.fill l [emptySlot i maxRetrySlot] [emptySlot j actionsSlot]
          [emptySlot k retrySlot] [emptySlot m nextSlot] ∧
      l.isInert = true ∧ l.ending.sendsOn = onward ∧ (∀ e ∈ l.parts, n ≤ e.1) ∧
        n ≤ k ∧ n ≤ m := by
  have hfresh : ∀ {l : Layout} {limit actions sender next : List Placed} {trees : List Tree},
      Placed.numberAll n trees = l.fill limit actions sender next →
        ∀ e ∈ (l.fill limit actions sender next).flatMap Placed.nodes, n ≤ e.1 := by
    intro l limit actions sender next trees heq e he
    refine Placed.le_of_mem_numberAll trees n e.1 ?_
    rw [heq]
    obtain ⟨t, ht, he⟩ := List.mem_flatMap.mp he
    exact List.mem_flatMap.mpr ⟨t, ht, List.mem_map_of_mem he⟩
  cases onward with
  | false =>
      obtain ⟨l, i, j, k, heq, hinert, hends⟩ := exists_layout_consumerOnly n
      have hmem := hfresh heq
      refine ⟨l, i, j, k, n, heq, hinert, hends, ?_, ?_, Nat.le_refl n⟩
      · exact fun e he => hmem e (Layout.mem_nodes_fill.mpr (.inl he))
      · refine hmem (k, .element retrySlot []) (Layout.mem_nodes_fill.mpr ?_)
        simp [emptySlot]
  | true =>
      obtain ⟨l, i, j, k, m, heq, hinert, hends⟩ := exists_layout_consumerProducer n
      have hmem := hfresh heq
      refine ⟨l, i, j, k, m, heq, hinert, hends, ?_, ?_, ?_⟩
      · exact fun e he => hmem e (Layout.mem_nodes_fill.mpr (.inl he))
      · refine hmem (k, .element retrySlot []) (Layout.mem_nodes_fill.mpr ?_)
        simp [emptySlot]
      · refine hmem (m, .element nextSlot []) (Layout.mem_nodes_fill.mpr ?_)
        simp [emptySlot, hends]

end Templates

end RouteCompiler.Route
