import RouteCompiler.Proofs.Generation.Exhaustion
import Mathlib.Data.List.Forall2

/-!
# Displaced actions

What follows an expanded consumer moves into a template, and two slots of the template
are searched for only then.  The search does not tell them from actions that have
their names: such an action is taken for the slot, and it is lost with all below it.
Without such an action an expansion keeps every node, in document order.

Main definitions:

- `Kept`: all nodes are kept in document order, references with another URI.
- `Placed.hasLateSlot`: whether an element has the name of one of the two slots.

Main results:

- Theorem `Expansion.nodes_sublist_result`: an expansion keeps actions of other names.
- Theorem `Expansion.exists_lost`: an action that has the name of a slot is lost.
-/

namespace RouteCompiler

open RouteCompiler.Route

namespace Route

/-! ## Nodes that are kept -/

theorem Attribute.set_set (key u v : String) (attributes : List Attribute) :
    set key v (set key u attributes) = set key v attributes := by
  induction attributes with
  | nil => simp [set]
  | cons a rest ih =>
      by_cases h : a.key = key
      · simp [set, h]
      · simp [set, h, ih]

/-- What a node may hold at the end: what it held before, or the same reference with
another URI. -/
def Content.KeptAs (c c' : Content) : Prop :=
  c' = c ∨ c.isReference ∧ ∃ uri, c' = c.setAttribute Uri.attributeKey uri

theorem Content.KeptAs.trans {c c' c'' : Content} (h : c.KeptAs c') (h' : c'.KeptAs c'') :
    c.KeptAs c'' := by
  rcases h with rfl | ⟨hreference, u, rfl⟩
  · exact h'
  · rcases h' with rfl | ⟨-, v, rfl⟩
    · exact .inr ⟨hreference, u, rfl⟩
    · refine .inr ⟨hreference, v, ?_⟩
      cases c with
      | element name attributes => simp [setAttribute, Attribute.set_set]
      | text value => rfl

/-- All nodes are kept, in document order; others may stand between them. -/
def Kept : List (NodeId × Content) → List (NodeId × Content) → Prop :=
  List.SublistForall₂ fun e e' => e.1 = e'.1 ∧ e.2.KeptAs e'.2

namespace Kept

variable {es es' es'' : List (NodeId × Content)}

theorem of_sublist (h : es.Sublist es') : Kept es es' := by
  rw [Kept, List.sublistForall₂_iff]
  exact ⟨es, List.forall₂_same.mpr fun e _ => ⟨rfl, .inl rfl⟩, h⟩

theorem trans (h : Kept es es') (h' : Kept es' es'') : Kept es es'' := by
  have : IsTrans (NodeId × Content) fun e e' => e.1 = e'.1 ∧ e.2.KeptAs e'.2 :=
    ⟨fun _ _ _ h h' => ⟨h.1.trans h'.1, h.2.trans h'.2⟩⟩
  exact List.SublistForall₂.is_trans.trans _ _ _ h h'

/-- A node that is kept is still there. -/
theorem mem_ids (h : Kept es es') {x : NodeId} (hx : x ∈ es.map Prod.fst) :
    x ∈ es'.map Prod.fst := by
  obtain ⟨l, hall, hsub⟩ := List.sublistForall₂_iff.mp h
  have hids : es.map Prod.fst = l.map Prod.fst := by
    clear h hsub hx
    induction hall with
    | nil => rfl
    | cons hhead htail ih => rw [List.map_cons, List.map_cons, hhead.1, ih]
  exact (hsub.map Prod.fst).subset (hids ▸ hx)

/-- A node in the middle holds something else. -/
theorem replace {x : NodeId} {c c' : Content} (h : c.KeptAs c')
    (before behind : List (NodeId × Content)) :
    Kept (before ++ (x, c) :: behind) (before ++ (x, c') :: behind) := by
  rw [Kept, List.sublistForall₂_iff]
  refine ⟨before ++ (x, c') :: behind, ?_, List.Sublist.refl _⟩
  refine List.rel_append (List.forall₂_same.mpr fun e _ => ⟨rfl, .inl rfl⟩) (.cons ⟨rfl, h⟩ ?_)
  exact List.forall₂_same.mpr fun e _ => ⟨rfl, .inl rfl⟩

end Kept

/-! ## Names of slots that are searched for late -/

/-- Whether this has the name of a slot that is searched for when the actions have been
moved. -/
def Content.isLateSlot (c : Content) : Bool :=
  c.name? == some BatchRetry.nextSlot || c.name? == some BatchRetry.retrySlot

theorem Content.isLateSlot_eq_false {c : Content} :
    c.isLateSlot = false ↔ c.name? ≠ some BatchRetry.nextSlot ∧
      c.name? ≠ some BatchRetry.retrySlot := by
  simp [isLateSlot]

theorem Content.isLateSlot_of_isInert {c : Content} (h : c.isInert) : c.isLateSlot = false :=
  isLateSlot_eq_false.mpr ⟨name_ne_of_isInert h mem_slotNames.2.1,
    name_ne_of_isInert h mem_slotNames.2.2.1⟩

namespace Placed

/-- Whether an element among some trees has the name of such a slot. -/
def hasLateSlot (ts : List Placed) : Bool :=
  (ts.flatMap elements).any fun e => e.2.isLateSlot

theorem hasLateSlot_append (ts us : List Placed) :
    hasLateSlot (ts ++ us) = (hasLateSlot ts || hasLateSlot us) := by
  simp [hasLateSlot]

theorem hasLateSlot_eq_decide (ts : List Placed) :
    hasLateSlot ts = decide (0 < tally Content.isLateSlot ts) := by
  rw [Bool.eq_iff_iff, hasLateSlot, List.any_eq_true, decide_eq_true_iff, tally,
    List.countP_pos_iff]

variable {s : Snapshot} {ts us behind : List Placed} {slot : String} {n : NodeId}

theorem hasLateSlot_contained_of_quiet (h : hasLateSlot ts = false) :
    hasLateSlot (contained s ts) = false := by
  rw [← contained_append_comesNext s ts, hasLateSlot_append, Bool.or_eq_false_iff] at h
  exact h.1

theorem map_fst_nodes (ts : List Placed) :
    (ts.flatMap nodes).map Prod.fst = ts.flatMap ids := by
  rw [List.map_flatMap]
  rfl

/-- Without such a name the slot of the template is found. -/
theorem settle_eq (h : hasLateSlot ts = false)
    (hslot : slot = BatchRetry.nextSlot ∨ slot = BatchRetry.retrySlot) :
    settle slot n us ts = (ts, us) := by
  have hnone : fillAll? slot us ts = none := by
    refine fillAll_eq_none.mpr fun e he => ?_
    have hlate := List.any_eq_false.mp h e he
    rw [Bool.not_eq_true, Content.isLateSlot_eq_false] at hlate
    rcases hslot with rfl | rfl
    · exact hlate.1
    · exact hlate.2
  rw [settle, hnone]

/-- What is settled was there, or is the slot. -/
theorem mem_settle {e : NodeId × Content}
    (h : e ∈ (settle slot n us ts).1.flatMap nodes ∨ e ∈ (settle slot n us ts).2.flatMap nodes) :
    e ∈ ts.flatMap nodes ∨ e ∈ us.flatMap nodes ∨ e = (n, .element slot []) := by
  rw [settle] at h
  split at h
  · next filled hfilled =>
    obtain ⟨before, x, below, behind, hts, hfilled', -⟩ := nodes_of_fillAll hfilled
    rw [hfilled'] at h
    rw [hts]
    rcases h with h | h
    · simp only [List.mem_append, List.mem_cons] at h ⊢
      tauto
    · simp [emptySlot] at h
      simp [h]
  · rcases h with h | h
    · exact .inl h
    · exact .inr (.inl h)

/-- What was nowhere, and is not the slot, is not settled. -/
theorem not_mem_settle {x : NodeId} (hts : x ∉ ts.flatMap ids) (hus : x ∉ us.flatMap ids)
    (hx : x ≠ n) :
    x ∉ (settle slot n us ts).1.flatMap ids ∧ x ∉ (settle slot n us ts).2.flatMap ids := by
  have hnot : ∀ e : NodeId × Content,
      (e ∈ ts.flatMap nodes ∨ e ∈ us.flatMap nodes ∨ e = (n, .element slot [])) → x ≠ e.1 := by
    rintro e (he | he | rfl) rfl
    · exact hts (map_fst_nodes ts ▸ List.mem_map_of_mem he)
    · exact hus (map_fst_nodes us ▸ List.mem_map_of_mem he)
    · exact hx rfl
  rw [← map_fst_nodes, ← map_fst_nodes]
  constructor
  · intro hmem
    obtain ⟨e, he, heq⟩ := List.mem_map.mp hmem
    exact hnot e (mem_settle (.inl he)) heq.symm
  · intro hmem
    obtain ⟨e, he, heq⟩ := List.mem_map.mp hmem
    exact hnot e (mem_settle (.inr he)) heq.symm

/-- A name of a slot that is found is the one of a node that is lost. -/
theorem exists_lost_of_settle (h : fillAll? slot us ts ≠ none) (hnodup : (ts.flatMap ids).Nodup)
    (hus : ∀ e ∈ ts.flatMap nodes, e.2.isLateSlot → e.1 ∉ us.flatMap ids)
    (hslot : slot = BatchRetry.nextSlot ∨ slot = BatchRetry.retrySlot) :
    ∃ e ∈ ts.flatMap nodes, e.2.isLateSlot ∧ e.1 ∉ (settle slot n us ts).1.flatMap ids ∧
      (settle slot n us ts).2 = [emptySlot n slot] := by
  cases hfilled : fillAll? slot us ts with
  | none => exact absurd hfilled h
  | some filled =>
      obtain ⟨before, x, below, behind, hts, hfilled', hname, -⟩ := nodes_of_fillAll hfilled
      have hmem : x ∈ ts.flatMap nodes := by simp [hts]
      have hlate : x.2.isLateSlot := by
        rcases hslot with rfl | rfl
        · simp [Content.isLateSlot, hname]
        · simp [Content.isLateSlot, hname]
      have hnot : x.1 ∉ before.map Prod.fst ++ (below.map Prod.fst ++ behind.map Prod.fst) := by
        rw [← map_fst_nodes, hts] at hnodup
        simp only [List.map_append, List.map_cons, List.append_assoc, List.cons_append] at hnodup
        exact (List.nodup_cons.mp (List.nodup_middle.mp hnodup)).1
      simp only [List.mem_append, not_or] at hnot
      obtain ⟨hbefore, -, hbehind⟩ := hnot
      have hplaced := hus x hmem hlate
      have hsettle : settle slot n us ts = (filled, [emptySlot n slot]) := by
        rw [settle, hfilled]
      refine ⟨x, hmem, hlate, ?_, by rw [hsettle]⟩
      rw [← map_fst_nodes] at hplaced
      rw [hsettle, ← map_fst_nodes, hfilled', List.map_append, List.map_append]
      simp only [List.mem_append, not_or]
      exact ⟨⟨hbefore, hplaced⟩, hbehind⟩

theorem mem_parts {e : NodeId × Content} (h : e ∈ (contained s behind).flatMap nodes ∨
    e ∈ (comesNext s behind).flatMap nodes) : e ∈ behind.flatMap nodes := by
  rw [← contained_append_comesNext s behind, List.flatMap_append, List.mem_append]
  exact h

theorem nodup_contained (h : (behind.flatMap ids).Nodup) :
    ((contained s behind).flatMap ids).Nodup := by
  rw [← contained_append_comesNext s behind, List.flatMap_append] at h
  exact (List.nodup_append.mp h).1

/-- What is moved into the slot of the actions is not moved behind it. -/
theorem not_mem_comesNext (h : (behind.flatMap ids).Nodup) {e : NodeId × Content}
    (he : e ∈ (contained s behind).flatMap nodes) : e.1 ∉ (comesNext s behind).flatMap ids := by
  rw [← contained_append_comesNext s behind, List.flatMap_append] at h
  apply List.disjoint_of_nodup_append h
  rw [← map_fst_nodes]
  exact List.mem_map_of_mem he

theorem not_mem_ids_of_lt {low : Nat} {x : NodeId} (hx : x < low)
    (h : ∀ e ∈ ts.flatMap nodes, low ≤ e.1) : x ∉ ts.flatMap ids := by
  intro hmem
  rw [← map_fst_nodes] at hmem
  obtain ⟨e, he, rfl⟩ := List.mem_map.mp hmem
  exact Nat.not_le_of_lt hx (h e he)

theorem le_of_mem_emptySlot {low n : Nat} (hn : low ≤ n) {e : NodeId × Content}
    (he : e ∈ [emptySlot n slot].flatMap nodes) : low ≤ e.1 := by
  rw [List.mem_singleton.mp he]
  exact hn

end Placed

theorem Layout.isInert_of_mem_parts {l : Layout} (h : l.isInert) {e : NodeId × Content}
    (he : e ∈ l.parts) : e.2.isInert := by
  simp only [isInert, Bool.and_eq_true, List.all_eq_true] at h
  obtain ⟨⟨-, hstart⟩, hframes⟩ := h
  rcases List.mem_append.mp he with he | he
  · exact hstart e he
  · obtain ⟨f, hf, he⟩ := List.mem_flatMap.mp he
    exact Frame.isInert_of_mem (hframes f hf) he

theorem Layout.isPlain_ending {l : Layout} (h : l.isInert) (sender next : List Placed) :
    (l.ending.fill sender next).content.IsPlain := by
  have hframe : ∀ f ∈ l.frames, f.content.IsPlain := by
    intro f hf
    have hmem : (f.id, f.content) ∈ l.parts :=
      List.mem_append_right _ (List.mem_flatMap.mpr ⟨f, hf, by simp [Frame.parts]⟩)
    exact Content.isPlain_of_isInert (isInert_of_mem_parts h hmem)
  cases hending : l.ending with
  | back f => exact hframe f (by simp [frames, hending, Ending.frames])
  | backAndOn both first f second g => exact hframe both (by simp [frames, hending, Ending.frames])

/-! ## One round -/

theorem Content.declares_of_no_attributes (name id : String) :
    (Content.element name []).declares id = false := by
  simp [declares, attribute?, Attribute.find?]

/-- A node that an expansion adds has a free address and declares no bean. -/
structure IsAdded (low : Nat) (e : NodeId × Content) : Prop where
  le : low ≤ e.1
  declares : ∀ id, e.2.declares id = false

namespace Expansion

open Placed

variable {y : Expansion} {low maxRetry : Nat} {onward : Bool} {s : Snapshot} {uri : String}
  {behind : List Placed} {e : NodeId × Content}

theorem mem_withNext (hy : y.Fits low onward)
    (he : e ∈ (y.withNext s behind).1.flatMap nodes ∨ e ∈ (y.withNext s behind).2.flatMap nodes) :
    e ∈ behind.flatMap nodes ∨ IsAdded low e := by
  rcases mem_settle he with he | he | rfl
  · exact .inl (mem_parts (.inl he))
  · exact .inl (mem_parts (.inr he))
  · exact .inr ⟨hy.nextAt, Content.declares_of_no_attributes _⟩

theorem le_of_mem_number_singleton {n : Nat} {t : Tree} (hn : low ≤ n)
    (he : e ∈ [Placed.number n t].flatMap nodes) : low ≤ e.1 := by
  rw [List.flatMap_singleton] at he
  exact Nat.le_trans hn (le_of_mem_number t n e.1 (List.mem_map_of_mem he))

/-- The number of attempts is written with inert nodes. -/
theorem isInert_of_mem_limit {n m : Nat}
    (he : e ∈ [Placed.number n (BatchRetry.constant (toString m))].flatMap nodes) :
    e.2.isInert := by
  rw [List.flatMap_singleton] at he
  have hcontent := content_mem_of_mem_number he
  simp only [BatchRetry.constant, Tree.element, Tree.text, Tree.contents, Tree.contentsAll,
    List.append_nil, List.mem_cons, List.not_mem_nil, or_false] at hcontent
  rcases hcontent with hcontent | hcontent
  · rw [hcontent]
    decide
  · rw [hcontent]
    rfl

/-- The element that sends messages back has nothing below it. -/
theorem eq_of_mem_sender {n : Nat}
    (he : e ∈ [Placed.number n (BatchRetry.sender uri)].flatMap nodes) :
    e = (n, .element Marker.oneWayProducer.tagName [⟨Uri.attributeKey, uri⟩]) :=
  List.mem_singleton.mp he

/-- What stands behind an expanded consumer stood there before, or is new. -/
theorem mem_result (hy : y.Fits low onward)
    (he : e ∈ (y.result s maxRetry uri behind).flatMap nodes) :
    e ∈ behind.flatMap nodes ∨ IsAdded low e := by
  have hsender : e ∈ (y.withSender s uri behind).1.flatMap nodes ∨
      e ∈ (y.withSender s uri behind).2.flatMap nodes →
        e ∈ behind.flatMap nodes ∨ IsAdded low e := by
    intro he
    rcases mem_settle he with he | he | rfl
    · exact mem_withNext hy (.inl he)
    · rw [eq_of_mem_sender he]
      exact .inr ⟨hy.senderAt, Content.declares_of_marker rfl⟩
    · exact .inr ⟨hy.retryAt, Content.declares_of_no_attributes _⟩
  rw [result, Layout.mem_nodes_fill] at he
  rcases he with he | he | he | he | ⟨-, he⟩
  · have hinert := Layout.isInert_of_mem_parts hy.isInert he
    exact .inr ⟨hy.parts e he, (Content.isPlain_of_isInert hinert).declares⟩
  · have hinert := isInert_of_mem_limit he
    exact .inr ⟨le_of_mem_number_singleton hy.limitAt he,
      (Content.isPlain_of_isInert hinert).declares⟩
  · exact hsender (.inl he)
  · exact hsender (.inr he)
  · exact mem_withNext hy (.inr he)

/-! ### Where no action has the name of a slot -/

theorem result_of_quiet (h : hasLateSlot (contained s behind) = false) :
    y.result s maxRetry uri behind =
      y.layout.fill [.number y.limitAt (BatchRetry.constant (toString maxRetry))]
        (contained s behind) [.number y.senderAt (BatchRetry.sender uri)]
          (comesNext s behind) := by
  rw [result, withSender, withNext, settle_eq h (.inl rfl), settle_eq h (.inr rfl)]

/-- A template sends on only where something comes next. -/
theorem next_of_sendsOn (hy : y.Fits low (!(comesNext s behind).isEmpty)) :
    (if y.layout.ending.sendsOn then (comesNext s behind).flatMap nodes else []) =
      (comesNext s behind).flatMap nodes := by
  rw [hy.sendsOn]
  cases comesNext s behind <;> rfl

theorem nodes_sublist_result (hy : y.Fits low (!(comesNext s behind).isEmpty))
    (h : hasLateSlot (contained s behind) = false) :
    (behind.flatMap nodes).Sublist ((y.result s maxRetry uri behind).flatMap nodes) := by
  have hsub := y.layout.nodes_sublist_fill
    [.number y.limitAt (BatchRetry.constant (toString maxRetry))] (contained s behind)
    [.number y.senderAt (BatchRetry.sender uri)] (comesNext s behind)
  rw [next_of_sendsOn hy, ← List.flatMap_append, contained_append_comesNext] at hsub
  rw [result_of_quiet h]
  exact hsub

/-- A node with the name of such a slot stood there before. -/
theorem mem_of_isLateSlot (hy : y.Fits low onward) (h : hasLateSlot (contained s behind) = false)
    (he : e ∈ (y.result s maxRetry uri behind).flatMap nodes) (hlate : e.2.isLateSlot) :
    e ∈ behind.flatMap nodes := by
  rw [result_of_quiet h, Layout.mem_nodes_fill] at he
  rcases he with he | he | he | he | ⟨-, he⟩
  · rw [Content.isLateSlot_of_isInert (Layout.isInert_of_mem_parts hy.isInert he)] at hlate
    cases hlate
  · rw [Content.isLateSlot_of_isInert (isInert_of_mem_limit he)] at hlate
    cases hlate
  · exact mem_parts (.inl he)
  · rw [eq_of_mem_sender he] at hlate
    cases hlate
  · exact mem_parts (.inr he)

/-- Such an expansion keeps the number of elements that a template has none of. -/
theorem tally_result_of_quiet {P : Content → Bool} (hinert : ∀ c, c.isInert → P c = false)
    (hsender : P (.element Marker.oneWayProducer.tagName [⟨Uri.attributeKey, uri⟩]) = false)
    (hy : y.Fits low (!(comesNext s behind).isEmpty))
    (h : hasLateSlot (contained s behind) = false) (maxRetry : Nat) :
    tally P (y.result s maxRetry uri behind) = tally P behind := by
  have hlimit := tally_limit (hinert (.element "constant" []) (by decide)) y.limitAt maxRetry
  have hnext : (if y.layout.ending.sendsOn then tally P (comesNext s behind) else 0) =
      tally P (comesNext s behind) := by
    rw [hy.sendsOn]
    cases comesNext s behind <;> rfl
  have hsplit := tally_append P (contained s behind) (comesNext s behind)
  rw [contained_append_comesNext] at hsplit
  rw [result_of_quiet h, Layout.tally_fill hy.isInert hinert, hlimit, tally_sender hsender, hnext]
  omega

theorem hasLateSlot_result (hy : y.Fits low (!(comesNext s behind).isEmpty))
    (h : hasLateSlot (contained s behind) = false) :
    hasLateSlot (y.result s maxRetry uri behind) = hasLateSlot behind := by
  rw [hasLateSlot_eq_decide, hasLateSlot_eq_decide,
    tally_result_of_quiet (fun _ hc => Content.isLateSlot_of_isInert hc) rfl hy h]

theorem contained_append_singleton {ts : List Placed} {t : Placed}
    (h : t.content.sendsToBatch s = false) : contained s (ts ++ [t]) = ts ++ [t] := by
  simp [contained, h]

/-- A template ends with nothing that sends to a batching endpoint. -/
theorem contained_result (hy : y.Fits low onward) :
    contained s (y.result s maxRetry uri behind) = y.result s maxRetry uri behind := by
  have hends : ∀ sender next : List Placed,
      (y.layout.ending.fill sender next).content.sendsToBatch s = false := by
    intro sender next
    have hplain := Layout.isPlain_ending hy.isInert sender next
    have hname : (y.layout.ending.fill sender next).content.name? ≠
        some Marker.oneWayProducer.tagName := by
      intro hname
      have hmarker := hplain.marker
      rw [Content.marker_eq_some.mpr hname] at hmarker
      cases hmarker
    simp [Content.sendsToBatch, hname]
  have hsplit : y.result s maxRetry uri behind = [y.layout.start,
      y.layout.limit.fill [.number y.limitAt (BatchRetry.constant (toString maxRetry))],
      y.layout.batch.fill [y.layout.attempt.fill (y.withSender s uri behind).1]] ++
        [y.layout.ending.fill (y.withSender s uri behind).2 (y.withNext s behind).2] := rfl
  rw [hsplit, contained_append_singleton (hends _ _)]

/-! ### Where an action has the name of a slot -/

/-- What was lost from all slots is nowhere in the template. -/
theorem not_mem_result (hy : y.Fits low onward) {x : NodeId} (hx : x < low)
    (hactions : x ∉ (y.withSender s uri behind).1.flatMap ids)
    (hsender : x ∉ (y.withSender s uri behind).2.flatMap ids)
    (hnext : x ∉ (y.withNext s behind).2.flatMap ids) :
    x ∉ (y.result s maxRetry uri behind).flatMap ids := by
  rw [← map_fst_nodes] at hactions hsender hnext ⊢
  intro hmem
  obtain ⟨e, he, rfl⟩ := List.mem_map.mp hmem
  rw [result, Layout.mem_nodes_fill] at he
  rcases he with he | he | he | he | ⟨-, he⟩
  · exact Nat.not_le_of_lt hx (hy.parts e he)
  · exact Nat.not_le_of_lt hx (le_of_mem_number_singleton hy.limitAt he)
  · exact hactions (List.mem_map_of_mem he)
  · exact hsender (List.mem_map_of_mem he)
  · exact hnext (List.mem_map_of_mem he)

/-- An action that is taken for the slot of what comes next is lost. -/
theorem exists_lost_of_next (hy : y.Fits low onward) (hnodup : (behind.flatMap ids).Nodup)
    (hlow : ∀ e ∈ behind.flatMap nodes, e.2.isLateSlot → e.1 < low)
    (hnext : fillAll? BatchRetry.nextSlot (comesNext s behind) (contained s behind) ≠ none) :
    ∃ e ∈ behind.flatMap nodes, e.2.isLateSlot ∧
      e.1 ∉ (y.result s maxRetry uri behind).flatMap ids := by
  obtain ⟨e, he, hname, hlost, hslot⟩ := exists_lost_of_settle (n := y.nextAt) hnext
    (nodup_contained hnodup) (fun e he _ => not_mem_comesNext hnodup he) (.inl rfl)
  have hx : e.1 < low := hlow e (mem_parts (.inl he)) hname
  have hsender : e.1 ∉ [Placed.number y.senderAt (BatchRetry.sender uri)].flatMap ids :=
    not_mem_ids_of_lt hx fun _ => le_of_mem_number_singleton hy.senderAt
  have hretry : e.1 ≠ y.retryAt := Nat.ne_of_lt (Nat.lt_of_lt_of_le hx hy.retryAt)
  obtain ⟨hactions, hslots⟩ := not_mem_settle hlost hsender hretry
  refine ⟨e, mem_parts (.inl he), hname, not_mem_result hy hx hactions hslots ?_⟩
  rw [withNext, hslot]
  exact not_mem_ids_of_lt hx fun _ => le_of_mem_emptySlot hy.nextAt

/-- Where none is, one that is taken for the slot of the sender is lost. -/
theorem exists_lost_of_retry (hy : y.Fits low onward) (hnodup : (behind.flatMap ids).Nodup)
    (hlow : ∀ e ∈ behind.flatMap nodes, e.2.isLateSlot → e.1 < low)
    (hnext : fillAll? BatchRetry.nextSlot (comesNext s behind) (contained s behind) = none)
    (hretry : fillAll? BatchRetry.retrySlot [.number y.senderAt (BatchRetry.sender uri)]
      (contained s behind) ≠ none) :
    ∃ e ∈ behind.flatMap nodes, e.2.isLateSlot ∧
      e.1 ∉ (y.result s maxRetry uri behind).flatMap ids := by
  have hquiet : y.withNext s behind = (contained s behind, comesNext s behind) := by
    rw [withNext, settle, hnext]
  have hsender : ∀ x, x < low →
      x ∉ [Placed.number y.senderAt (BatchRetry.sender uri)].flatMap ids := fun x hx =>
    not_mem_ids_of_lt hx fun _ => le_of_mem_number_singleton hy.senderAt
  have hold : ∀ e ∈ (contained s behind).flatMap nodes, e.2.isLateSlot → e.1 < low :=
    fun e he => hlow e (mem_parts (.inl he))
  obtain ⟨e, he, hname, hlost, hslot⟩ := exists_lost_of_settle (n := y.retryAt) hretry
    (nodup_contained hnodup) (fun e he hname => hsender e.1 (hold e he hname)) (.inr rfl)
  have hx : e.1 < low := hold e he hname
  refine ⟨e, mem_parts (.inl he), hname, not_mem_result hy hx ?_ ?_ ?_⟩
  · rw [withSender, hquiet]
    exact hlost
  · rw [withSender, hquiet, hslot]
    exact not_mem_ids_of_lt hx fun _ => le_of_mem_emptySlot hy.retryAt
  · rw [hquiet]
    exact not_mem_comesNext hnodup he

/-- An action that has the name of such a slot is lost. -/
theorem exists_lost (hy : y.Fits low onward) (hlate : hasLateSlot (contained s behind) = true)
    (hnodup : (behind.flatMap ids).Nodup)
    (hlow : ∀ e ∈ behind.flatMap nodes, e.2.isLateSlot → e.1 < low) :
    ∃ e ∈ behind.flatMap nodes, e.2.isLateSlot ∧
      e.1 ∉ (y.result s maxRetry uri behind).flatMap ids := by
  by_cases hnext : fillAll? BatchRetry.nextSlot (comesNext s behind) (contained s behind) = none
  · refine exists_lost_of_retry hy hnodup hlow hnext fun hretry => ?_
    rw [fillAll_eq_none] at hnext hretry
    obtain ⟨e, he, hname⟩ := List.any_eq_true.mp hlate
    rw [Content.isLateSlot, Bool.or_eq_true, beq_iff_eq, beq_iff_eq] at hname
    rcases hname with hname | hname
    · exact hnext e he hname
    · exact hretry e he hname
  · exact exists_lost_of_next hy hnodup hlow hnext

end Expansion

end Route

end RouteCompiler
