import RouteCompiler.Proofs.Generation.Declarations
import RouteCompiler.Proofs.Generation.Quiet
import Mathlib.Data.List.TakeWhile

/-!
# Splicing a template behind a consumer

Where no action has the name of a slot that is searched for late, expanding a consumer is a
substitution: a copy of the template takes the place of what followed the consumer, and the
slots of the copy are replaced by what was moved or made for them.  Nothing else of the
document changes but the children of the root, which gets the missing beans.

Main definitions:

- `Placed.substitute`: a tree with its slots replaced.
- `Document.Parts`: the two parts of what follows a consumer.
- `Document.AddsOnlyBeans`: beans are added at the end of the root, and all else stays.
- `Document.Spliced`: what expanding a consumer does to a document.

Main results:

- Lemma `Layout.substituteAll_fill`: replacing the slots of a template fills its layout.
- Lemma `Document.AddsOnlyBeans.declare`: what declaring a bean does to the arena.
- Lemma `Document.Shows.spread_quiet`: expanding a consumer, seen on the tree of its route.
- Theorem `processConsumer_splices`: expanding a consumer splices the template.
-/

namespace RouteCompiler

open RouteCompiler.Route

namespace Route

/-! ## Replacing slots -/

namespace Placed

mutual

/-- A tree with trees in the place of its slots, which are told by their names. -/
def substitute (filling : String → Option (List Placed)) : Placed → List Placed
  | node id content children =>
      match content.name?.bind filling with
      | some filled => filled
      | none => [node id content (substituteAll filling children)]

/-- Several trees with trees in the place of their slots. -/
def substituteAll (filling : String → Option (List Placed)) : List Placed → List Placed
  | [] => []
  | t :: ts => substitute filling t ++ substituteAll filling ts

end

/-- What is put into the slots of a template. -/
def fillings (limit actions sender next : List Placed) (name : String) : Option (List Placed) :=
  if name = BatchRetry.maxRetrySlot then some limit
  else if name = BatchRetry.actionsSlot then some actions
  else if name = BatchRetry.retrySlot then some sender
  else if name = BatchRetry.nextSlot then some next
  else none

section Substitute

variable {filling : String → Option (List Placed)} {t : Placed} {ts : List Placed} {c : Content}

theorem substituteAll_eq_flatMap (filling : String → Option (List Placed)) (ts : List Placed) :
    substituteAll filling ts = ts.flatMap (substitute filling) := by
  induction ts with
  | nil => rfl
  | cons t ts ih => simp [substituteAll, ih]

/-- A node that is no slot stays, and below it slots are replaced. -/
theorem substitute_node (h : c.name?.bind filling = none) (n : NodeId) (ts : List Placed) :
    substitute filling (node n c ts) = [node n c (ts.flatMap (substitute filling))] := by
  rw [substitute, h, substituteAll_eq_flatMap]

theorem substitute_emptySlot {name : String} (h : filling name = some ts) (n : Nat) :
    substitute filling (emptySlot n name) = ts := by
  rw [emptySlot, substitute, Content.name?, Option.bind_some, h]

theorem bind_filling_of_isInert (hfree : ∀ name, name ∉ slotNames → filling name = none)
    (h : c.isInert) : c.name?.bind filling = none := by
  cases hname : c.name? with
  | none => rfl
  | some name => exact hfree name fun hslot => Content.name_ne_of_isInert h hslot hname

/-- Without slots nothing is replaced. -/
theorem substitute_of_isInert (hfree : ∀ name, name ∉ slotNames → filling name = none)
    (h : ∀ e ∈ t.nodes, e.2.isInert) : substitute filling t = [t] := by
  induction t with
  | node id content children ih =>
      have hbelow : children.flatMap (substitute filling) = children.flatMap fun t => [t] := by
        refine List.flatMap_congr fun t ht => ih t ht fun e he => h e ?_
        rw [nodes_node]
        exact List.mem_cons_of_mem _ (List.mem_flatMap.mpr ⟨t, ht, he⟩)
      rw [substitute_node (bind_filling_of_isInert hfree (h (id, content) (by simp))), hbelow,
        List.flatMap_singleton']

/-- A name that is none of a slot has no filling. -/
theorem fillings_eq_none {limit actions sender next : List Placed} (name : String)
    (h : name ∉ slotNames) : fillings limit actions sender next name = none := by
  simp only [slotNames, List.mem_cons, List.not_mem_nil, or_false, not_or] at h
  obtain ⟨hactions, hnext, hretry, hlimit⟩ := h
  rw [fillings, if_neg hlimit, if_neg hactions, if_neg hretry, if_neg hnext]

end Substitute

end Placed

/-! ## Replacing the slots of a layout -/

section Layouts

open Placed BatchRetry

variable {filling : String → Option (List Placed)} {limit actions sender next : List Placed}

/-- An inert frame stays around its place. -/
theorem Frame.substitute_fill (hfree : ∀ name, name ∉ slotNames → filling name = none)
    {f : Frame} (h : f.isInert) (ts : List Placed) :
    substitute filling (f.fill ts) = [f.fill (ts.flatMap (substitute filling))] := by
  have hside : ∀ side : List Placed, (∀ e ∈ side.flatMap nodes, e ∈ f.parts) →
      side.flatMap (substitute filling) = side := by
    intro side hmem
    have hkept : side.flatMap (substitute filling) = side.flatMap fun t => [t] :=
      List.flatMap_congr fun t ht => substitute_of_isInert hfree fun e he =>
        isInert_of_mem h (hmem e (List.mem_flatMap.mpr ⟨t, ht, he⟩))
    rw [hkept, List.flatMap_singleton']
  have hleft := hside f.left fun e he => by simp [parts, he]
  have hright := hside f.right fun e he => by simp [parts, he]
  have htop : f.content.isInert := isInert_of_mem h (e := (f.id, f.content)) (by simp [parts])
  rw [Frame.fill, substitute_node (bind_filling_of_isInert hfree htop), List.flatMap_append,
    List.flatMap_append, hleft, hright, Frame.fill]

theorem Ending.substitute_fill {ending : Ending} (h : ∀ f ∈ ending.frames, f.isInert)
    (k m : NodeId) :
    substitute (fillings limit actions sender next) (ending.fill [emptySlot k retrySlot]
      [emptySlot m nextSlot]) = [ending.fill sender next] := by
  have hretry : substitute (fillings limit actions sender next) (emptySlot k retrySlot) = sender :=
    substitute_emptySlot rfl k
  have hnext : substitute (fillings limit actions sender next) (emptySlot m nextSlot) = next :=
    substitute_emptySlot rfl m
  cases ending with
  | back f =>
      have hf := h f (by simp [frames])
      simp only [fill, Frame.substitute_fill fillings_eq_none hf, List.flatMap_singleton, hretry]
  | backAndOn both first f second g =>
      simp only [frames, List.forall_mem_cons] at h
      obtain ⟨hboth, hfirst, hf, hsecond, hg, -⟩ := h
      simp only [fill, Frame.substitute_fill fillings_eq_none hboth,
        Frame.substitute_fill fillings_eq_none hfirst, Frame.substitute_fill fillings_eq_none hf,
        Frame.substitute_fill fillings_eq_none hsecond, Frame.substitute_fill fillings_eq_none hg,
        List.flatMap_cons, List.flatMap_nil, List.append_nil, List.cons_append, List.nil_append,
        hretry, hnext]

/-- Replacing the slots of a template fills its layout. -/
theorem Layout.substituteAll_fill {l : Layout} (h : l.isInert) (i j k m : NodeId) :
    substituteAll (fillings limit actions sender next) (l.fill [emptySlot i maxRetrySlot]
      [emptySlot j actionsSlot] [emptySlot k retrySlot] [emptySlot m nextSlot]) =
        l.fill limit actions sender next := by
  simp only [isInert, Bool.and_eq_true, List.all_eq_true, frames, List.cons_append,
    List.nil_append, List.forall_mem_cons] at h
  obtain ⟨⟨-, hstart⟩, hlimit, hbatch, hattempt, hending⟩ := h
  have hvalue : substitute (fillings limit actions sender next) (emptySlot i maxRetrySlot) =
      limit := substitute_emptySlot rfl i
  have hactions : substitute (fillings limit actions sender next) (emptySlot j actionsSlot) =
      actions := substitute_emptySlot rfl j
  simp only [Layout.fill, substituteAll_eq_flatMap, List.flatMap_cons, List.flatMap_nil,
    List.append_nil, List.cons_append, List.nil_append,
    substitute_of_isInert fillings_eq_none hstart, Frame.substitute_fill fillings_eq_none hlimit,
    Frame.substitute_fill fillings_eq_none hbatch, Frame.substitute_fill fillings_eq_none hattempt,
    Ending.substitute_fill hending, hvalue, hactions]

end Layouts

/-! ## Beans in the arena -/

namespace Document

variable {d d' : Document} {id : String}

/-- Apart from some nodes, a document changes only in that beans are declared at the end of
the root, in order. -/
structure AddsOnlyBeans (d d' : Document) (changed : List NodeId)
    (beans : List (String × String)) (added : List NodeId) : Prop where
  root : d'.root = d.root
  size_le : d.size ≤ d'.size
  declared : List.Forall₂ (fun n bean => d.size ≤ n ∧
    d'.nodes[n]? = some ⟨beanContent bean.1 bean.2, some d.root, []⟩) added beans
  atRoot : d'.nodes[d.root]? =
    d.nodes[d.root]?.map fun n => ⟨n.content, n.parent, n.children ++ added⟩
  elsewhere : ∀ y < d.size, y ∉ changed → y ≠ d.root → d'.nodes[y]? = d.nodes[y]?

theorem root_ensureBean (d : Document) (id className : String) :
    (ensureBean d id className).1.root = d.root := by
  rw [RouteCompiler.ensureBean]
  split
  · rfl
  · simp [createElement, setAttribute]

/-- What declaring a bean that is missing does to the arena. -/
theorem getElem_ensureBean (hroot : d.root < d.size) (hmissing : declaresBean d id = false)
    (className : String) (y : NodeId) :
    (ensureBean d id className).1.nodes[y]? =
      if y = d.size then some ⟨beanContent id className, some d.root, []⟩
      else if y = d.root then
        d.nodes[y]?.map fun n => ⟨n.content, n.parent, n.children ++ [d.size]⟩
      else d.nodes[y]? := by
  have hne : d.size ≠ d.root := Nat.ne_of_gt hroot
  have hpush : ∀ y, (d.push (.element beanElement [])).1.nodes[y]? =
      if y = d.size then some ⟨.element beanElement [], none, []⟩ else d.nodes[y]? :=
    fun y => Array.getElem?_push ..
  obtain ⟨d₁, hd₁⟩ : ∃ d₁, ((d.push (.element beanElement [])).1.setAttribute d.size "id"
    id).setAttribute d.size "class" className = d₁ := ⟨_, rfl⟩
  have hmade : ∀ y, d₁.nodes[y]? =
      if y = d.size then some ⟨beanContent id className, none, []⟩ else d.nodes[y]? := by
    intro y
    rw [← hd₁, setAttribute, modifyContent, getElem_modifyNode, setAttribute, modifyContent,
      getElem_modifyNode, hpush]
    split <;> rfl
  have hparent : d₁.parent? d.size = none := by simp [parent?, hmade]
  have hensured : (ensureBean d id className).1 = d₁.appendChild d.root d.size := by
    rw [← hd₁, ensureBean, hmissing]
    rfl
  rw [hensured, appendChild, detach, hparent]
  simp only [link, modifyChildren, setParent, getElem_modifyNode, hmade]
  by_cases hnew : y = d.size
  · simp [hnew, hne]
  · simp [hnew]

theorem AddsOnlyBeans.refl (d : Document) : d.AddsOnlyBeans d [] [] [] where
  root := rfl
  size_le := Nat.le_refl _
  declared := .nil
  atRoot := by simp
  elsewhere _ _ _ _ := rfl

/-- One more bean is declared, if it is missing. -/
theorem AddsOnlyBeans.declare {changed added : List NodeId} {beans : List (String × String)}
    (h : d.AddsOnlyBeans d' changed beans added) (hroot : d.root < d.size)
    (id className : String) :
    ∃ more, d.AddsOnlyBeans (ensureBean d' id className).1 changed
      (beans ++ if declaresBean d' id then [] else [(id, className)]) (added ++ more) := by
  cases hdeclared : declaresBean d' id with
  | true =>
      refine ⟨[], ?_⟩
      simpa [RouteCompiler.ensureBean, hdeclared] using h
  | false =>
      have hroot' : d'.root < d'.size := by
        rw [h.root]
        exact Nat.lt_of_lt_of_le hroot h.size_le
      have hnodes := getElem_ensureBean hroot' hdeclared className
      have hold : ∀ y, y ≠ d'.size → y ≠ d.root →
          (ensureBean d' id className).1.nodes[y]? = d'.nodes[y]? := by
        intro y hnew hy
        rw [hnodes, if_neg hnew, if_neg (h.root ▸ hy)]
      have hlt : ∀ y < d.size, y ≠ d'.size := fun y hy =>
        Nat.ne_of_lt (Nat.lt_of_lt_of_le hy h.size_le)
      refine ⟨[d'.size], ?_, ?_, ?_, ?_, ?_⟩
      · exact (root_ensureBean ..).trans h.root
      · exact Nat.le_trans h.size_le (le_size_ensureBean ..)
      · refine List.rel_append (h.declared.imp ?_) (.cons ⟨h.size_le, ?_⟩ .nil)
        · intro n bean hn
          have hn' : n < d'.nodes.size := (Array.getElem?_eq_some_iff.mp hn.2).1
          have hne : n ≠ d.root := Nat.ne_of_gt (Nat.lt_of_lt_of_le hroot hn.1)
          exact ⟨hn.1, (hold n (Nat.ne_of_lt hn') hne).trans hn.2⟩
        · rw [hnodes, if_pos rfl, h.root]
      · rw [hnodes, if_neg (hlt _ hroot), if_pos h.root.symm, h.atRoot, Option.map_map]
        simp [Function.comp_def]
      · intro y hy hout hne
        rw [hold y (hlt y hy) hne, h.elsewhere y hy hout hne]

end Document

/-! ## Beans of a document with an expanded consumer -/

section Beans

variable {P : Content → Bool} {ts us : List Placed}

theorem tally_fill_congr (h : Placed.tally P ts = Placed.tally P us) (f : Frame) :
    Placed.tally P [f.fill ts] = Placed.tally P [f.fill us] := by
  obtain ⟨id, content, left, right⟩ := f
  cases content with
  | element name attributes =>
      have hc : (Content.element name attributes).isElement := rfl
      simp only [Frame.fill, tally_node hc, Placed.tally_append, h]
  | text value => simp [Frame.fill, Placed.tally]

/-- What is counted below the top changes only with what is counted at a place, also where a
text encloses the place. -/
theorem tallyBelow_fill_congr (h : Placed.tally P ts = Placed.tally P us) (fs : List Frame)
    (f : Frame) : (plug fs (f.fill ts)).tallyBelow P = (plug fs (f.fill us)).tallyBelow P := by
  induction fs generalizing f ts us with
  | nil =>
      have hsum : Placed.tally P (f.left ++ ts ++ f.right) =
          Placed.tally P (f.left ++ us ++ f.right) := by
        rw [Placed.tally_append, Placed.tally_append, Placed.tally_append, Placed.tally_append, h]
      exact hsum
  | cons g fs ih => exact ih (tally_fill_congr h f) g

theorem Placed.declares_congr {t t' : Placed} {id : String}
    (h : t.tallyBelow (Content.declares id) = t'.tallyBelow (Content.declares id)) :
    t.declares id = t'.declares id := by
  rw [Bool.eq_iff_iff, declares_iff_tallyBelow_pos, declares_iff_tallyBelow_pos, h]

/-- Declaring one bean declares no other. -/
theorem Placed.declares_withBean_of_ne {id id' : String} (h : id ≠ id') (t : Placed) (n : NodeId)
    (className : String) : (t.withBean n id className).declares id' = t.declares id' := by
  rw [withBean]
  split
  · rfl
  · have hbean := declares_beanContent id className id'
    rw [beanContent] at hbean
    simp [declares_append, beanContent, hbean, h]

end Beans

namespace Document

variable {d d' : Document} {t : Placed} {s : Snapshot} {x y route context : NodeId}

/-- The beans that an expanded consumer needs, with their classes. -/
def consumerBeans : List (String × String) :=
  [("aggregatorStrategy", "io.hodos.runtime.ListAggregator"),
    ("retrySupport", "io.hodos.runtime.RetrySupport")]

/-- Those of them that are not declared. -/
def missingBeans (d : Document) : List (String × String) :=
  consumerBeans.filter fun bean => !declaresBean d bean.1

/-- Declaring the beans of a consumer adds those that are missing. -/
theorem ShowsRoot.addsOnlyBeans (h : d.ShowsRoot t) :
    ∃ added, d.AddsOnlyBeans (BatchRetry.ensureRetrySupport (BatchRetry.ensureAggregator d)) []
      d.missingBeans added := by
  have hroot : d.root < d.size := h.lt_size (h.1 ▸ t.id_mem_ids)
  obtain ⟨first, hfirst⟩ :=
    (AddsOnlyBeans.refl d).declare hroot "aggregatorStrategy" "io.hodos.runtime.ListAggregator"
  obtain ⟨second, hsecond⟩ := hfirst.declare hroot "retrySupport" "io.hodos.runtime.RetrySupport"
  have hlater : declaresBean (BatchRetry.ensureAggregator d) "retrySupport" =
      declaresBean d "retrySupport" := by
    rw [BatchRetry.ensureAggregator, (h.ensureBean _ _).declaresBean_eq,
      Placed.declares_withBean_of_ne (by decide), ← h.declaresBean_eq]
  have hmissing : d.missingBeans = ([] ++ if declaresBean d "aggregatorStrategy" then [] else
      [("aggregatorStrategy", "io.hodos.runtime.ListAggregator")]) ++
        if declaresBean (BatchRetry.ensureAggregator d) "retrySupport" then [] else
          [("retrySupport", "io.hodos.runtime.RetrySupport")] := by
    rw [hlater, missingBeans, consumerBeans]
    cases haggregator : declaresBean d "aggregatorStrategy" <;>
      cases hretry : declaresBean d "retrySupport" <;>
        simp [haggregator, hretry]
  rw [hmissing]
  exact ⟨_, hsecond⟩

/-! ## What follows a consumer -/

/-- A node is a one-way producer whose logical URI names a batching endpoint. -/
def SendsToBatch (d : Document) (s : Snapshot) (y : NodeId) : Prop :=
  ∃ e, d.Targets s y .oneWayProducer e ∧ e.hasCharacteristic BatchRetry.kindName = true

/-- The children behind a consumer in two parts: the second is their longest end of nodes that
send to batching endpoints. -/
structure Parts (d : Document) (s : Snapshot) (behind contained next : List NodeId) : Prop where
  append : contained ++ next = behind
  sends : ∀ y ∈ next, d.SendsToBatch s y
  longest : ∀ y, contained.getLast? = some y → ¬ d.SendsToBatch s y

theorem sendsToBatch_iff : BatchRetry.sendsToBatch s d y = true ↔ d.SendsToBatch s y := by
  simp only [BatchRetry.sendsToBatch, SendsToBatch, Targets, Bool.and_eq_true, Option.any_eq_true,
    Option.bind_eq_some_iff]
  constructor
  · rintro ⟨hname, e, ⟨name, ⟨uri, huri, hendpoint⟩, he⟩, hbatches⟩
    exact ⟨e, ⟨hname, uri, name, huri, hendpoint, he⟩, hbatches⟩
  · rintro ⟨e, ⟨hname, uri, name, huri, hendpoint, he⟩, hbatches⟩
    exact ⟨hname, e, ⟨name, ⟨uri, huri, hendpoint⟩, he⟩, hbatches⟩

theorem parts_of_partitionActions {behind contained next : List NodeId}
    (hbehind : BatchRetry.siblingsBehind d route x = behind)
    (h : BatchRetry.partitionActions s d route x = (contained, next)) :
    d.Parts s behind contained next := by
  simp only [BatchRetry.partitionActions, hbehind, Prod.mk.injEq] at h
  obtain ⟨rfl, rfl⟩ := h
  refine ⟨?_, fun y hy => ?_, fun y hy hsends => ?_⟩
  · rw [← List.reverse_append, List.takeWhile_append_dropWhile, List.reverse_reverse]
  · exact sendsToBatch_iff.mp (List.mem_takeWhile_imp (List.mem_reverse.mp hy))
  · rw [List.getLast?_reverse] at hy
    have hlast := List.head?_dropWhile_not (BatchRetry.sendsToBatch s d) behind.reverse
    rw [hy] at hlast
    simp [sendsToBatch_iff.mpr hsends] at hlast

/-! ## Where a consumer stands -/

/-- A node with two nodes above it stands at a place below them. -/
theorem ShowsRoot.exists_place (ht : d.ShowsRoot t) (hroute : d.parent? x = some route)
    (hcontext : d.parent? route = some context) :
    ∃ f g fs c cs others, d.Shows (plug (f :: g :: fs) (.node x c cs) :: others) ∧
      t ∈ plug (f :: g :: fs) (.node x c cs) :: others ∧ f.id = route ∧ g.id = context := by
  obtain ⟨-, detached, hshows⟩ := ht
  have hx : x < d.size := by
    obtain ⟨n, hn, -⟩ := Option.bind_eq_some_iff.mp hroute
    exact (Array.getElem?_eq_some_iff.mp hn).1
  obtain ⟨fs, c, cs, others, hperm⟩ := hshows.exists_plug hx
  have hplace := hshows.perm hperm
  have hmem := hperm.mem_iff.mp (List.mem_cons_self (a := t))
  have hholder := hplace.storesAt.parent
  rw [hroute] at hholder
  cases fs with
  | nil => cases hholder
  | cons f fs =>
      rw [holder?, Option.some.injEq] at hholder
      have habove : d.Shows (plug fs (.node f.id f.content (f.left ++ [.node x c cs] ++ f.right)) ::
          others) := hplace
      have hholder' := habove.storesAt.parent
      rw [← hholder, hcontext] at hholder'
      cases fs with
      | nil => cases hholder'
      | cons g fs =>
          rw [holder?, Option.some.injEq] at hholder'
          exact ⟨f, g, fs, c, cs, others, hplace, hmem, hholder.symm, hholder'.symm⟩

namespace ShowsAmong

variable {others ls ts cs : List Placed} {fs : List Frame} {r : NodeId} {c : Content}

/-- The trees below a node are read off at their tops. -/
theorem map_placed (h : d.ShowsAmong others (plug fs (.node r c cs))) (hts : ts ⊆ cs) :
    (ts.map Placed.id).map d.placed = ts := by
  have hall : d.ShowsAmong others (plug fs (.node r c ([] ++ cs))) := h
  rw [List.map_map]
  refine (List.map_congr_left fun u hu => ?_).trans (List.map_id ts)
  obtain ⟨gs, detached, hshows⟩ := hall.shows_each u (hts hu)
  exact hshows.placed_plug

/-- Around a node its parent has the nodes that stand beside it. -/
theorem siblings_eq {left right : List Placed} {u : Placed} {before behind : List NodeId}
    (h : d.ShowsAmong others (plug fs (.node r c (left ++ u :: right))))
    (hchildren : d.children r = before ++ u.id :: behind) :
    before = left.map Placed.id ∧ behind = right.map Placed.id := by
  have hids := h.children_plug
  have hnodup := h.nodup_children
  rw [List.map_append, List.map_cons, List.nodup_middle, List.nodup_cons, List.mem_append,
    not_or] at hnodup
  rw [hchildren, List.map_append, List.map_cons] at hids
  obtain ⟨hbefore, -, hbehind⟩ :=
    (List.append_cons_inj_of_notMem hnodup.1.1 hnodup.1.2).mp hids.symm
  exact ⟨hbefore.symm, hbehind.symm⟩

/-- Where the walk through some trees meets no name of a late slot, they have none. -/
theorem hasLateSlot_eq_false (h : d.ShowsAmong others (plug fs (.node r c (ls ++ ts))))
    (hquiet : ∀ y ∈ ts.map Placed.id, ∀ z ∈ y :: d.descendants y,
      d.isNamed BatchRetry.nextSlot z = false ∧ d.isNamed BatchRetry.retrySlot z = false) :
    Placed.hasLateSlot ts = false := by
  refine List.any_eq_false.mpr fun e he => ?_
  obtain ⟨u, hu, he⟩ := List.mem_flatMap.mp he
  obtain ⟨gs, detached, hshows⟩ := h.shows_each u hu
  have hmet : e.1 ∈ u.id :: d.descendants u.id := by
    obtain ⟨id, content, children⟩ := u
    cases content with
    | text value => simp at he
    | element name attributes =>
        rw [Placed.elements_element, List.mem_cons] at he
        rcases he with rfl | he
        · exact List.mem_cons_self
        · rw [hshows.descendants_plug]
          exact List.mem_cons_of_mem _ (List.mem_map_of_mem he)
  obtain ⟨hnext, hretry⟩ := hquiet u.id (List.mem_map_of_mem hu) e.1 hmet
  have hcontent := hshows.storesAt.content_of_mem (u.elements_sublist.subset he)
  rw [isNamed_of_content hcontent, beq_eq_false_iff_ne] at hnext hretry
  rw [Content.isLateSlot_eq_false.mpr ⟨hnext, hretry⟩]
  exact Bool.false_ne_true

end ShowsAmong

/-- Every node of a tree below another node has a parent. -/
theorem Stores.parent_ne_none {p : NodeId} {u : Placed} (h : d.Stores (some p) u) :
    ∀ y ∈ u.ids, d.parent? y ≠ none := by
  induction u generalizing p with
  | node id content children ih =>
      intro y hy
      rw [Placed.ids_node, List.mem_cons] at hy
      rcases hy with rfl | hy
      · rw [h.parent]
        exact Option.some_ne_none p
      · obtain ⟨u, hu, hy⟩ := List.mem_flatMap.mp hy
        exact ih u hu ((stores_node.mp h).2 u hu) y hy

/-! ## Expanding a consumer -/

section Added

variable {changed added : List NodeId} {beans : List (String × String)}

/-- Adding beans keeps every tree below a node. -/
theorem AddsOnlyBeans.stores (h : d.AddsOnlyBeans d' [] beans added)
    (hroot : d.parent? d.root = none) {p : NodeId} {u : Placed} (hu : d.Stores (some p) u) :
    d'.Stores (some p) u := by
  refine hu.congr fun y hy => ?_
  have hparent := hu.parent_ne_none y hy
  refine h.elsewhere y ?_ List.not_mem_nil fun heq => hparent (heq ▸ hroot)
  obtain ⟨p', hp'⟩ := Option.ne_none_iff_exists'.mp hparent
  obtain ⟨n, hn, -⟩ := Option.bind_eq_some_iff.mp hp'
  exact (Array.getElem?_eq_some_iff.mp hn).1

/-- Adding beans keeps what is read off at a node below another. -/
theorem AddsOnlyBeans.placed (h : d.AddsOnlyBeans d' [] beans added)
    (hroot : d.parent? d.root = none) {others : List Placed} {g : Frame} {fs : List Frame}
    {u : Placed} (hu : d.ShowsAmong others (plug (g :: fs) u)) : d'.placed u.id = u := by
  have hstored := h.stores hroot hu.storesAt
  obtain ⟨gone, hshows⟩ := hu
  have hlength := hshows.length_ids_le
  have hgrows := h.size_le
  exact placedWithin_eq hstored (by omega)

/-- Beans are added after a change of some other nodes. -/
theorem AddsOnlyBeans.after {d₁ : Document} (h : d₁.AddsOnlyBeans d' [] beans added)
    (hroot : d₁.root = d.root) (hsize : d.size ≤ d₁.size) (hlt : d.root < d.size)
    (hout : d.root ∉ changed) (hframe : ∀ y < d.size, y ∉ changed → d₁.nodes[y]? = d.nodes[y]?) :
    d.AddsOnlyBeans d' changed beans added where
  root := h.root.trans hroot
  size_le := Nat.le_trans hsize h.size_le
  declared := h.declared.imp fun n bean hn => ⟨Nat.le_trans hsize hn.1, hroot ▸ hn.2⟩
  atRoot := by
    have hatRoot := h.atRoot
    rwa [hroot, hframe d.root hlt hout] at hatRoot
  elsewhere y hy hnot hne := by
    rw [h.elsewhere y (Nat.lt_of_lt_of_le hy hsize) List.not_mem_nil (hroot ▸ hne),
      hframe y hy hnot]

end Added

namespace ShowsAmong

variable {others cs : List Placed} {f : Frame} {fs : List Frame} {c : Content}

/-- Without names of late slots, filling the template substitutes trees for its slots, and no
bean is declared or lost. -/
theorem fillTemplate_quiet (h : d.ShowsAmong others (plug (f :: fs) (.node x c cs)))
    (s : Snapshot) (hquiet : Placed.hasLateSlot f.right = false) (maxRetry : Nat) :
    ∃ limit sender right d', d.size ≤ limit ∧ d.size ≤ sender ∧
      right = Placed.substituteAll
        (Placed.fillings [.number limit (BatchRetry.constant (toString maxRetry))]
          (Placed.contained s f.right)
          [.number sender (BatchRetry.sender ((c.attribute? Uri.attributeKey).getD ""))]
          (Placed.comesNext s f.right))
        (Placed.numberAll d.size (if (Placed.comesNext s f.right).isEmpty then
          BatchRetry.consumerOnly else BatchRetry.consumerProducer)) ∧
      (∀ id, Placed.tally (Content.declares id) right =
        Placed.tally (Content.declares id) f.right) ∧
      BatchRetry.spread s d f.id x maxRetry =
        BatchRetry.ensureRetrySupport (BatchRetry.ensureAggregator d') ∧
      d'.root = d.root ∧ d.size ≤ d'.size ∧
      d'.ShowsAmong others (plug (⟨f.id, f.content, f.left, right⟩ :: fs) (.node x c cs)) := by
  have hcontained := Placed.hasLateSlot_contained_of_quiet (s := s) hquiet
  obtain ⟨y, i, j, d', hfits, htemplate, hspread, hroot, hsize, hshows⟩ :=
    h.fillTemplate s maxRetry
  refine ⟨y.limitAt, y.senderAt, _, d', hfits.limitAt, hfits.senderAt, ?_, fun id => ?_, hspread,
    hroot, hsize, hshows⟩
  · rw [Expansion.result_of_quiet hcontained, htemplate, Layout.substituteAll_fill hfits.isInert]
  · exact tally_result_eq (foreign_declares id) hfits hcontained maxRetry
      (Content.declares_of_marker rfl id)

/-- What is behind a place has no influence on which tree is the one at the root. -/
theorem exists_root {u : Placed} {right : List Placed} (ht : d.ShowsRoot t)
    (hmem : t ∈ plug (f :: fs) u :: others) (hroot : d'.root = d.root)
    (h : d'.ShowsAmong others (plug (⟨f.id, f.content, f.left, right⟩ :: fs) u))
    (htally : ∀ id, Placed.tally (Content.declares id) right =
      Placed.tally (Content.declares id) f.right) :
    ∃ t', d'.ShowsRoot t' ∧ ∀ id, t'.declares id = t.declares id := by
  rcases List.mem_cons.mp hmem with rfl | hothers
  · have hid : (plug (f :: fs) u).id =
        (plug (⟨f.id, f.content, f.left, right⟩ :: fs) u).id := id_plug_congr (by rfl) fs
    refine ⟨_, h.showsRoot List.mem_cons_self (hroot.trans (ht.1.trans hid)), fun id => ?_⟩
    have hfill := tallyBelow_fill_congr (htally id) fs ⟨f.id, f.content, f.left ++ [u], []⟩
    exact Placed.declares_congr (by simpa [plug, Frame.fill] using hfill)
  · exact ⟨t, h.showsRoot (List.mem_cons_of_mem _ hothers) (hroot.trans ht.1), fun _ => rfl⟩

end ShowsAmong

/-- Expanding a consumer substitutes in the tree of its route, and elsewhere it only adds beans. -/
theorem Shows.spread_quiet {others cs : List Placed} {f g : Frame} {fs : List Frame} {c : Content}
    (h : d.Shows (plug (f :: g :: fs) (.node x c cs) :: others)) (ht : d.ShowsRoot t)
    (hmem : t ∈ plug (f :: g :: fs) (.node x c cs) :: others) (s : Snapshot)
    (hquiet : Placed.hasLateSlot f.right = false) (maxRetry : Nat) :
    ∃ limit sender right d' added, d.size ≤ limit ∧ d.size ≤ sender ∧
      right = Placed.substituteAll
        (Placed.fillings [.number limit (BatchRetry.constant (toString maxRetry))]
          (Placed.contained s f.right)
          [.number sender (BatchRetry.sender ((c.attribute? Uri.attributeKey).getD ""))]
          (Placed.comesNext s f.right))
        (Placed.numberAll d.size (if (Placed.comesNext s f.right).isEmpty then
          BatchRetry.consumerOnly else BatchRetry.consumerProducer)) ∧
      BatchRetry.spread s d f.id x maxRetry = d' ∧ (∃ t', d'.ShowsRoot t') ∧
      d'.Stores (some g.id) (Frame.fill ⟨f.id, f.content, f.left, right⟩ [.node x c cs]) ∧
      d'.placed f.id = Frame.fill ⟨f.id, f.content, f.left, right⟩ [.node x c cs] ∧
      d.AddsOnlyBeans d' (f.fill [.node x c cs]).ids d.missingBeans added := by
  have hamong : d.ShowsAmong others (plug (f :: g :: fs) (.node x c cs)) :=
    ⟨[], by simpa using h⟩
  obtain ⟨limit, sender, right, d₁, hlimit, hsender, hright, htally, hspread, hroot, hsize,
    hfilled⟩ := hamong.fillTemplate_quiet s hquiet maxRetry
  obtain ⟨t₁, ht₁, hdeclares⟩ := hfilled.exists_root ht hmem hroot htally
  obtain ⟨added, hadded⟩ := ht₁.addsOnlyBeans
  have hmissing : d₁.missingBeans = d.missingBeans := by
    simp only [missingBeans, ht₁.declaresBean_eq, hdeclares, ht.declaresBean_eq]
  obtain ⟨d', hd'⟩ : ∃ d', BatchRetry.ensureRetrySupport (BatchRetry.ensureAggregator d₁) = d' :=
    ⟨_, rfl⟩
  rw [hd', hmissing] at hadded
  rw [hd'] at hspread
  have hbeans : ∃ t', d'.ShowsRoot t' := by
    rw [← hd']
    exact ⟨_, (ht₁.ensureBean _ _).ensureBean _ _⟩
  -- The tree of the route before and after.
  have hplace : d.Shows (plug (g :: fs) (f.fill [.node x c cs]) :: others) := h
  have hplace₁ : d₁.ShowsAmong others (plug (g :: fs)
    (Frame.fill ⟨f.id, f.content, f.left, right⟩ [.node x c cs])) := hfilled
  refine ⟨limit, sender, right, d', added, hlimit, hsender, hright, hspread, hbeans,
    hadded.stores ht₁.parent_root hplace₁.storesAt, hadded.placed ht₁.parent_root hplace₁, ?_⟩
  have hout : d.root ∉ (f.fill [.node x c cs]).ids := fun hin =>
    hplace.storesAt.parent_ne_none _ hin ht.parent_root
  refine hadded.after hroot hsize (ht.lt_size (ht.1 ▸ t.id_mem_ids)) hout fun y hy hnot => ?_
  obtain ⟨gone, hshows₁⟩ := hplace₁
  exact hplace.agree hshows₁ rfl hy hnot

/-- The route of a consumer after a template was spliced in behind it: the template is copied,
its slots are replaced, and what was moved into them is unchanged. -/
structure Spliced (d d' : Document) (context route x : NodeId) (before contained next : List NodeId)
    (maxRetry : Nat) : Prop where
  placed : ∃ limit sender, d.size ≤ limit ∧ d.size ≤ sender ∧
    d'.placed route = .node route (d.placed route).content
      ((before ++ [x]).map d.placed ++ Placed.substituteAll
        (Placed.fillings [.number limit (BatchRetry.constant (toString maxRetry))]
          (contained.map d.placed)
          [.number sender (BatchRetry.sender ((d.attribute? x Uri.attributeKey).getD ""))]
          (next.map d.placed))
        (Placed.numberAll d.size
          (if next.isEmpty then BatchRetry.consumerOnly else BatchRetry.consumerProducer)))
  stored : d'.Stores (some context) (d'.placed route)

end Document

end Route

namespace BatchRetry

open RouteCompiler.Route
open RouteCompiler.Generator (batchingSnapshot)

variable {r : Reference} {d : Document} {t : Placed} {x route context : NodeId}
  {before behind : List NodeId} {maxRetry : Nat}

/-- Expanding a consumer splices a template into its route.  The consumer is the first element
of a route right below a context, and what follows it has no element with the name of a slot
that is searched for late.  Outside of the route only missing beans are added. -/
theorem processConsumer_splices (ht : d.ShowsRoot t)
    (hlimit : kind.positiveValue r.endpoint r.characteristic "maxRetry" = .ok maxRetry)
    (hroute : d.parent? x = some route) (hnamed : d.isNamed "route" route = true)
    (hcontext : d.parent? route = some context) (hnamed' : d.isNamed "camelContext" context = true)
    (hfirst : (d.elementChildren route).head? = some x)
    (hchildren : d.children route = before ++ x :: behind)
    (hquiet : ∀ y ∈ behind, ∀ z ∈ y :: d.descendants y,
      d.isNamed nextSlot z = false ∧ d.isNamed retrySlot z = false) :
    ∃ d' contained next added, processConsumer r d x = .ok d' ∧ (∃ t', d'.ShowsRoot t') ∧
      d.Parts r.snapshot behind contained next ∧
      d.Spliced d' context route x before contained next maxRetry ∧
      d.AddsOnlyBeans d' (d.placed route).ids d.missingBeans added := by
  obtain ⟨f, g, fs, c, cs, others, hplace, hmem, rfl, rfl⟩ := ht.exists_place hroute hcontext
  have hamong : d.ShowsAmong others (plug (f :: g :: fs) (.node x c cs)) :=
    ⟨[], by simpa using hplace⟩
  have hbelow : d.ShowsAmong others (plug (g :: fs) (.node f.id f.content
      (f.left ++ .node x c cs :: f.right))) := by
    simpa [plug, Frame.fill] using hamong
  obtain ⟨rfl, rfl⟩ := hbelow.siblings_eq hchildren
  have hlate : Placed.hasLateSlot f.right = false := by
    have hbehind : d.ShowsAmong others (plug (g :: fs) (.node f.id f.content
        ((f.left ++ [.node x c cs]) ++ f.right))) := by
      simpa using hbelow
    exact hbehind.hasLateSlot_eq_false hquiet
  obtain ⟨limit, sender, right, d', added, hlimitAt, hsenderAt, hright, hspread, hshows, hstored,
    hplaced', hadded⟩ := hplace.spread_quiet ht hmem r.snapshot hlate maxRetry
  have hprocess : processConsumer r d x = .ok d' := by
    have hleads : leadingRoute? d x = some f.id := by
      simp [leadingRoute?, hroute, hnamed, hcontext, hnamed', hfirst]
    simp [processConsumer, hleads, hlimit, hspread, bind, Except.bind, pure, Except.pure]
  have habove : d.Shows (plug (g :: fs) (f.fill [.node x c cs]) :: others) := hplace
  have hplaced : d.placed f.id = f.fill [.node x c cs] := habove.placed_plug
  refine ⟨d', (Placed.contained r.snapshot f.right).map Placed.id,
    (Placed.comesNext r.snapshot f.right).map Placed.id, added, hprocess, hshows,
    Document.parts_of_partitionActions hbelow.siblingsBehind (hbelow.partitionActions r.snapshot),
    ⟨⟨limit, sender, hlimitAt, hsenderAt, ?_⟩, hplaced' ▸ hstored⟩, hplaced ▸ hadded⟩
  -- The addresses in the child list stand for the trees there.
  have hbefore : (f.left.map Placed.id ++ [x]).map d.placed = f.left ++ [.node x c cs] := by
    have hleft := hbelow.map_placed
      (show f.left ++ [.node x c cs] ⊆ f.left ++ .node x c cs :: f.right by simp)
    simpa using hleft
  have hright' : ∀ ts, ts ⊆ f.right → (ts.map Placed.id).map d.placed = ts := fun ts hts =>
    hbelow.map_placed fun u hu => by simp [hts hu]
  have hparts := Placed.contained_append_comesNext r.snapshot f.right
  have hcontained := hright' _ fun u hu => hparts ▸ List.mem_append_left _ hu
  have hnext := hright' _ fun u hu => hparts ▸ List.mem_append_right _ hu
  have huri : d.attribute? x Uri.attributeKey = c.attribute? Uri.attributeKey :=
    Document.attribute_of_content hamong.content_plug _
  rw [hplaced', hplaced, hbefore, hcontained, hnext, huri, List.isEmpty_map, ← hright]
  rfl

/-- A definition with a route in which texts and other elements stand around the consumer, and
which goes on with two batching endpoints; it declares one of the beans itself. -/
def chainedActions : String :=
  "<b><bean id=\"retrySupport\"/><camelContext><route>note<from uri=\"jms:q\"/><filter>" ++
    "<inOnly uri=\"logical:q\"/></filter>done<inOnly uri=\"logical:q\"/>" ++
      "<inOnly uri=\"logical:q\"/></route></camelContext></b>"

/-- The document of that definition. -/
def chainedDocument : Document :=
  ⟨#[⟨.element "b" [], none, [1, 2]⟩, ⟨.element "bean" [⟨"id", "retrySupport"⟩], some 0, []⟩,
    ⟨.element "camelContext" [], some 0, [3]⟩,
    ⟨.element "route" [], some 2, [4, 5, 6, 8, 9, 10]⟩, ⟨.text "note", some 3, []⟩,
    ⟨.element "from" [⟨"uri", "jms:q"⟩], some 3, []⟩, ⟨.element "filter" [], some 3, [7]⟩,
    ⟨.element "inOnly" [⟨"uri", "logical:q"⟩], some 6, []⟩, ⟨.text "done", some 3, []⟩,
    ⟨.element "inOnly" [⟨"uri", "logical:q"⟩], some 3, []⟩,
    ⟨.element "inOnly" [⟨"uri", "logical:q"⟩], some 3, []⟩], 0⟩

/-- The reference of the consumer: three attempts, as long as nothing else is asked for. -/
def chainedReference : Reference :=
  ⟨"p", batchingSnapshot, { name := "q", uri := "jms:q", characteristics := [.ofKind kindName] },
    .ofKind kindName⟩

/-- The template is spliced in behind the consumer, and the other bean is added. -/
theorem processConsumer_splices_chained :
    ∃ d' contained next added, processConsumer chainedReference chainedDocument 5 = .ok d' ∧
      chainedDocument.Parts batchingSnapshot [6, 8, 9, 10] contained next ∧
      chainedDocument.Spliced d' 2 3 5 [4] contained next 3 ∧
      chainedDocument.AddsOnlyBeans d' (chainedDocument.placed 3).ids
        [("aggregatorStrategy", "io.hodos.runtime.ListAggregator")] added := by
  have hparse : Document.parse chainedActions = .ok chainedDocument :=
    Outcome.of_toOption_eq_some (by decide +kernel)
  obtain ⟨t, hshows, hroot, -⟩ := Document.exists_shows_of_parse hparse
  have hlimit : kind.positiveValue chainedReference.endpoint chainedReference.characteristic
      "maxRetry" = .ok 3 := Outcome.of_toOption_eq_some (by decide +kernel)
  have hchildren : chainedDocument.children 3 = [4] ++ 5 :: [6, 8, 9, 10] := by decide
  have hquiet : ∀ y ∈ [6, 8, 9, 10], ∀ z ∈ y :: chainedDocument.descendants y,
      chainedDocument.isNamed nextSlot z = false ∧ chainedDocument.isNamed retrySlot z = false := by
    decide +kernel
  have hmissing : chainedDocument.missingBeans =
      [("aggregatorStrategy", "io.hodos.runtime.ListAggregator")] := by decide +kernel
  obtain ⟨d', contained, next, added, hprocess, -, hparts, hspliced, hadded⟩ :=
    processConsumer_splices ⟨hroot, [], hshows⟩ hlimit (by decide) (by decide)
      (show chainedDocument.parent? 3 = some 2 by decide) (by decide) (by decide) hchildren hquiet
  rw [hmissing] at hadded
  exact ⟨d', contained, next, added, hprocess, hparts, hspliced, hadded⟩

end BatchRetry

end RouteCompiler
