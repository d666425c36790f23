import RouteCompiler.Proofs.Generation.Layout
import RouteCompiler.Proofs.Generation.Producers

/-!
# Batching consumers

A consumer that takes batches is expanded where it is the first element of a
route right below a context.  A template is appended to the route, what followed
the consumer moves into the slots of the template, and two beans are declared.

Main definitions:

- `leads`: whether a consumer at a place is expanded.
- `Placed.contained` and `Placed.comesNext`: the two parts of what follows it.

Main results:

- Theorem `ShowsRoot.batchConsumer`: what expanding a consumer does to the tree
  of the root.
-/

namespace RouteCompiler.Route

open BatchRetry (consumerOnly consumerProducer)

/-! ## What follows a consumer -/

/-- Whether this sends to a batching endpoint. -/
def Content.sendsToBatch (s : Snapshot) (c : Content) : Bool :=
  c.name? == some Marker.oneWayProducer.tagName &&
    (((c.attribute? Uri.attributeKey).bind Uri.endpointName?).bind s.endpoint?).any
      fun e => e.hasCharacteristic BatchRetry.kindName

namespace Placed

/-- The actions among what follows a consumer. -/
def contained (s : Snapshot) (ts : List Placed) : List Placed :=
  (ts.reverse.dropWhile fun t => t.content.sendsToBatch s).reverse

/-- The longest end of what follows a consumer that only sends to batching
endpoints. -/
def comesNext (s : Snapshot) (ts : List Placed) : List Placed :=
  (ts.reverse.takeWhile fun t => t.content.sendsToBatch s).reverse

theorem contained_append_comesNext (s : Snapshot) (ts : List Placed) :
    contained s ts ++ comesNext s ts = ts := by
  rw [contained, comesNext, ← List.reverse_append, List.takeWhile_append_dropWhile,
    List.reverse_reverse]

end Placed

theorem takeWhile_map_congr {α β : Type} {f : α → β} {p : β → Bool} {q : α → Bool} {l : List α}
    (h : ∀ a ∈ l, p (f a) = q a) : (l.map f).takeWhile p = (l.takeWhile q).map f := by
  induction l with
  | nil => rfl
  | cons a l ih =>
      have hrest := ih fun b hb => h b (by simp [hb])
      rw [List.map_cons, List.takeWhile_cons, List.takeWhile_cons, h a (by simp), hrest]
      cases q a <;> rfl

theorem dropWhile_map_congr {α β : Type} {f : α → β} {p : β → Bool} {q : α → Bool} {l : List α}
    (h : ∀ a ∈ l, p (f a) = q a) : (l.map f).dropWhile p = (l.dropWhile q).map f := by
  induction l with
  | nil => rfl
  | cons a l ih =>
      have hrest := ih fun b hb => h b (by simp [hb])
      rw [List.map_cons, List.dropWhile_cons, List.dropWhile_cons, h a (by simp), hrest]
      cases q a <;> rfl

theorem Document.appendCopies_cons (d : Document) (r : NodeId) (tree : Tree) (trees : List Tree) :
    BatchRetry.appendCopies d r (tree :: trees) =
      ((BatchRetry.appendCopies ((d.graft tree).1.appendChild r d.size) r trees).1,
        d.size :: (BatchRetry.appendCopies ((d.graft tree).1.appendChild r d.size) r trees).2) := by
  rw [← id_graft d tree]
  rfl

namespace Document.ShowsAmong

variable {d : Document} {r : NodeId} {c : Content} {fs : List Frame}
  {left behind cs others : List Placed} {u : Placed}

/-- The children of a node. -/
theorem children_plug (h : d.ShowsAmong others (plug fs (.node r c cs))) :
    d.children r = cs.map Placed.id := by
  obtain ⟨gone, hshows⟩ := h
  exact hshows.storesAt.children

/-- The nodes below a node are distinct. -/
theorem nodup_children (h : d.ShowsAmong others (plug fs (.node r c cs))) :
    (cs.map Placed.id).Nodup := by
  obtain ⟨gone, hshows⟩ := h
  exact hshows.nodup_children

/-- A node is none of those that stand before it below the same node. -/
theorem id_ne_of_mem_left (h : d.ShowsAmong others (plug fs (.node r c (left ++ u :: behind)))) :
    ∀ t ∈ left, t.id ≠ u.id := by
  intro t ht heq
  have hnodup := h.nodup_children
  rw [List.map_append, List.map_cons, List.nodup_middle, List.nodup_cons] at hnodup
  exact hnodup.1 (List.mem_append_left _ (heq ▸ List.mem_map_of_mem ht))

/-- The siblings behind a node. -/
theorem siblingsBehind (h : d.ShowsAmong others (plug fs (.node r c (left ++ u :: behind)))) :
    BatchRetry.siblingsBehind d r u.id = behind.map Placed.id := by
  have hleft : ∀ x ∈ left.map Placed.id, (x != u.id) = true := by
    intro x hx
    obtain ⟨t, ht, rfl⟩ := List.mem_map.mp hx
    exact bne_iff_ne.mpr (h.id_ne_of_mem_left t ht)
  rw [BatchRetry.siblingsBehind, h.children_plug, List.map_append,
    List.dropWhile_append_of_pos hleft]
  simp

/-- What follows a node is parted by what its nodes hold. -/
theorem partitionActions (h : d.ShowsAmong others (plug fs (.node r c (left ++ u :: behind))))
    (s : Snapshot) :
    BatchRetry.partitionActions s d r u.id =
      ((Placed.contained s behind).map Placed.id, (Placed.comesNext s behind).map Placed.id) := by
  have hsends : ∀ t ∈ behind.reverse,
      BatchRetry.sendsToBatch s d t.id = t.content.sendsToBatch s := by
    intro t ht
    have hshows : d.ShowsAmong others (plug fs (.node r c ((left ++ [u]) ++ behind))) := by
      simpa using h
    obtain ⟨gs, detached, ht⟩ := hshows.shows_each t (List.mem_reverse.mp ht)
    have hcontent := ht.content_plug
    simp only [BatchRetry.sendsToBatch, Content.sendsToBatch, isNamed_of_content hcontent,
      attribute_of_content hcontent]
  rw [BatchRetry.partitionActions, h.siblingsBehind, ← List.map_reverse,
    dropWhile_map_congr hsends, takeWhile_map_congr hsends, ← List.map_reverse, ← List.map_reverse]
  rfl

/-! ## Copies of a template -/

/-- Copies of trees become the last ones below a node. -/
theorem appendCopies (h : d.ShowsAmong others (plug fs (.node r c cs))) (trees : List Tree) :
    (BatchRetry.appendCopies d r trees).1.ShowsAmong others
        (plug fs (.node r c (cs ++ Placed.numberAll d.size trees))) ∧
      (BatchRetry.appendCopies d r trees).2 = (Placed.numberAll d.size trees).map Placed.id := by
  induction trees generalizing d cs with
  | nil => exact ⟨by simpa [BatchRetry.appendCopies, Placed.numberAll] using h, rfl⟩
  | cons tree trees ih =>
      obtain ⟨hshows, hids⟩ := ih (h.appendGraft tree)
      rw [size_appendChild, size_graft, ← Placed.length_ids_number d.size] at hshows hids
      rw [appendCopies_cons, Placed.numberAll]
      refine ⟨by simpa using hshows, ?_⟩
      rw [hids, List.map_cons, Placed.id_number]

/-! ## Where a consumer is expanded -/

end Document.ShowsAmong

/-- Whether the first element at a place is one that leads a route right below a
context. -/
def leads : List Frame → Bool
  | f :: g :: _ => f.content.name? == some "route" && g.content.name? == some "camelContext" &&
      f.left.all fun t => !t.content.isElement
  | _ => false

namespace Document.ShowsAmong

variable {d : Document} {others : List Placed} {f : Frame} {fs : List Frame} {u : Placed}

/-- The first element below the node above a place stands there if only texts stand
before it. -/
theorem head_elementChildren (h : d.ShowsAmong others (plug (f :: fs) u)) (hu : u.content.isElement) :
    ((d.elementChildren f.id).head? == some u.id) =
      f.left.all fun t => !t.content.isElement := by
  have hplace : d.ShowsAmong others (plug fs (.node f.id f.content ([] ++ (f.left ++ u :: f.right)))) := by
    simpa [plug, Frame.fill] using h
  have helement : ∀ t ∈ f.left ++ u :: f.right, d.isElement t.id = t.content.isElement := by
    intro t ht
    obtain ⟨gs, detached, hshows⟩ := hplace.shows_each t ht
    simp [isElement, name?, hshows.content_plug, Content.isElement]
  have hfind : ((f.left.map Placed.id).find? d.isElement) =
      (f.left.find? fun t => t.content.isElement).map Placed.id := by
    rw [List.find?_map]
    congr 1
    exact List.find?_congr fun t ht => helement t (by simp [ht])
  have hlast : d.isElement u.id = true := (helement u (by simp)).trans hu
  rw [elementChildren, hplace.children_plug, List.nil_append, List.head?_filter, List.map_append,
    List.find?_append, hfind, List.map_cons, List.find?_cons_of_pos hlast]
  cases hleft : f.left.find? fun t => t.content.isElement with
  | none =>
      have hall : (f.left.all fun t => !t.content.isElement) = true := by
        rw [List.all_eq_true]
        exact fun t ht => by simpa using List.find?_eq_none.mp hleft t ht
      rw [hall]
      simp
  | some t =>
      have hne := hplace.id_ne_of_mem_left t (List.mem_of_find?_eq_some hleft)
      have ht := List.find?_some hleft
      simp only [Option.map_some, Option.some_or]
      rw [Bool.eq_iff_iff]
      simp only [beq_iff_eq, Option.some.injEq, hne, List.all_eq_true, Bool.not_eq_true', false_iff]
      intro hall
      simp [hall t (List.mem_of_find?_eq_some hleft)] at ht

/-- Which consumers lead a route, read off the tree. -/
theorem leadingRoute (h : d.ShowsAmong others (plug (f :: fs) u)) (hu : u.content.isElement) :
    BatchRetry.leadingRoute? d u.id = if leads (f :: fs) then some f.id else none := by
  have hhead := h.head_elementChildren hu
  obtain ⟨gone, hshows⟩ := h
  have hparent : d.parent? u.id = some f.id := by
    have hstored := hshows.storesAt
    rw [← u.eta] at hstored
    exact hstored.parent
  have habove : d.Shows (plug fs (f.fill [u]) :: (others ++ gone)) := hshows
  have hroute : d.isNamed "route" f.id = (f.content.name? == some "route") :=
    isNamed_of_content habove.content_plug "route"
  have hcontext : (d.parent? f.id).any (d.isNamed "camelContext") =
      (fs.head?.any fun g => g.content.name? == some "camelContext") := by
    have hholder : d.parent? f.id = holder? fs := habove.storesAt.parent
    cases fs with
    | nil => simp [hholder, holder?]
    | cons g fs =>
        have hnext : d.Shows (plug fs (g.fill [f.fill [u]]) :: (others ++ gone)) := habove
        have hname : d.isNamed "camelContext" g.id = (g.content.name? == some "camelContext") :=
          isNamed_of_content hnext.content_plug "camelContext"
        simp [hholder, holder?, hname]
  rw [BatchRetry.leadingRoute?, hparent, Option.filter_some, hroute, hcontext, hhead]
  cases fs <;> simp [leads]

end Document.ShowsAmong

/-! ## Filling the slots of a template -/

/-- Trees that are searched for a slot before the slot of the template is met, and
what the slot of the template holds afterwards. -/
def Placed.settle (slot : String) (n : NodeId) (us ts : List Placed) :
    List Placed × List Placed :=
  match Placed.fillAll? slot us ts with
  | some filled => (filled, [emptySlot n slot])
  | none => (ts, us)

/-- A template in the place of what follows a consumer. -/
structure Expansion where
  layout : Layout
  /-- Where the number of attempts is. -/
  limitAt : NodeId
  /-- Where the element is that sends messages back. -/
  senderAt : NodeId
  retryAt : NodeId
  nextAt : NodeId

namespace Expansion

/-- The actions, and what is in the slot for what comes next, after that slot was
searched for. -/
def withNext (x : Expansion) (s : Snapshot) (behind : List Placed) :
    List Placed × List Placed :=
  Placed.settle BatchRetry.nextSlot x.nextAt (Placed.comesNext s behind)
    (Placed.contained s behind)

/-- The actions, and what is in the slot for the sender, after that slot was searched
for. -/
def withSender (x : Expansion) (s : Snapshot) (uri : String) (behind : List Placed) :
    List Placed × List Placed :=
  Placed.settle BatchRetry.retrySlot x.retryAt [.number x.senderAt (BatchRetry.sender uri)]
    (x.withNext s behind).1

/-- What stands behind a consumer in place of what followed it. -/
def result (x : Expansion) (s : Snapshot) (maxRetry : Nat) (uri : String)
    (behind : List Placed) : List Placed :=
  x.layout.fill [.number x.limitAt (BatchRetry.constant (toString maxRetry))]
    (x.withSender s uri behind).1 (x.withSender s uri behind).2 (x.withNext s behind).2

/-- An expansion that is a template, sends on where it should, and takes addresses
that are free. -/
structure Fits (x : Expansion) (n : Nat) (onward : Bool) : Prop where
  isInert : x.layout.isInert
  sendsOn : x.layout.ending.sendsOn = onward
  parts : ∀ e ∈ x.layout.parts, n ≤ e.1
  limitAt : n ≤ x.limitAt
  senderAt : n ≤ x.senderAt
  retryAt : n ≤ x.retryAt
  nextAt : n ≤ x.nextAt

end Expansion

section Filling

open BatchRetry

variable {l : Layout} {slot : String} {us limit actions sender next : List Placed} {n : NodeId}

theorem mem_slotNames : actionsSlot ∈ slotNames ∧ nextSlot ∈ slotNames ∧
    retrySlot ∈ slotNames ∧ maxRetrySlot ∈ slotNames := by
  decide

theorem fillAll_actions (h : l.isInert) (i j k m : NodeId) :
    Placed.fillAll? actionsSlot us (l.fill [emptySlot i maxRetrySlot] [emptySlot j actionsSlot]
      [emptySlot k retrySlot] [emptySlot m nextSlot]) =
        some (l.fill [emptySlot i maxRetrySlot] us [emptySlot k retrySlot]
          [emptySlot m nextSlot]) := by
  rw [Layout.fillAll_fill h mem_slotNames.1, fillAll_emptySlot,
    fillAll_emptySlot_of_ne (by decide)]
  rfl

/-- The slot for what comes next is searched for in the actions first. -/
theorem fillAll_next (h : l.isInert) (i k m : NodeId) :
    Placed.fillAll? nextSlot us (l.fill [emptySlot i maxRetrySlot] actions
        [emptySlot k retrySlot] [emptySlot m nextSlot]) =
      if l.ending.sendsOn ∨ (Placed.fillAll? nextSlot us actions).isSome then
        some (l.fill [emptySlot i maxRetrySlot] (Placed.settle nextSlot m us actions).1
          [emptySlot k retrySlot] (Placed.settle nextSlot m us actions).2)
      else none := by
  rw [Layout.fillAll_fill h mem_slotNames.2.1, fillAll_emptySlot,
    fillAll_emptySlot_of_ne (by decide), fillAll_emptySlot_of_ne (by decide), Placed.settle]
  cases Placed.fillAll? nextSlot us actions with
  | some filled => simp
  | none => cases l.ending.sendsOn <;> simp

/-- The slot for the number of attempts comes first. -/
theorem fillAll_maxRetry (h : l.isInert) (i : NodeId) :
    Placed.fillAll? maxRetrySlot us (l.fill [emptySlot i maxRetrySlot] actions sender next) =
      some (l.fill us actions sender next) := by
  rw [Layout.fillAll_fill h mem_slotNames.2.2.2, fillAll_emptySlot]
  rfl

/-- The slot for the sender is searched for in the actions first. -/
theorem fillAll_retry (h : l.isInert) (k : NodeId) (tree : Tree)
    (hlimit : Placed.fillAll? retrySlot us [.number n tree] = none) :
    Placed.fillAll? retrySlot us (l.fill [.number n tree] actions [emptySlot k retrySlot] next) =
      some (l.fill [.number n tree] (Placed.settle retrySlot k us actions).1
        (Placed.settle retrySlot k us actions).2 next) := by
  rw [Layout.fillAll_fill h mem_slotNames.2.2.1, fillAll_emptySlot, hlimit, Placed.settle]
  cases Placed.fillAll? retrySlot us actions <;> rfl

end Filling

/-! ## Expanding a consumer -/

namespace Document

theorem size_fillSlot (d : Document) (copies : List NodeId) (slot : String)
    (nodes : List NodeId) : (BatchRetry.fillSlot d copies slot nodes).size = d.size := by
  unfold BatchRetry.fillSlot
  split
  · exact size_replaceWithMany ..
  · rfl

theorem le_size_fillWithTree (d : Document) (copies : List NodeId) (slot : String)
    (tree : Tree) : d.size ≤ (BatchRetry.fillWithTree d copies slot tree).size := by
  unfold BatchRetry.fillWithTree
  split
  · rw [size_replace, size_graft]
    exact Nat.le_add_right ..
  · exact Nat.le_refl d.size

theorem root_fillSlot (d : Document) (copies : List NodeId) (slot : String)
    (nodes : List NodeId) : (BatchRetry.fillSlot d copies slot nodes).root = d.root := by
  unfold BatchRetry.fillSlot
  split
  · exact root_replaceWithMany ..
  · rfl

theorem root_fillWithTree (d : Document) (copies : List NodeId) (slot : String)
    (tree : Tree) : (BatchRetry.fillWithTree d copies slot tree).root = d.root := by
  unfold BatchRetry.fillWithTree
  split
  · rw [root_replace, root_graft]
  · rfl

theorem root_appendCopies (d : Document) (r : NodeId) (trees : List Tree) :
    (BatchRetry.appendCopies d r trees).1.root = d.root := by
  induction trees generalizing d with
  | nil => rfl
  | cons tree trees ih => rw [appendCopies_cons, ih, root_appendChild, root_graft]

theorem le_size_appendCopies (d : Document) (r : NodeId) (trees : List Tree) :
    d.size ≤ (BatchRetry.appendCopies d r trees).1.size := by
  induction trees generalizing d with
  | nil => exact Nat.le_refl d.size
  | cons tree trees ih =>
      rw [appendCopies_cons]
      refine Nat.le_trans ?_ (ih _)
      rw [size_appendChild, size_graft]
      exact Nat.le_add_right ..

end Document

namespace Document.ShowsAmong

variable {d : Document} {fs : List Frame} {r : NodeId} {c : Content} {l : Layout}
  {ls as bs limit actions sender next others : List Placed} {i j k m n : NodeId}

open BatchRetry (actionsSlot nextSlot retrySlot maxRetrySlot)

/-- The actions move into their slot. -/
theorem fillActions (h : d.ShowsAmong others (plug fs (.node r c (ls ++ as ++ (bs ++
      l.fill [emptySlot i maxRetrySlot] [emptySlot j actionsSlot] [emptySlot k retrySlot]
        [emptySlot m nextSlot]))))) (hl : l.isInert) :
    (BatchRetry.fillSlot d l.tops actionsSlot (as.map Placed.id)).ShowsAmong others
      (plug fs (.node r c (ls ++ (bs ++ l.fill [emptySlot i maxRetrySlot] as
        [emptySlot k retrySlot] [emptySlot m nextSlot])))) := by
  have hfilled := h.fillSlot (Layout.isElement_of_mem_fill hl) (fillAll_actions hl i j k m)
  rwa [Layout.map_id_fill] at hfilled

/-- What comes next moves into its slot, or in the place of an element of that name
among the actions. -/
theorem fillNext (h : d.ShowsAmong others (plug fs (.node r c (ls ++ (bs ++
      l.fill [emptySlot i maxRetrySlot] as [emptySlot k retrySlot] [emptySlot m nextSlot])))))
    (hl : l.isInert) (hends : l.ending.sendsOn = !bs.isEmpty) :
    (BatchRetry.fillSlot d l.tops nextSlot (bs.map Placed.id)).ShowsAmong others
      (plug fs (.node r c (ls ++ l.fill [emptySlot i maxRetrySlot]
        (Placed.settle nextSlot m bs as).1 [emptySlot k retrySlot]
        (Placed.settle nextSlot m bs as).2))) := by
  have hfill : Placed.fillAll? nextSlot bs (l.fill [emptySlot i maxRetrySlot] as
      [emptySlot k retrySlot] [emptySlot m nextSlot]) = _ := fillAll_next hl i k m
  have htops : ∀ t ∈ l.fill [emptySlot i maxRetrySlot] as [emptySlot k retrySlot]
      [emptySlot m nextSlot], t.content.isElement := Layout.isElement_of_mem_fill hl
  split at hfill
  · have hmoved : d.ShowsAmong others (plug fs (.node r c (ls ++ bs ++ ([] ++
        l.fill [emptySlot i maxRetrySlot] as [emptySlot k retrySlot] [emptySlot m nextSlot])))) := by
      simpa using h
    have hfilled := hmoved.fillSlot htops hfill
    rwa [Layout.map_id_fill] at hfilled
  · next hnone =>
    -- Nothing comes next, and the template has no slot for it.
    simp only [not_or, Bool.not_eq_true, Option.isSome_eq_false_iff, Option.isNone_iff_eq_none]
      at hnone
    have hnext : bs = [] := by
      rw [hends] at hnone
      simpa using hnone.1
    subst hnext
    rw [List.nil_append] at h
    have hmissing := h.fillSlot_of_none htops hfill
    rw [Layout.map_id_fill] at hmissing
    rw [BatchRetry.fillSlot, hmissing, Placed.settle, hnone.2,
      Layout.fill_of_not_sendsOn hnone.1 _ _ _ [] [emptySlot m nextSlot]]
    exact h

/-- The number of attempts is put into its slot. -/
theorem fillLimit (h : d.ShowsAmong others (plug fs (.node r c (ls ++
      l.fill [emptySlot i maxRetrySlot] actions sender next)))) (hl : l.isInert) (tree : Tree) :
    (BatchRetry.fillWithTree d l.tops maxRetrySlot tree).ShowsAmong others
      (plug fs (.node r c (ls ++ l.fill [.number d.size tree] actions sender next))) := by
  have hfilled := h.fillWithTree (Layout.isElement_of_mem_fill hl) tree (fillAll_maxRetry hl i)
  rwa [Layout.map_id_fill] at hfilled

/-- The sender is put into its slot, or in the place of an element of that name among
the actions. -/
theorem fillSender {value : Tree} (h : d.ShowsAmong others (plug fs (.node r c (ls ++
      l.fill [.number n value] actions [emptySlot k retrySlot] next)))) (hl : l.isInert)
    (hvalue : ∀ us, Placed.fillAll? retrySlot us [.number n value] = none) (tree : Tree) :
    (BatchRetry.fillWithTree d l.tops retrySlot tree).ShowsAmong others
      (plug fs (.node r c (ls ++ l.fill [.number n value]
        (Placed.settle retrySlot k [.number d.size tree] actions).1
        (Placed.settle retrySlot k [.number d.size tree] actions).2 next))) := by
  have hfilled := h.fillWithTree (Layout.isElement_of_mem_fill hl) tree
    (fillAll_retry hl k value (hvalue _))
  rwa [Layout.map_id_fill] at hfilled

theorem fillAll_constant (us : List Placed) (n value : Nat) :
    Placed.fillAll? retrySlot us [.number n (BatchRetry.constant (toString value))] = none := by
  refine Placed.fillAll_eq_none.mpr ?_
  simp [BatchRetry.constant, Tree.element, Tree.text, Placed.number, Placed.numberAll,
    Content.name?, retrySlot]

/-- The steps of expanding a consumer, one by one. -/
theorem spread_eq {s : Snapshot} {d d₁ d₂ d₃ d₄ d₅ : Document} {r x : NodeId} {maxRetry : Nat}
    {actions next copies : List NodeId}
    (hparts : BatchRetry.partitionActions s d r x = (actions, next))
    (h₁ : BatchRetry.appendCopies d r (if next.isEmpty then consumerOnly else consumerProducer) =
      (d₁, copies))
    (h₂ : BatchRetry.fillSlot d₁ copies actionsSlot actions = d₂)
    (h₃ : BatchRetry.fillSlot d₂ copies nextSlot next = d₃)
    (h₄ : BatchRetry.fillWithTree d₃ copies maxRetrySlot
      (BatchRetry.constant (toString maxRetry)) = d₄)
    (h₅ : BatchRetry.fillWithTree d₄ copies retrySlot
      (BatchRetry.sender ((d₄.attribute? x Uri.attributeKey).getD "")) = d₅) :
    BatchRetry.spread s d r x maxRetry =
      BatchRetry.ensureRetrySupport (BatchRetry.ensureAggregator d₅) := by
  subst h₂ h₃ h₄ h₅
  simp only [BatchRetry.spread, hparts, h₁]

/-- The template that is chosen by what comes next, appended behind what follows a consumer. -/
theorem appendTemplate {f : Frame} {u : Placed} (h : d.ShowsAmong others (plug (f :: fs) u))
    (s : Snapshot) :
    ∃ l i j k o d', Placed.numberAll d.size (if (Placed.comesNext s f.right).isEmpty then
        consumerOnly else consumerProducer) = Layout.fill l [emptySlot i maxRetrySlot]
          [emptySlot j actionsSlot] [emptySlot k retrySlot] [emptySlot o nextSlot] ∧
      l.isInert = true ∧ l.ending.sendsOn = (!(Placed.comesNext s f.right).isEmpty) ∧
      (∀ e ∈ l.parts, d.size ≤ e.1) ∧ d.size ≤ k ∧ d.size ≤ o ∧
      BatchRetry.appendCopies d f.id (if ((Placed.comesNext s f.right).map Placed.id).isEmpty
        then consumerOnly else consumerProducer) = (d', l.tops) ∧
      d'.root = d.root ∧ d.size ≤ d'.size ∧
      d'.ShowsAmong others (plug fs (.node f.id f.content ((f.left ++ [u]) ++
        Placed.contained s f.right ++ (Placed.comesNext s f.right ++ l.fill
          [emptySlot i maxRetrySlot] [emptySlot j actionsSlot] [emptySlot k retrySlot]
            [emptySlot o nextSlot])))) := by
  obtain ⟨l, i, j, k, o, htemplate, hl, hends, hfresh, hk, ho⟩ :=
    exists_layout d.size (!(Placed.comesNext s f.right).isEmpty)
  have honward : (if !(Placed.comesNext s f.right).isEmpty then consumerProducer else
      consumerOnly) = if (Placed.comesNext s f.right).isEmpty then consumerOnly
        else consumerProducer := by
    cases Placed.comesNext s f.right <;> rfl
  rw [honward] at htemplate
  rw [List.isEmpty_map]
  obtain ⟨template, hchosen⟩ : ∃ template, (if (Placed.comesNext s f.right).isEmpty then
    consumerOnly else consumerProducer) = template := ⟨_, rfl⟩
  rw [hchosen] at htemplate ⊢
  have hplace : d.ShowsAmong others (plug fs (.node f.id f.content
      ((f.left ++ [u]) ++ Placed.contained s f.right ++ Placed.comesNext s f.right))) := by
    rw [List.append_assoc _ (Placed.contained s f.right), Placed.contained_append_comesNext]
    simpa [plug, Frame.fill] using h
  obtain ⟨hshows, htops⟩ := hplace.appendCopies template
  rw [htemplate, Layout.map_id_fill] at htops
  rw [htemplate, List.append_assoc] at hshows
  exact ⟨l, i, j, k, o, _, htemplate, hl, hends, hfresh, hk, ho, Prod.ext rfl htops,
    root_appendCopies d f.id template, le_size_appendCopies d f.id template, hshows⟩

/-- The slots of an appended template are filled one after the other. -/
theorem fillSlots {f : Frame} {x : NodeId} {cx : Content} {cs : List Placed} {s : Snapshot}
    {o : NodeId}
    (h : d.ShowsAmong others (plug fs (.node f.id f.content ((f.left ++ [.node x cx cs]) ++
      Placed.contained s f.right ++ (Placed.comesNext s f.right ++ l.fill
        [emptySlot i maxRetrySlot] [emptySlot j actionsSlot] [emptySlot k retrySlot]
          [emptySlot o nextSlot]))))) (hl : l.isInert)
    (hends : l.ending.sendsOn = !(Placed.comesNext s f.right).isEmpty) (maxRetry : Nat) :
    ∃ d₂ d₃ d₄ d₅, BatchRetry.fillSlot d l.tops actionsSlot
        ((Placed.contained s f.right).map Placed.id) = d₂ ∧
      BatchRetry.fillSlot d₂ l.tops nextSlot
        ((Placed.comesNext s f.right).map Placed.id) = d₃ ∧
      BatchRetry.fillWithTree d₃ l.tops maxRetrySlot
        (BatchRetry.constant (toString maxRetry)) = d₄ ∧
      BatchRetry.fillWithTree d₄ l.tops retrySlot
        (BatchRetry.sender ((d₄.attribute? x Uri.attributeKey).getD "")) = d₅ ∧
      d₅.root = d.root ∧ d₃.size = d.size ∧ d₃.size ≤ d₄.size ∧ d₄.size ≤ d₅.size ∧
      d₅.ShowsAmong others (plug (⟨f.id, f.content, f.left, Expansion.result
        ⟨l, d₃.size, d₄.size, k, o⟩ s maxRetry ((cx.attribute? Uri.attributeKey).getD "")
          f.right⟩ :: fs) (.node x cx cs)) := by
  obtain ⟨d₂, h₂⟩ : ∃ d₂, BatchRetry.fillSlot d l.tops actionsSlot
      ((Placed.contained s f.right).map Placed.id) = d₂ := ⟨_, rfl⟩
  obtain ⟨d₃, h₃⟩ : ∃ d₃, BatchRetry.fillSlot d₂ l.tops nextSlot
      ((Placed.comesNext s f.right).map Placed.id) = d₃ := ⟨_, rfl⟩
  obtain ⟨d₄, h₄⟩ : ∃ d₄, BatchRetry.fillWithTree d₃ l.tops maxRetrySlot
      (BatchRetry.constant (toString maxRetry)) = d₄ := ⟨_, rfl⟩
  obtain ⟨d₅, h₅⟩ : ∃ d₅, BatchRetry.fillWithTree d₄ l.tops retrySlot
      (BatchRetry.sender ((d₄.attribute? x Uri.attributeKey).getD "")) = d₅ := ⟨_, rfl⟩
  have hshows₂ := h.fillActions hl
  rw [h₂] at hshows₂
  have hshows₃ := hshows₂.fillNext hl hends
  rw [h₃] at hshows₃
  have hshows₄ := hshows₃.fillLimit hl (BatchRetry.constant (toString maxRetry))
  rw [h₄] at hshows₄
  have huri : d₄.attribute? x Uri.attributeKey = cx.attribute? Uri.attributeKey := by
    refine attribute_of_content (hshows₄.content ?_) Uri.attributeKey
    rw [nodes_plug]
    simp
  have hshows₅ := hshows₄.fillSender hl (fun us => fillAll_constant us d₃.size maxRetry)
    (BatchRetry.sender ((cx.attribute? Uri.attributeKey).getD ""))
  rw [← huri, h₅, huri] at hshows₅
  have hroot : d₅.root = d.root := by
    rw [← h₅, root_fillWithTree, ← h₄, root_fillWithTree, ← h₃, root_fillSlot, ← h₂,
      root_fillSlot]
  have hsize : d₃.size = d.size := by rw [← h₃, size_fillSlot, ← h₂, size_fillSlot]
  exact ⟨d₂, d₃, d₄, d₅, h₂, h₃, h₄, h₅, hroot, hsize, h₄ ▸ le_size_fillWithTree ..,
    h₅ ▸ le_size_fillWithTree .., hshows₅⟩

/-- Expanding a consumer puts a filled template in the place of what followed it; then two
beans are declared. -/
theorem fillTemplate {f : Frame} {x : NodeId} {cx : Content} {cs : List Placed}
    (h : d.ShowsAmong others (plug (f :: fs) (.node x cx cs))) (s : Snapshot) (maxRetry : Nat) :
    ∃ y i j d', Expansion.Fits y d.size (!(Placed.comesNext s f.right).isEmpty) ∧
      Placed.numberAll d.size (if (Placed.comesNext s f.right).isEmpty then consumerOnly
        else consumerProducer) = y.layout.fill [emptySlot i maxRetrySlot]
          [emptySlot j actionsSlot] [emptySlot y.retryAt retrySlot] [emptySlot y.nextAt nextSlot] ∧
      BatchRetry.spread s d f.id x maxRetry =
        BatchRetry.ensureRetrySupport (BatchRetry.ensureAggregator d') ∧
      d'.root = d.root ∧ d.size ≤ d'.size ∧
      d'.ShowsAmong others (plug (⟨f.id, f.content, f.left, y.result s maxRetry
        ((cx.attribute? Uri.attributeKey).getD "") f.right⟩ :: fs) (.node x cx cs)) := by
  have hplace : d.ShowsAmong others (plug fs (.node f.id f.content
      (f.left ++ .node x cx cs :: f.right))) := by
    simpa [plug, Frame.fill] using h
  have hparts := hplace.partitionActions s
  rw [Placed.id_node] at hparts
  obtain ⟨l, i, j, k, o, d₁, htemplate, hl, hends, hfresh, hk, ho, h₁, hroot₁, hsize₁, hshows₁⟩ :=
    h.appendTemplate s
  obtain ⟨d₂, d₃, d₄, d₅, h₂, h₃, h₄, h₅, hroot₅, hsize₃, hsize₄, hsize₅, hshows₅⟩ :=
    hshows₁.fillSlots hl hends maxRetry
  have hlimit : d.size ≤ d₃.size := hsize₃.symm ▸ hsize₁
  have hsender : d.size ≤ d₄.size := Nat.le_trans hlimit hsize₄
  exact ⟨⟨l, d₃.size, d₄.size, k, o⟩, i, j, d₅, ⟨hl, hends, hfresh, hlimit, hsender, hk, ho⟩,
    htemplate, spread_eq hparts h₁ h₂ h₃ h₄ h₅, hroot₅.trans hroot₁,
    Nat.le_trans hsender hsize₅, hshows₅⟩

end Document.ShowsAmong

/-- Expanding a consumer puts a filled template in the place of what followed it, and
declares two beans. -/
theorem Document.ShowsRoot.spread {d : Document} {f : Frame} {fs : List Frame} {x : NodeId}
    {cx : Content} {cs : List Placed} (h : d.ShowsRoot (plug (f :: fs) (.node x cx cs)))
    (s : Snapshot) (maxRetry : Nat) :
    ∃ y n m, Expansion.Fits y d.size (!(Placed.comesNext s f.right).isEmpty) ∧ d.size ≤ n ∧
      d.size ≤ m ∧ d.size ≤ (BatchRetry.spread s d f.id x maxRetry).size ∧
      (BatchRetry.spread s d f.id x maxRetry).ShowsRoot
        (((plug (⟨f.id, f.content, f.left, y.result s maxRetry
          ((cx.attribute? Uri.attributeKey).getD "") f.right⟩ :: fs)
            (.node x cx cs)).withAggregator n).withRetrySupport m) := by
  obtain ⟨y, i, j, d', hfits, -, hspread, hroot, hsize, hshows⟩ := h.among.fillTemplate s maxRetry
  have hfilled : d'.ShowsRoot (plug (⟨f.id, f.content, f.left, y.result s maxRetry
      ((cx.attribute? Uri.attributeKey).getD "") f.right⟩ :: fs) (.node x cx cs)) := by
    refine hshows.showsRoot (by simp) (hroot.trans (h.1.trans ?_))
    exact id_plug_congr (by rfl) fs
  have hbeans := (hfilled.ensureBean "aggregatorStrategy"
    "io.hodos.runtime.ListAggregator").ensureBean "retrySupport" "io.hodos.runtime.RetrySupport"
  have hsize' : d.size ≤ (BatchRetry.ensureAggregator d').size :=
    Nat.le_trans hsize (le_size_ensureBean ..)
  rw [hspread]
  exact ⟨y, d'.size, (BatchRetry.ensureAggregator d').size, hfits, hsize, hsize',
    Nat.le_trans hsize' (le_size_ensureBean ..), hbeans⟩

/-! ## Several rounds -/

/-- Expanding a consumer once for each setting of the batching characteristic: the
frames around the consumer before and after. -/
inductive Expands (s : Snapshot) (uri : String) (low : Nat) :
    Nat → List Frame → List Frame → Prop
  | done (fs : List Frame) : Expands s uri low 0 fs fs
  | round {k maxRetry : Nat} {y : Expansion} {f : Frame} {fs fs' : List Frame} {bs : List Placed}
      (hleads : leads (f :: fs)) (hdistinct : (f.right.flatMap Placed.ids).Nodup)
      (hfits : y.Fits low (!(Placed.comesNext s f.right).isEmpty))
      (hbeans : ∀ b ∈ bs, Placed.IsBean low b)
      (hrest : Expands s uri low k
        (⟨f.id, f.content, f.left, y.result s maxRetry uri f.right⟩ :: addAtEnd bs fs) fs') :
      Expands s uri low (k + 1) (f :: fs) fs'

theorem Expansion.Fits.mono {y : Expansion} {low low' : Nat} {onward : Bool}
    (h : y.Fits low' onward) (hle : low ≤ low') : y.Fits low onward :=
  ⟨h.isInert, h.sendsOn, fun e he => Nat.le_trans hle (h.parts e he), Nat.le_trans hle h.limitAt,
    Nat.le_trans hle h.senderAt, Nat.le_trans hle h.retryAt, Nat.le_trans hle h.nextAt⟩

theorem leads_addAtEnd {f : Frame} {fs : List Frame} (h : leads (f :: fs)) (right : List Placed)
    (bs : List Placed) : leads (⟨f.id, f.content, f.left, right⟩ :: addAtEnd bs fs) := by
  cases fs with
  | nil => simp [leads] at h
  | cons g fs =>
      obtain ⟨right', fs', hfs'⟩ := exists_addAtEnd_cons bs g fs
      rw [hfs']
      exact h

/-- Both beans of an expanded consumer are declared at the end of the root. -/
theorem exists_plug_withBeans {f g : Frame} {fs : List Frame} {t : Placed} {low n m : Nat}
    (hn : low ≤ n) (hm : low ≤ m) :
    ∃ bs, (∀ b ∈ bs, Placed.IsBean low b) ∧
      ((plug (f :: g :: fs) t).withAggregator n).withRetrySupport m =
        plug (f :: addAtEnd bs (g :: fs)) t := by
  obtain ⟨bs, hbs, hfirst⟩ := exists_plug_withBean n "aggregatorStrategy"
    "io.hodos.runtime.ListAggregator" f (g :: fs) t hn
  rw [addAtEnd_cons_cons] at hfirst
  obtain ⟨bs', hbs', hsecond⟩ := exists_plug_withBean m "retrySupport"
    "io.hodos.runtime.RetrySupport" f (addAtEnd bs (g :: fs)) t hm
  obtain ⟨right, fs', hfs'⟩ := exists_addAtEnd_cons bs g fs
  refine ⟨bs ++ bs', ?_, ?_⟩
  · intro b hb
    rcases List.mem_append.mp hb with hb | hb
    · exact hbs b hb
    · exact hbs' b hb
  · rw [Placed.withAggregator, Placed.withRetrySupport, hfirst, hsecond, hfs',
      addAtEnd_cons_cons, ← hfs', addAtEnd, addAtEnd, addAtEnd, List.foldl_append]

namespace Document.ShowsRoot

variable {d d' : Document} {f : Frame} {fs : List Frame} {x : NodeId} {c : Content}
  {cs : List Placed} {s : Snapshot} {policy : String} {e : Endpoint}

/-- Addresses of what follows a place are distinct. -/
theorem nodup_right {u : Placed} (h : d.ShowsRoot (plug (f :: fs) u)) :
    (f.right.flatMap Placed.ids).Nodup := by
  have hnodup := h.nodup
  rw [ids_plug, nodesBehind, List.map_append, List.map_flatMap] at hnodup
  have hbehind := (List.nodup_append.mp hnodup).2.1
  exact (List.nodup_append.mp hbehind).1

/-- One round of batching a consumer expands it, if it leads a route; then it stands at the same
place of the new tree. -/
theorem processConsumer {entry : Characteristic} {low : Nat}
    (h : d.ShowsRoot (plug (f :: fs) (.node x c cs)))
    (hname : c.name? = some Marker.consumer.tagName) (hlow : low ≤ d.size)
    (hprocess : BatchRetry.process ⟨policy, s, e, entry⟩ d x = .ok d') :
    (leads (f :: fs) = false ∧ d' = d) ∨
      ∃ f' n m bs y maxRetry, leads (f :: fs) = true ∧
        f' = ⟨f.id, f.content, f.left, Expansion.result y s maxRetry
          ((c.attribute? Uri.attributeKey).getD "") f.right⟩ ∧
        y.Fits low (!(Placed.comesNext s f.right).isEmpty) ∧ low ≤ n ∧ low ≤ m ∧
        (∀ b ∈ bs, Placed.IsBean low b) ∧
        ((plug (f' :: fs) (.node x c cs)).withAggregator n).withRetrySupport m =
          plug (f' :: addAtEnd bs fs) (.node x c cs) ∧
        leads (f' :: addAtEnd bs fs) = true ∧ low ≤ d'.size ∧
        d'.ShowsRoot (plug (f' :: addAtEnd bs fs) (.node x c cs)) := by
  have hmarker : (d.name? x).bind Marker.ofTagName? = some .consumer := by
    have hcontent : d.content? x = some c := h.content_plug
    rw [name_of_content hcontent, hname]
    exact Marker.ofTagName_tagName _
  have hroute := h.among.leadingRoute (Content.isElement_of_name hname)
  rw [Placed.id_node] at hroute
  simp only [BatchRetry.process, hmarker, BatchRetry.processConsumer, hroute] at hprocess
  cases hleads : leads (f :: fs) with
  | false =>
      simp only [hleads, Bool.false_eq_true, if_false, Except.ok.injEq] at hprocess
      exact .inl ⟨rfl, hprocess.symm⟩
  | true =>
      simp only [hleads, if_true] at hprocess
      obtain ⟨maxRetry, -, hspread⟩ := Outcome.of_bind_eq_ok hprocess
      simp only [pure, Except.pure, Except.ok.injEq] at hspread
      obtain ⟨y, n, m, hfits, hn, hm, hsize, hshows⟩ := h.spread s maxRetry
      rw [hspread] at hsize hshows
      cases fs with
      | nil => simp [leads] at hleads
      | cons g fs =>
          have hn' := Nat.le_trans hlow hn
          have hm' := Nat.le_trans hlow hm
          obtain ⟨bs, hbs, hplug⟩ := exists_plug_withBeans (f := ⟨f.id, f.content, f.left,
            y.result s maxRetry ((c.attribute? Uri.attributeKey).getD "") f.right⟩) (g := g)
            (t := .node x c cs) hn' hm'
          exact .inr ⟨_, n, m, bs, y, maxRetry, rfl, rfl, hfits.mono hlow, hn', hm', hbs, hplug,
            leads_addAtEnd hleads _ bs, Nat.le_trans hlow hsize, hplug ▸ hshows⟩

/-- Batching a consumer expands it once for each setting, if it leads a route. -/
theorem batchConsumer {entries : List Characteristic} {low : Nat}
    (h : d.ShowsRoot (plug (f :: fs) (.node x c cs)))
    (hname : c.name? = some Marker.consumer.tagName) (hlow : low ≤ d.size)
    (hall : Generator.batchAll s policy e x d entries = .ok d') :
    (leads (f :: fs) = false ∧ d' = d) ∨ (leads (f :: fs) = true ∧ low ≤ d'.size ∧
      ∃ fs', Expands s ((c.attribute? Uri.attributeKey).getD "") low entries.length (f :: fs) fs' ∧
        d'.ShowsRoot (plug fs' (.node x c cs))) := by
  induction entries generalizing d f fs with
  | nil =>
      simp only [Generator.batchAll, List.foldlM_nil, pure, Except.pure, Except.ok.injEq] at hall
      subst hall
      cases hleads : leads (f :: fs) with
      | false => exact .inl ⟨rfl, rfl⟩
      | true => exact .inr ⟨rfl, hlow, f :: fs, .done _, h⟩
  | cons entry entries ih =>
      obtain ⟨d₁, hprocess, hrest⟩ := Outcome.of_bind_eq_ok hall
      rcases h.processConsumer hname hlow hprocess with ⟨hleads, rfl⟩ |
        ⟨f', n, m, bs, y, maxRetry, hleads, rfl, hfits, -, -, hbs, -, hleads', hsize, hshows⟩
      · rcases ih h hlow hrest with ⟨-, rfl⟩ | ⟨hnot, -⟩
        · exact .inl ⟨hleads, rfl⟩
        · simp [hleads] at hnot
      · rcases ih hshows hsize hrest with ⟨hnot, -⟩ | ⟨-, hlast, fs', hexpands, hresult⟩
        · simp [hleads'] at hnot
        · exact .inr ⟨hleads, hlast, fs', .round hleads h.nodup_right hfits hbs hexpands, hresult⟩

end Document.ShowsRoot

end RouteCompiler.Route
