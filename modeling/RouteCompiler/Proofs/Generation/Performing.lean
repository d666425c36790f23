import RouteCompiler.Proofs.Document.Performing
import RouteCompiler.Proofs.Generation.Exhaustion

/-!
# Forests while generating

A processor unlinks nodes, puts them elsewhere and links others where they were.  What it moves
is never above the place where it is put: an aggregation is new, and what follows a consumer in
its route is put into slots below the copies of a template, which hang from that route themselves.

Main definitions:

- `BatchRetry.processEdits`: the edits that a processor performs.
- `BatchRetry.Spreads`: how nodes and the copies of a template stand while slots are filled.
- `Generator.edits`: the edits that generating a policy performs, from the first one of reading
  its definition on.

Main results:

- Theorem `Spreads.runs_fillSlot`: filling a slot.
- Theorem `BatchRetry.runs_processEdits`: a processor keeps a forest with each of its edits.
- Theorem `Generator.every_edit_keeps_forest`: so does all that generating a policy performs.
-/

namespace RouteCompiler

open RouteCompiler.Route RouteCompiler.Route.Document

variable {d d' d'' : Document} {x p target route c r : NodeId}
  {copies later nodes moved rest : List NodeId} {slot : String}

/-! ## Support beans -/

/-- The edits that declare a bean, unless it is declared. -/
def ensureBeanEdits (id className : String) (d : Document) : List ArenaEdit :=
  if declaresBean d id then []
  else [
    .push (.element beanElement []),
    .modify d.size (Content.setAttribute "id" id),
    .modify d.size (Content.setAttribute "class" className),
    .appendChild d.root d.size]

theorem performAll_ensureBeanEdits (d : Document) (id className : String) :
    performAll d (ensureBeanEdits id className d) = (ensureBean d id className).1 := by
  rw [ensureBeanEdits, ensureBean]
  split <;> rfl

theorem runs_ensureBean (h : d.IsForest) (id className : String) :
    d.Runs (ensureBeanEdits id className d) d.Extends := by
  rw [ensureBeanEdits]
  split
  · exact .nil h.extends_self
  · have hpush := h.push (.element beanElement [])
    have hid := hpush.modifyContent d.size (Content.setAttribute "id" id)
    have hclass := hid.modifyContent d.size (Content.setAttribute "class" className)
    have hlt : d.size < d.size + 1 := Nat.lt_succ_self _
    have happend := hclass.appendChild_root (c := d.size) (by simp) (Nat.ne_of_lt h.root_lt).symm
    refine ⟨⟨nofun, hpush, ?_, hid, ?_, hclass, ?_, happend, trivial⟩, happend, ?_, ?_⟩
    · simp [ArenaEdit.addresses, ArenaEdit.perform]
    · simp [ArenaEdit.addresses, ArenaEdit.perform]
    · simpa [ArenaEdit.addresses, ArenaEdit.perform] using Nat.lt_succ_of_lt h.root_lt
    · simp [performAll, ArenaEdit.perform]
    · simp [performAll, ArenaEdit.perform]

namespace BatchRetry

/-- The edits that declare the bean that collects messages. -/
def aggregatorEdits : Document → List ArenaEdit :=
  ensureBeanEdits "aggregatorStrategy" "io.hodos.runtime.ListAggregator"

/-- The edits that declare the bean that keeps track of attempts. -/
def retrySupportEdits : Document → List ArenaEdit :=
  ensureBeanEdits "retrySupport" "io.hodos.runtime.RetrySupport"

theorem performAll_aggregatorEdits (d : Document) :
    performAll d (aggregatorEdits d) = ensureAggregator d :=
  performAll_ensureBeanEdits d _ _

theorem performAll_retrySupportEdits (d : Document) :
    performAll d (retrySupportEdits d) = ensureRetrySupport d :=
  performAll_ensureBeanEdits d _ _

/-! ## Producers -/

theorem performAll_replaceWithCopy (d : Document) (target : NodeId) (tree : Tree) :
    performAll d (graftEdits d.size tree ++ [.replace target d.size]) =
      (d.graft tree).1.replace target d.size := by
  rw [performAll_append, performAll_graftEdits]
  rfl

/-- A copy of a tree is put in the place of a node. -/
theorem runs_replaceWithCopy (h : d.IsForest) (htarget : target < d.size) (tree : Tree) :
    d.Runs (graftEdits d.size tree ++ [.replace target d.size]) d.Extends := by
  have hsize := size_lt_size_graft d tree
  have hreplace := h.replace_graft htarget tree
  refine ⟨?_, ?_⟩
  · rw [safe_append, performAll_graftEdits]
    refine ⟨h.safe_graftEdits tree, ?_, hreplace, trivial⟩
    simpa [ArenaEdit.addresses] using ⟨Nat.lt_trans htarget hsize, hsize⟩
  · rw [performAll_replaceWithCopy]
    exact ⟨hreplace, by simp [root_graft], by simpa using Nat.le_of_lt hsize⟩

/-- The edits that put an element inside a new aggregation. -/
def encloseEdits (element : NodeId) (size interval : Nat) (d : Document) : List ArenaEdit :=
  graftEdits d.size (aggregation size interval) ++
    [.replace element d.size, .appendChild d.size element]

/-- The edits that batch what an element sends. -/
def wrapEdits (element : NodeId) (size interval : Nat) : Document → List ArenaEdit :=
  inTurn [encloseEdits element size interval, aggregatorEdits]

theorem performAll_wrapEdits (d : Document) (element : NodeId) (size interval : Nat) :
    performAll d (wrapEdits element size interval d) = wrap d element size interval := by
  have henclose : performAll d (encloseEdits element size interval d) =
      ((d.graft (aggregation size interval)).1.replace element d.size).appendChild d.size
        element := by
    rw [encloseEdits, performAll_append, performAll_graftEdits]
    rfl
  rw [wrapEdits, performAll_inTurn, List.foldl_cons, List.foldl_cons, List.foldl_nil, henclose,
    performAll_aggregatorEdits, wrap]
  simp only [id_graft]

theorem runs_wrapEdits (h : d.IsForest) (hx : x < d.size) (hroot : x ≠ d.root)
    (size interval : Nat) : d.Runs (wrapEdits x size interval d) d.Extends := by
  have henclose : d.Runs (encloseEdits x size interval d) d.Extends := by
    rw [encloseEdits, List.append_cons]
    refine (runs_replaceWithCopy h hx _).append ?_
    rw [performAll_replaceWithCopy]
    intro hreplaced
    have hsize := size_lt_size_graft d (aggregation size interval)
    have hxlt := Nat.lt_trans hx hsize
    have hlt : d.size < ((d.graft (aggregation size interval)).1.replace x d.size).size := by
      simpa using hsize
    have happend := hreplaced.isForest.appendChild hlt (by simpa using hxlt)
      (fun heq => hroot (heq.trans hreplaced.root))
      (h.not_atOrBelow_replace_graft hx (aggregation size interval))
    refine ⟨⟨?_, happend, trivial⟩, happend, ?_, ?_⟩
    · simpa [ArenaEdit.addresses] using ⟨hsize, hxlt⟩
    · simpa [performAll, ArenaEdit.perform] using hreplaced.root
    · simpa [performAll, ArenaEdit.perform] using Nat.le_of_lt hsize
  refine henclose.inTurn_cons fun d₁ h₁ => ?_
  refine Runs.inTurn_cons (runs_ensureBean h₁.isForest _ _) fun d₂ h₂ => ?_
  exact .nil (h₁.trans h₂)

/-! ## Copies of a template -/

/-- The edits that append copies of trees, which take the places from the given one on. -/
def appendCopiesEdits (parent : NodeId) : NodeId → List Tree → List ArenaEdit
  | _, [] => []
  | n, tree :: trees => graftEdits n tree ++
      .appendChild parent n :: appendCopiesEdits parent (n + tree.contents.length) trees

theorem performAll_appendCopiesEdits (d : Document) (parent : NodeId) (trees : List Tree) :
    performAll d (appendCopiesEdits parent d.size trees) = (appendCopies d parent trees).1 := by
  induction trees generalizing d with
  | nil => rfl
  | cons tree trees ih =>
      have hrest := ih ((d.graft tree).1.appendChild parent d.size)
      rw [size_appendChild, size_graft] at hrest
      rw [appendCopiesEdits, performAll_append, performAll_graftEdits, appendCopies_cons]
      exact hrest

/-- Copies of trees hang from a node, and nothing else was moved. -/
structure Appends (before after : Document) (parent : NodeId) (copies : List NodeId) : Prop where
  forest : before.Extends after
  parent_old : ∀ x, x < before.size → after.parent? x = before.parent? x
  isNew : ∀ c ∈ copies, before.size ≤ c
  hangs : ∀ c ∈ copies, after.HangsFrom c parent

/-- Copies may be appended to what has copies appended to it already. -/
theorem Appends.trans (h : Appends d d' route copies) (h' : Appends d' d'' route later)
    (hcopies : ∀ c ∈ copies, c < d'.size) : Appends d d'' route (copies ++ later) where
  forest := h.forest.trans h'.forest
  parent_old x hx := by
    rw [h'.parent_old x (Nat.lt_of_lt_of_le hx h.forest.size_le), h.parent_old x hx]
  isNew := List.forall_mem_append.mpr
    ⟨h.isNew, fun c hc => Nat.le_trans h.forest.size_le (h'.isNew c hc)⟩
  hangs := List.forall_mem_append.mpr
    ⟨fun c hc => (h'.parent_old c (hcopies c hc)).trans (h.hangs c hc), h'.hangs⟩

theorem appends_copy (h : d.IsForest) (hp : route < d.size) (tree : Tree) :
    Appends d ((d.graft tree).1.appendChild route d.size) route [d.size] := by
  have hsize := size_lt_size_graft d tree
  rw [h.appendChild_graft_eq]
  refine ⟨⟨h.link_graft hp tree, ?_, ?_⟩, fun x hx => ?_, ?_, ?_⟩
  · rw [root_link, root_graft]
  · simpa using Nat.le_of_lt hsize
  · rw [parent_link, if_neg fun hboth => Nat.ne_of_lt hx hboth.1, h.parent_graft tree hx]
  · exact List.forall_mem_singleton.mpr (Nat.le_refl _)
  · refine List.forall_mem_singleton.mpr ?_
    rw [HangsFrom, parent_link, if_pos ⟨rfl, hsize⟩]

theorem runs_appendCopiesEdits (h : d.IsForest) (hp : route < d.size) (trees : List Tree) :
    d.Runs (appendCopiesEdits route d.size trees)
      (Appends d · route (appendCopies d route trees).2) := by
  induction trees generalizing d with
  | nil => exact .nil ⟨h.extends_self, fun _ _ => rfl, nofun, nofun⟩
  | cons tree trees ih =>
      have hsize := size_lt_size_graft d tree
      have hlt := Nat.lt_trans hp hsize
      have hfirst := appends_copy h hp tree
      have hnext := ih hfirst.forest.isForest (by simpa using hlt)
      rw [size_appendChild, size_graft] at hnext
      refine ⟨?_, ?_⟩
      · rw [appendCopiesEdits, safe_append, performAll_graftEdits]
        refine ⟨h.safe_graftEdits tree, ?_, hfirst.forest.isForest, hnext.safe⟩
        simpa [ArenaEdit.addresses] using ⟨hlt, hsize⟩
      · rw [appendCopiesEdits, performAll_append, performAll_graftEdits, appendCopies_cons]
        exact hfirst.trans hnext.result (by simpa using hsize)

/-! ## Filling slots -/

/-- How nodes and copies stand while slots are filled: the nodes hang from their route, and are
not above a copy; no copy is above the route. -/
structure Spreads (d : Document) (route : NodeId) (copies nodes : List NodeId) : Prop where
  isForest : d.IsForest
  copies_lt : ∀ c ∈ copies, c < d.size
  nodup : nodes.Nodup
  hangs : ∀ r ∈ nodes, d.HangsFrom r route
  apart : ∀ c ∈ copies, ∀ r ∈ nodes, ¬ d.AtOrBelow c r
  outside : ∀ c ∈ copies, ¬ d.AtOrBelow route c

/-- What is found among copies is one of them, or below one. -/
theorem exists_of_findAmong {name : String} (h : d.IsForest)
    (hfind : findAmong? d copies name = some x) : ∃ c ∈ copies, d.AtOrBelow x c := by
  obtain ⟨c, hc, hfound⟩ := List.exists_of_findSome?_eq_some hfind
  refine ⟨c, hc, ?_⟩
  split at hfound
  · cases hfound
    exact .refl
  · have hmem := List.mem_of_find?_eq_some hfound
    have hbelow := (h.mem_descendants c).mp hmem
    exact Relation.TransGen.to_reflTransGen
      (Relation.TransGen.mono (fun _ _ hstep => hstep.1) _ _ hbelow)

namespace Spreads

/-- Nodes that stay where they are need not be looked at. -/
theorem of_append (h : Spreads d route copies (moved ++ rest)) : Spreads d route copies rest where
  isForest := h.isForest
  copies_lt := h.copies_lt
  nodup := (List.nodup_append.mp h.nodup).2.1
  hangs r hr := h.hangs r (List.mem_append_right _ hr)
  apart c hc r hr := h.apart c hc r (List.mem_append_right _ hr)
  outside := h.outside

/-- A node is not above what is below a copy. -/
theorem not_above (h : Spreads d route copies nodes) (hc : c ∈ copies) (hx : d.AtOrBelow x c)
    (hr : r ∈ nodes) : ¬ d.AtOrBelow x r := by
  intro habove
  rcases hx.total habove with hup | hdown
  · exact h.apart c hc r hr hup
  · rcases Relation.ReflTransGen.cases_head hdown with heq | ⟨y, hstep, hrest⟩
    · exact h.apart c hc r hr (heq ▸ .refl)
    · rw [hstep.unique (h.hangs r hr)] at hrest
      exact h.outside c hc hrest

theorem replaceWithMany (h : Spreads d route copies (moved ++ rest)) (hc : c ∈ copies)
    (hx : d.AtOrBelow x c) : d.Extends (d.replaceWithMany x moved) ∧
      Spreads (d.replaceWithMany x moved) route copies rest := by
  have hmoved : ∀ r ∈ moved, d.HangsFrom r route :=
    fun r hr => h.hangs r (List.mem_append_left rest hr)
  have hfree : ∀ r ∈ moved, ¬ d.AtOrBelow x r :=
    fun r hr => h.not_above hc hx (List.mem_append_left rest hr)
  have hroot : d.root ∉ moved := by
    intro hmem
    have hparent := hmoved d.root hmem
    rw [HangsFrom, h.isForest.parent_root] at hparent
    cases hparent
  have hnodup := List.nodup_append.mp h.nodup
  have hforest : (d.replaceWithMany x moved).IsForest :=
    h.isForest.replaceWithMany (fun r hr => (hmoved r hr).lt_size) hnodup.1 hroot hfree
  refine ⟨⟨hforest, root_replaceWithMany .., (size_replaceWithMany ..).ge⟩, ?_⟩
  cases hp : d.parent? x with
  | none =>
      rw [Document.replaceWithMany, hp]
      exact h.of_append
  | some p =>
      have hreplaces := h.isForest.replaces hp (fun hmem => hfree x hmem .refl)
        fun r hr => (hmoved r hr).lt_size
      refine ⟨hforest, fun c hc => ?_, hnodup.2.1, fun r hr => ?_, fun c hc r hr habove => ?_,
        fun c hc habove => ?_⟩
      · rw [hreplaces.size]
        exact h.copies_lt c hc
      · have hr' := List.mem_append_right moved hr
        have hrx : r ≠ x := fun heq => h.not_above hc hx hr' (heq ▸ .refl)
        have hrm : r ∉ moved := fun hmem => hnodup.2.2 r hmem r hr rfl
        rw [HangsFrom, hreplaces.parent_other r hrx hrm]
        exact h.hangs r hr'
      · refine h.apart c hc r (List.mem_append_right moved hr) (hreplaces.atOrBelow_of ?_ habove)
        exact fun r hr => h.apart c hc r (List.mem_append_left rest hr)
      · refine h.outside c hc (hreplaces.atOrBelow_of ?_ habove)
        exact fun r hr => h.isForest.not_atOrBelow_of_hangsFrom (hmoved r hr)

end Spreads

/-- The edits that put nodes in the place of a slot, if it is there. -/
def fillSlotEdits (copies : List NodeId) (slot : String) (nodes : List NodeId) (d : Document) :
    List ArenaEdit :=
  match findAmong? d copies slot with
  | some target => [.replaceWithMany target nodes]
  | none => []

theorem performAll_fillSlotEdits (d : Document) (copies : List NodeId) (slot : String)
    (nodes : List NodeId) :
    performAll d (fillSlotEdits copies slot nodes d) = fillSlot d copies slot nodes := by
  cases hfind : findAmong? d copies slot <;> simp only [fillSlotEdits, fillSlot, hfind] <;> rfl

/-- Filling a slot with some of the nodes leaves the others where they are. -/
theorem Spreads.runs_fillSlot (h : Spreads d route copies (moved ++ rest)) (slot : String) :
    d.Runs (fillSlotEdits copies slot moved d)
      fun d' => d.Extends d' ∧ Spreads d' route copies rest := by
  rw [fillSlotEdits]
  split
  · next target hfind =>
    obtain ⟨c, hc, htarget⟩ := exists_of_findAmong h.isForest hfind
    have hafter := h.replaceWithMany hc htarget
    refine ⟨⟨?_, hafter.1.isForest, trivial⟩, hafter⟩
    refine List.forall_mem_cons.mpr ⟨htarget.lt_size (h.copies_lt c hc), fun r hr => ?_⟩
    exact (h.hangs r (List.mem_append_left rest hr)).lt_size
  · exact .nil ⟨h.isForest.extends_self, h.of_append⟩

/-- The edits that put a tree in the place of a slot, if it is there. -/
def fillWithTreeEdits (copies : List NodeId) (slot : String) (tree : Tree) (d : Document) :
    List ArenaEdit :=
  match findAmong? d copies slot with
  | some target => graftEdits d.size tree ++ [.replace target d.size]
  | none => []

theorem performAll_fillWithTreeEdits (d : Document) (copies : List NodeId) (slot : String)
    (tree : Tree) :
    performAll d (fillWithTreeEdits copies slot tree d) = fillWithTree d copies slot tree := by
  cases hfind : findAmong? d copies slot with
  | none =>
      simp only [fillWithTreeEdits, fillWithTree, hfind]
      rfl
  | some target =>
      simp only [fillWithTreeEdits, fillWithTree, hfind, performAll_append, performAll_graftEdits,
        id_graft]
      rfl

theorem runs_fillWithTree (h : d.IsForest) (hcopies : ∀ c ∈ copies, c < d.size) (slot : String)
    (tree : Tree) : d.Runs (fillWithTreeEdits copies slot tree d) d.Extends := by
  rw [fillWithTreeEdits]
  split
  · next target hfind =>
    obtain ⟨c, hc, hbelow⟩ := exists_of_findAmong h hfind
    have htarget := hbelow.lt_size (hcopies c hc)
    exact runs_replaceWithCopy h htarget tree
  · exact .nil h.extends_self

/-! ## Consumers -/

theorem partitionActions_append (s : Snapshot) (d : Document) (route element : NodeId) :
    (partitionActions s d route element).1 ++ (partitionActions s d route element).2 =
      siblingsBehind d route element := by
  rw [partitionActions, ← List.reverse_append, List.takeWhile_append_dropWhile,
    List.reverse_reverse]

theorem siblingsBehind_sublist (d : Document) (route element : NodeId) :
    (siblingsBehind d route element).Sublist (d.children route) :=
  (List.drop_sublist 1 _).trans (List.dropWhile_sublist _)

/-- After a template was appended, what follows a consumer can be moved into it. -/
theorem Appends.spreads (h : Appends d d' route copies) (hd : d.IsForest)
    (hsub : nodes.Sublist (d.children route)) : Spreads d' route copies nodes := by
  have hold : ∀ r ∈ nodes, d.HangsFrom r route :=
    fun r hr => (hd.mem_children route r).mp (hsub.subset hr)
  have hhangs : ∀ r ∈ nodes, d'.HangsFrom r route := by
    intro r hr
    rw [HangsFrom, h.parent_old r (hold r hr).lt_size]
    exact hold r hr
  have hforest := h.forest.isForest
  refine ⟨hforest, fun c hc => (h.hangs c hc).lt_size, (hd.nodup_children route).sublist hsub,
    hhangs, fun c hc r hr habove => ?_,
    fun c hc => hforest.not_atOrBelow_of_hangsFrom (h.hangs c hc)⟩
  rcases Relation.ReflTransGen.cases_head habove with heq | ⟨y, hstep, hrest⟩
  · exact Nat.not_lt.mpr (h.isNew c hc) (heq ▸ (hold r hr).lt_size)
  · rw [hstep.unique (h.hangs c hc)] at hrest
    exact hforest.not_atOrBelow_of_hangsFrom (hhangs r hr) hrest

/-- The edits that fill the slots of a template below a consumer. -/
def fillEdits (copies contained next : List NodeId) (element : NodeId) (maxRetry : Nat) :
    Document → List ArenaEdit :=
  inTurn [
    fillSlotEdits copies actionsSlot contained,
    fillSlotEdits copies nextSlot next,
    fillWithTreeEdits copies maxRetrySlot (constant (toString maxRetry)),
    fun d => fillWithTreeEdits copies retrySlot
      (sender ((d.attribute? element Uri.attributeKey).getD "")) d,
    aggregatorEdits,
    retrySupportEdits]

theorem Spreads.runs_fillEdits {contained next : List NodeId}
    (h : Spreads d route copies (contained ++ next)) (element : NodeId) (maxRetry : Nat) :
    d.Runs (fillEdits copies contained next element maxRetry d) d.Extends := by
  refine Runs.inTurn_cons (h.runs_fillSlot actionsSlot) fun d₁ ⟨h₁, hnext⟩ => ?_
  rw [← List.append_nil next] at hnext
  refine Runs.inTurn_cons (hnext.runs_fillSlot nextSlot) fun d₂ ⟨h₂, hlast⟩ => ?_
  refine Runs.inTurn_cons (runs_fillWithTree h₂.isForest hlast.copies_lt maxRetrySlot _)
    fun d₃ h₃ => ?_
  have hcopies : ∀ c ∈ copies, c < d₃.size :=
    fun c hc => Nat.lt_of_lt_of_le (hlast.copies_lt c hc) h₃.size_le
  refine Runs.inTurn_cons (d := d₃) (runs_fillWithTree h₃.isForest hcopies retrySlot _)
    fun d₄ h₄ => ?_
  refine Runs.inTurn_cons (runs_ensureBean h₄.isForest _ _) fun d₅ h₅ => ?_
  refine Runs.inTurn_cons (runs_ensureBean h₅.isForest _ _) fun d₆ h₆ => ?_
  exact .nil (((((h₁.trans h₂).trans h₃).trans h₄).trans h₅).trans h₆)

/-- The edits that move what follows a consumer into the slots of a template. -/
def spreadEdits (s : Snapshot) (route element : NodeId) (maxRetry : Nat) (d : Document) :
    List ArenaEdit :=
  let contained := (partitionActions s d route element).1
  let next := (partitionActions s d route element).2
  let template := if next.isEmpty then consumerOnly else consumerProducer
  let copies := (appendCopies d route template).2
  inTurn [
    fun d => appendCopiesEdits route d.size template,
    fillEdits copies contained next element maxRetry] d

theorem performAll_spreadEdits (s : Snapshot) (d : Document) (route element : NodeId)
    (maxRetry : Nat) :
    performAll d (spreadEdits s route element maxRetry d) = spread s d route element maxRetry := by
  rw [spreadEdits, performAll_inTurn]
  simp only [List.foldl_cons, List.foldl_nil, fillEdits, performAll_inTurn,
    performAll_appendCopiesEdits, performAll_fillSlotEdits, performAll_fillWithTreeEdits,
    performAll_aggregatorEdits, performAll_retrySupportEdits]
  rfl

theorem runs_spreadEdits (h : d.IsForest) (hroute : route < d.size) (s : Snapshot)
    (element : NodeId) (maxRetry : Nat) :
    d.Runs (spreadEdits s route element maxRetry d) d.Extends := by
  have hsub := siblingsBehind_sublist d route element
  rw [← partitionActions_append s d route element] at hsub
  rw [spreadEdits]
  refine Runs.inTurn_cons (d := d) (runs_appendCopiesEdits h hroute _) fun d₁ h₁ => ?_
  refine Runs.inTurn_cons ((h₁.spreads h hsub).runs_fillEdits element maxRetry) fun d₂ h₂ => ?_
  exact .nil (h₁.forest.trans h₂)

/-! ## The processor -/

/-- The edits that a processor performs around an element.  It reads its settings before the first
of them. -/
def processEdits (r : Reference) (d : Document) (element : NodeId) :
    Except GenerationError (List ArenaEdit) :=
  match (d.name? element).bind Marker.ofTagName? with
  | some .oneWayProducer => do
      let size ← kind.positiveValue r.endpoint r.characteristic "batchSize"
      let interval ← kind.positiveValue r.endpoint r.characteristic "batchInterval"
      return wrapEdits element size interval d
  | some .consumer =>
      match leadingRoute? d element with
      | none => .ok []
      | some route => do
          let maxRetry ← kind.positiveValue r.endpoint r.characteristic "maxRetry"
          return spreadEdits r.snapshot route element maxRetry d
  | _ => .ok []

/-- A processor performs its edits, and does nothing else to the document. -/
theorem process_eq_map (r : Reference) (d : Document) (element : NodeId) :
    process r d element = (processEdits r d element).map (performAll d) := by
  have hsetting : ∀ {x : Except GenerationError Nat}
      {f : Nat → Except GenerationError (List ArenaEdit)}
      {f' : Nat → Except GenerationError Document}, (∀ n, f' n = (f n).map (performAll d)) →
      (x >>= f') = (x >>= f).map (performAll d) := by
    intro x f f' hf
    cases x with
    | error e => rfl
    | ok n => exact hf n
  cases hmarker : (d.name? element).bind Marker.ofTagName? with
  | none =>
      simp only [process, processEdits, hmarker]
      rfl
  | some marker =>
      cases marker with
      | producer =>
          simp only [process, processEdits, hmarker]
          rfl
      | oneWayProducer =>
          simp only [process, processEdits, hmarker, processProducer]
          refine hsetting fun size => hsetting fun interval => ?_
          exact congrArg Except.ok (performAll_wrapEdits d element size interval).symm
      | consumer =>
          simp only [process, processEdits, hmarker, processConsumer]
          cases leadingRoute? d element with
          | none => rfl
          | some route =>
              refine hsetting fun maxRetry => ?_
              exact congrArg Except.ok
                (performAll_spreadEdits r.snapshot d route element maxRetry).symm

/-- A processor keeps a forest with each of its edits. -/
theorem runs_processEdits (h : d.IsForest) (hx : x < d.size) (hroot : x ≠ d.root) {r : Reference}
    {es : List ArenaEdit} (hes : processEdits r d x = .ok es) : d.Runs es d.Extends := by
  rw [processEdits] at hes
  split at hes
  · obtain ⟨size, -, hrest⟩ := Outcome.of_bind_eq_ok hes
    obtain ⟨interval, -, hlast⟩ := Outcome.of_bind_eq_ok hrest
    cases hlast
    exact runs_wrapEdits h hx hroot size interval
  · split at hes
    · cases hes
      exact .nil h.extends_self
    · next route hleading =>
      obtain ⟨maxRetry, -, hlast⟩ := Outcome.of_bind_eq_ok hes
      cases hlast
      have hstep := (Option.filter_eq_some_iff.mp hleading).1
      exact runs_spreadEdits h (h.parent_lt x route hstep) r.snapshot x maxRetry
  · cases hes
    exact .nil h.extends_self

end BatchRetry

/-! ## Generating a policy -/

namespace Generator

variable {g : Generator} {directories : Directories} {s : Snapshot} {policy uri : String}
  {marker : Marker} {e : Endpoint} {p p' : Progress}

/-- The edits that applying characteristics performs, until a setting cannot be read; only
batching changes the document. -/
def characteristicEdits (s : Snapshot) (policy : String) (e : Endpoint) (element : NodeId) :
    Document → List Characteristic → List ArenaEdit
  | _, [] => []
  | d, c :: cs =>
      if c.kind = BatchRetry.kindName then
        match BatchRetry.processEdits ⟨policy, s, e, c⟩ d element with
        | .ok es => es ++ characteristicEdits s policy e element (performAll d es) cs
        | .error _ => []
      else characteristicEdits s policy e element d cs

/-- The edits that resolving a reference performs. -/
def elementEdits (s : Snapshot) (policy : String) (marker : Marker) (element : NodeId)
    (uri : String) (d : Document) : List ArenaEdit :=
  match s.resolveFor marker uri with
  | .ok (some resolution) =>
      if Uri.isLogical resolution.uri then []
      else
        .modify element (Content.setAttribute Uri.attributeKey resolution.uri) ::
          characteristicEdits s policy resolution.endpoint element
            (d.setAttribute element Uri.attributeKey resolution.uri)
            resolution.endpoint.characteristics
  | _ => []

/-- The edits that resolving the references of one kind performs. -/
def kindEdits (g : Generator) (directories : Directories) (s : Snapshot) (policy : String)
    (marker : Marker) : Nat → Progress → List ArenaEdit
  | 0, _ => []
  | steps + 1, p =>
      match nextReference p.document marker with
      | .ok (some (element, uri)) =>
          elementEdits s policy marker element uri p.document ++
            match g.resolveElement directories s policy marker element uri p with
            | .ok p' => kindEdits g directories s policy marker steps p'
            | .error _ => []
      | _ => []

/-- The edits that resolving the references of all kinds performs. -/
def kindsEdits (g : Generator) (directories : Directories) (s : Snapshot) (policy : String)
    (steps : Nat) : List Marker → Progress → List ArenaEdit
  | [], _ => []
  | marker :: rest, p =>
      kindEdits g directories s policy marker steps p ++
        match g.resolveKind directories s policy marker steps p with
        | .ok p' => kindsEdits g directories s policy steps rest p'
        | .error _ => []

/-- The edits that generating a policy performs, from nothing. -/
def edits (g : Generator) (directories : Directories) (resolvers : ResolverChain) (s : Snapshot)
    (policy : Policy) (definition : String) : List ArenaEdit :=
  match s.resourceContents policy with
  | .error _ => []
  | .ok _ =>
      parseEdits definition ++
        match Document.parse definition with
        | .ok document =>
            kindsEdits g directories s policy.name (document.size + addedReferenceLimit) Marker.all
              ⟨document, .empty, [], resolvers⟩
        | .error _ => []

/-! ### What the edits make -/

theorem document_of_applyAll {cs : List Characteristic}
    (h : applyAll .standard s policy e x p cs = .ok p') :
    p'.document = performAll p.document (characteristicEdits s policy e x p.document cs) := by
  induction cs generalizing p with
  | nil =>
      cases h
      rfl
  | cons c cs ih =>
      obtain ⟨p₁, hfirst, hrest⟩ := Outcome.of_bind_eq_ok h
      rw [ih hrest, characteristicEdits]
      rcases applyCharacteristic_standard hfirst with ⟨hkind, rfl⟩ | ⟨hkind, d, hprocess, rfl⟩
      · rw [if_neg hkind]
      · rw [BatchRetry.process_eq_map] at hprocess
        rw [if_pos hkind]
        cases hes : BatchRetry.processEdits ⟨policy, s, e, c⟩ p.document x with
        | error fault =>
            rw [hes] at hprocess
            cases hprocess
        | ok es =>
            rw [hes] at hprocess
            cases hprocess
            simp only [performAll_append]

theorem document_of_resolveElement (hregistry : g.registry = .standard)
    (h : g.resolveElement directories s policy marker x uri p = .ok p') :
    p'.document = performAll p.document (elementEdits s policy marker x uri p.document) := by
  obtain ⟨found, hfound, hrest⟩ := Outcome.of_bind_eq_ok h
  rw [elementEdits, hfound]
  cases found with
  | none => cases hrest
  | some resolution =>
      simp only at hrest ⊢
      split at hrest
      · cases hrest
      · next hphysical =>
        obtain ⟨p₁, happly, hlast⟩ := Outcome.of_bind_eq_ok hrest
        rw [hregistry] at happly
        cases hlast
        rw [if_neg hphysical]
        exact document_of_applyAll happly

theorem document_of_resolveKind (hregistry : g.registry = .standard) {steps : Nat}
    (h : g.resolveKind directories s policy marker steps p = .ok p') :
    p'.document = performAll p.document (kindEdits g directories s policy marker steps p) := by
  induction steps generalizing p with
  | zero =>
      cases h
      rfl
  | succ steps ih =>
      obtain ⟨found, hfound, hrest⟩ := Outcome.of_bind_eq_ok h
      rw [kindEdits, hfound]
      cases found with
      | none =>
          cases hrest
          rfl
      | some entry =>
          obtain ⟨element, uri⟩ := entry
          obtain ⟨p₁, hresolve, hlater⟩ := Outcome.of_bind_eq_ok hrest
          simp only [hresolve, performAll_append, ← document_of_resolveElement hregistry hresolve]
          exact ih hlater

theorem document_of_resolveKinds (hregistry : g.registry = .standard) {steps : Nat}
    {markers : List Marker} (h : g.resolveKinds directories s policy steps markers p = .ok p') :
    p'.document = performAll p.document (kindsEdits g directories s policy steps markers p) := by
  induction markers generalizing p with
  | nil =>
      cases h
      rfl
  | cons marker markers ih =>
      obtain ⟨p₁, hfirst, hrest⟩ := Outcome.of_bind_eq_ok h
      rw [kindsEdits, hfirst, performAll_append, ← document_of_resolveKind hregistry hfirst]
      exact ih hrest

/-- What was generated is written from what the edits make. -/
theorem definition_of_generateWith (hregistry : g.registry = .standard)
    {resolvers resolvers' : ResolverChain} {policy : Policy} {definition : String}
    {generated : GeneratedPolicy}
    (h : g.generateWith directories resolvers s policy definition = .ok (generated, resolvers')) :
    generated.definition =
      (performAll .empty (g.edits directories resolvers s policy definition)).serialize := by
  obtain ⟨resources, hresources, hafter⟩ := Outcome.of_bind_eq_ok h
  obtain ⟨document, hparse, hrest⟩ := Outcome.of_bind_eq_ok hafter
  obtain ⟨p, hresolve, hlast⟩ := Outcome.of_bind_eq_ok hrest
  have hdocument := Outcome.of_mapError_eq_ok hparse
  cases hlast
  rw [edits, Outcome.of_mapError_eq_ok hresources]
  simp only [hdocument, performAll_append, performAll_parseEdits hdocument]
  rw [← document_of_resolveKinds hregistry (Outcome.of_mapError_eq_ok hresolve)]

/-! ### Forests while generating -/

theorem runs_characteristicEdits (h : d.IsForest) (hx : x < d.size) (hroot : x ≠ d.root)
    (s : Snapshot) (policy : String) (e : Endpoint) (cs : List Characteristic) :
    d.Runs (characteristicEdits s policy e x d cs) d.Extends := by
  induction cs generalizing d with
  | nil => exact .nil h.extends_self
  | cons c cs ih =>
      rw [characteristicEdits]
      split
      · split
        · next es hes =>
          have hfirst := BatchRetry.runs_processEdits h hx hroot hes
          refine hfirst.append fun hnext => ?_
          have hlater := ih hnext.isForest (Nat.lt_of_lt_of_le hx hnext.size_le)
            (hnext.root.symm ▸ hroot)
          exact hlater.mono fun d' hd' => hnext.trans hd'
        · exact .nil h.extends_self
      · exact ih h hx hroot

theorem runs_elementEdits (h : d.IsForest) (hx : x < d.size) (hroot : x ≠ d.root) (s : Snapshot)
    (policy : String) (marker : Marker) (uri : String) :
    d.Runs (elementEdits s policy marker x uri d) d.Extends := by
  rw [elementEdits]
  split
  · next resolution _ =>
    split
    · exact .nil h.extends_self
    · have hset := h.modifyContent x (Content.setAttribute Uri.attributeKey resolution.uri)
      have hlater := runs_characteristicEdits hset (by simpa using hx) (by simpa using hroot) s
        policy resolution.endpoint resolution.endpoint.characteristics
      have hfirst : d.Extends (d.setAttribute x Uri.attributeKey resolution.uri) :=
        ⟨hset, rfl, (size_modifyContent ..).ge⟩
      refine ⟨⟨by simpa [ArenaEdit.addresses] using hx, hset, hlater.safe⟩, ?_⟩
      exact hfirst.trans hlater.result
  · exact .nil h.extends_self

/-- A reference that is found is below the root. -/
theorem lt_size_of_nextReference (h : d.IsForest)
    (hnext : nextReference d marker = .ok (some (x, uri))) : x < d.size ∧ x ≠ d.root := by
  have hfind := (nextAmong_eq_ok_some_iff.mp hnext).1
  have hbelow := (h.mem_descendants d.root).mp (List.mem_of_find?_eq_some hfind)
  obtain ⟨parent, hstep, -⟩ := Relation.TransGen.head'_iff.mp hbelow
  refine ⟨hstep.1.lt_size, ?_⟩
  rintro rfl
  exact not_hangsFrom_of_top h.parent_root hstep.1

theorem runs_kindEdits (hregistry : g.registry = .standard) (h : p.document.IsForest)
    (directories : Directories) (s : Snapshot) (policy : String) (marker : Marker) (steps : Nat) :
    p.document.Runs (kindEdits g directories s policy marker steps p) p.document.Extends := by
  induction steps generalizing p with
  | zero => exact .nil h.extends_self
  | succ steps ih =>
      rw [kindEdits]
      split
      · next element uri hnext =>
        obtain ⟨hx, hroot⟩ := lt_size_of_nextReference h hnext
        refine (runs_elementEdits h hx hroot s policy marker uri).append fun hfirst => ?_
        split
        · next p₁ hresolve =>
          rw [← document_of_resolveElement hregistry hresolve] at hfirst ⊢
          exact (ih hfirst.isForest).mono fun d' hd' => hfirst.trans hd'
        · exact .nil hfirst
      · exact .nil h.extends_self

theorem runs_kindsEdits (hregistry : g.registry = .standard) (h : p.document.IsForest)
    (directories : Directories) (s : Snapshot) (policy : String) (steps : Nat)
    (markers : List Marker) :
    p.document.Runs (kindsEdits g directories s policy steps markers p) p.document.Extends := by
  induction markers generalizing p with
  | nil => exact .nil h.extends_self
  | cons marker markers ih =>
      rw [kindsEdits]
      refine (runs_kindEdits hregistry h directories s policy marker steps).append
        fun hfirst => ?_
      split
      · next p₁ hresolve =>
        rw [← document_of_resolveKind hregistry hresolve] at hfirst ⊢
        exact (ih hfirst.isForest).mono fun d' hd' => hfirst.trans hd'
      · exact .nil hfirst

theorem safe_edits (hregistry : g.registry = .standard) (directories : Directories)
    (resolvers : ResolverChain) (s : Snapshot) (policy : Policy) (definition : String) :
    Document.empty.Safe (g.edits directories resolvers s policy definition) := by
  rw [edits]
  split
  · trivial
  · refine safe_append.mpr ⟨safe_parseEdits definition, ?_⟩
    split
    · next document hparse =>
      rw [performAll_parseEdits hparse]
      exact (runs_kindsEdits hregistry (p := ⟨document, .empty, [], resolvers⟩)
        (isForest_of_parse hparse) ..).safe
    · trivial

/-- Whatever the definition, the snapshot and the policy are: the edits of reading a definition
make its document, those of generating a policy make what is written in the end, and each of them
names nodes of the arena only and leaves a forest.  So child lists can be followed downwards from
every node of it, and a walk from every node of it ends. -/
theorem every_edit_keeps_forest (hregistry : g.registry = .standard) (directories : Directories)
    (resolvers : ResolverChain) (s : Snapshot) (policy : Policy) (definition : String) :
    (∀ d, Document.parse definition = .ok d → performAll .empty (parseEdits definition) = d) ∧
    (∀ generated resolvers',
      g.generateWith directories resolvers s policy definition = .ok (generated, resolvers') →
        generated.definition =
          (performAll .empty (g.edits directories resolvers s policy definition)).serialize) ∧
    ∀ before edit behind, (parseEdits definition = before ++ edit :: behind ∨
        g.edits directories resolvers s policy definition = before ++ edit :: behind) →
      let d := performAll .empty before
      let d' := edit.perform d
      (∀ x ∈ edit.addresses, x < d.size) ∧ d'.IsForest ∧
        ∀ x, x < d'.size → (∀ t, d'.Unfolds x t ↔ t = d'.tree x) ∧
          ∀ order, d'.Walks (d'.children x) order ↔ order = d'.descendants x := by
  refine ⟨fun d => performAll_parseEdits,
    fun generated resolvers' => definition_of_generateWith hregistry, ?_⟩
  intro before edit behind hedit
  have hsafe : Document.empty.Safe (before ++ edit :: behind) := by
    rcases hedit with hparse | hgenerate
    · exact hparse ▸ safe_parseEdits definition
    · exact hgenerate ▸ safe_edits hregistry directories resolvers s policy definition
  obtain ⟨hnames, hforest⟩ := hsafe.at_edit
  exact ⟨hnames, hforest, fun x hx =>
    ⟨fun t => hforest.unfolds_iff hx, fun order => hforest.walks_iff x⟩⟩

/-- A definition with a consumer that takes batches, and one action. -/
def consumedReference : String :=
  "<camelContext><route><from uri=\"logical:q\"/><log/></route></camelContext>"

/-- The action is moved into a template below its own route. -/
theorem every_edit_keeps_forest_consumed :
    ∃ before target nodes behind,
      edits ⟨.standard, .empty, .empty⟩ (fun _ => false) .empty batchingSnapshot { name := "p" }
        consumedReference = before ++ .replaceWithMany target nodes :: behind ∧
      target < (performAll .empty before).size ∧
      ((performAll .empty before).replaceWithMany target nodes).IsForest := by
  have hmoves : (edits ⟨.standard, .empty, .empty⟩ (fun _ => false) .empty batchingSnapshot
      { name := "p" } consumedReference).any (fun
        | .replaceWithMany _ _ => true
        | _ => false) = true := by
    decide +kernel
  obtain ⟨edit, hmem, hedit⟩ := List.any_eq_true.mp hmoves
  obtain ⟨before, behind, hsplit⟩ := List.append_of_mem hmem
  cases edit with
  | replaceWithMany target nodes =>
      obtain ⟨-, -, hall⟩ := every_edit_keeps_forest (g := ⟨.standard, .empty, .empty⟩) rfl
        (fun _ => false) .empty batchingSnapshot { name := "p" } consumedReference
      obtain ⟨hnames, hforest, -⟩ := hall before _ behind (.inr hsplit)
      exact ⟨before, target, nodes, behind, hsplit, hnames target List.mem_cons_self, hforest⟩
  | _ => cases hedit

end Generator

end RouteCompiler
