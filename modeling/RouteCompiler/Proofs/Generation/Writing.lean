import RouteCompiler.Proofs.Document.Contents
import RouteCompiler.Proofs.Generation.Step

/-!
# What generation writes

Generation adds templates, aggregations, references and beans, sets URIs and moves what
is there.  All tags and texts that it adds can be written, so a document of which every
tag and text can be written stays one.  This is a matter of what nodes hold and not of
how they are linked, so it is proved for the whole arena, edit by edit.

Main results:

- Theorem `isWritable_setAttribute`: a tag stays one that can be written.
- Theorem `Holds.process`: batching an element adds only what can be written.
- Theorem `Step.holds`: so does every step of generation.
-/

namespace RouteCompiler

open RouteCompiler.Route

/-! ## Contents -/

namespace Route

/-- Setting a key keeps the keys, or adds that one at the end. -/
theorem Attribute.map_key_set (key value : String) (attributes : List Attribute) :
    (Attribute.set key value attributes).map Attribute.key =
      if key ∈ attributes.map Attribute.key then attributes.map Attribute.key
      else attributes.map Attribute.key ++ [key] := by
  induction attributes with
  | nil => rfl
  | cons a rest ih =>
      rw [Attribute.set]
      by_cases h : a.key = key
      · simp [h]
      · rw [if_neg h, List.map_cons, ih, List.map_cons]
        by_cases hmem : key ∈ rest.map Attribute.key
        · rw [if_pos hmem, if_pos (List.mem_cons_of_mem _ hmem)]
        · rw [if_neg hmem, if_neg]
          · rfl
          · intro hcons
            rcases List.mem_cons.mp hcons with heq | hrest
            · exact h heq.symm
            · exact hmem hrest

/-- Only the keys of attributes matter to whether a tag can be written. -/
theorem IsTag.of_map_key {name : String} {attributes attributes' : List Attribute}
    (h : IsTag name attributes) (hkeys : attributes'.map Attribute.key = attributes.map Attribute.key) :
    IsTag name attributes' := by
  constructor
  · exact h.name
  · intro a ha
    have hkey : a.key ∈ attributes.map Attribute.key := by
      rw [← hkeys]
      exact List.mem_map_of_mem ha
    obtain ⟨b, hb, heq⟩ := List.mem_map.mp hkey
    rw [← heq]
    exact h.keys b hb
  · rw [hkeys]
    exact h.distinct

/-- A tag stays one that can be written. -/
theorem isWritable_setAttribute {c : Content} (h : c.IsWritable) {key : String}
    (hkey : IsKey key.toList) (value : String) : (c.setAttribute key value).IsWritable := by
  cases c with
  | text text => exact h
  | element name attributes =>
      have htag : IsTag name attributes := h
      have hkeys := Attribute.map_key_set key value attributes
      by_cases hmem : key ∈ attributes.map Attribute.key
      · rw [if_pos hmem] at hkeys
        exact htag.of_map_key hkeys
      · rw [if_neg hmem] at hkeys
        have hnew : IsTag name (attributes ++ [⟨key, value⟩]) := by
          constructor
          · exact htag.name
          · intro a ha
            rcases List.mem_append.mp ha with ha | ha
            · exact htag.keys a ha
            · rw [List.mem_singleton.mp ha]
              exact hkey
          · rw [List.map_append, List.nodup_append]
            refine ⟨htag.distinct, List.nodup_singleton _, ?_⟩
            intro k hk k' hk' heq
            rw [List.map_singleton, List.mem_singleton] at hk'
            rw [heq, hk'] at hk
            exact hmem hk
        exact hnew.of_map_key (by rw [hkeys, List.map_append, List.map_singleton])

end Route

/-- A number is written without white space. -/
theorem isValue_toString (n : Nat) : IsValue (toString n).toList := by
  have hdigits : (toString n).toList = Nat.toDigits 10 n := Nat.toList_repr
  have hshown : ∀ c ∈ Nat.toDigits 10 n, Text.isWhitespace c = false := by
    intro c hc
    have hdigit := Nat.isDigit_of_mem_toDigits (by decide) (by decide) hc
    simp only [Char.isDigit, Bool.and_eq_true, decide_eq_true_eq, UInt32.le_iff_toNat_le] at hdigit
    have hlow : 48 ≤ c.toNat := hdigit.1
    have hhigh : c.toNat ≤ 57 := hdigit.2
    simp only [Text.isWhitespace, Bool.or_eq_false_iff, Bool.and_eq_false_iff,
      decide_eq_false_iff_not, beq_eq_false_iff_ne]
    omega
  rw [hdigits]
  constructor
  · exact Nat.toDigits_ne_nil
  · intro c hc
    exact hshown c (List.mem_of_mem_head? hc)
  · intro c hc
    exact hshown c (List.mem_of_getLast? hc)

/-! ## What processors add -/

namespace BatchRetry

theorem isWritable_consumerOnly : ∀ t ∈ consumerOnly, ∀ c ∈ t.contents, c.IsWritable := by
  decide +kernel

theorem isWritable_consumerProducer :
    ∀ t ∈ consumerProducer, ∀ c ∈ t.contents, c.IsWritable := by
  decide +kernel

theorem isWritable_constant {value : String} (h : IsValue value.toList) :
    ∀ c ∈ (constant value).contents, c.IsWritable := by
  intro c hc
  have hcases : c = .element "constant" [] ∨ c = .text value := by
    simpa [constant, Tree.element, Tree.text, Tree.contents, Tree.contentsAll] using hc
  rcases hcases with rfl | rfl
  · have htag : IsTag "constant" [] := by decide
    exact htag
  · exact h

theorem isWritable_sender (uri : String) : ∀ c ∈ (sender uri).contents, c.IsWritable := by
  intro c hc
  have heq : c = .element Marker.oneWayProducer.tagName [⟨Uri.attributeKey, uri⟩] := by
    simpa [sender, Tree.element, Tree.contents, Tree.contentsAll] using hc
  have htag : IsTag Marker.oneWayProducer.tagName [⟨Uri.attributeKey, ""⟩] := by decide
  rw [heq]
  exact htag.of_map_key rfl

theorem isWritable_aggregation (size interval : Nat) :
    ∀ c ∈ (aggregation size interval).contents, c.IsWritable := by
  have htag : IsTag "aggregate" [⟨"strategyRef", ""⟩, ⟨"completionSize", ""⟩,
      ⟨"completionInterval", ""⟩] := by decide
  have hrest : ∀ c ∈ ((aggregation size interval).children.flatMap Tree.contents),
      c.IsWritable := by
    have hclosed : ∀ c ∈ ((aggregation 0 0).children.flatMap Tree.contents), c.IsWritable := by
      decide +kernel
    exact hclosed
  intro c hc
  rw [aggregation, Tree.element, Tree.contents, Tree.contentsAll_eq_flatMap] at hc
  rcases List.mem_cons.mp hc with rfl | hc
  · exact htag.of_map_key rfl
  · exact hrest c hc

end BatchRetry

/-! ## Processors -/

namespace Route.Document.Holds

open BatchRetry

variable {d d' : Document} {s : Snapshot} {policy : String} {e : Endpoint} {x : NodeId}

theorem ensureBean (h : d.Holds Content.IsWritable) (id className : String) :
    (ensureBean d id className).1.Holds Content.IsWritable := by
  have hbean : IsTag beanElement [] := by decide
  have hid : IsKey "id".toList := by decide
  have hclass : IsKey "class".toList := by decide
  rw [RouteCompiler.ensureBean]
  split
  · exact h
  · have hpush : (d.createElement beanElement).1.Holds Content.IsWritable := h.push hbean
    have hset := hpush.setAttribute (d.createElement beanElement).2 fun c hc =>
      isWritable_setAttribute hc hid id
    have hset' := hset.setAttribute (d.createElement beanElement).2 fun c hc =>
      isWritable_setAttribute hc hclass className
    exact hset'.appendChild _ _

theorem ensureAggregator (h : d.Holds Content.IsWritable) :
    (ensureAggregator d).Holds Content.IsWritable :=
  h.ensureBean _ _

theorem ensureRetrySupport (h : d.Holds Content.IsWritable) :
    (ensureRetrySupport d).Holds Content.IsWritable :=
  h.ensureBean _ _

theorem wrap (h : d.Holds Content.IsWritable) (element : NodeId) (size interval : Nat) :
    (wrap d element size interval).Holds Content.IsWritable := by
  have hcopy := h.graft (isWritable_aggregation size interval)
  exact ((hcopy.replace element _).appendChild _ element).ensureAggregator

theorem appendCopies (h : d.Holds Content.IsWritable) (parent : NodeId) {trees : List Tree}
    (htrees : ∀ t ∈ trees, ∀ c ∈ t.contents, c.IsWritable) :
    (appendCopies d parent trees).1.Holds Content.IsWritable := by
  induction trees generalizing d with
  | nil => exact h
  | cons tree trees ih =>
      have hcopy := h.graft (htrees tree (by simp))
      exact ih (hcopy.appendChild parent _) fun t ht => htrees t (by simp [ht])

theorem fillSlot (h : d.Holds Content.IsWritable) (copies : List NodeId) (slot : String)
    (nodes : List NodeId) : (fillSlot d copies slot nodes).Holds Content.IsWritable := by
  unfold BatchRetry.fillSlot
  split
  · exact h.replaceWithMany _ nodes
  · exact h

theorem fillWithTree (h : d.Holds Content.IsWritable) (copies : List NodeId) (slot : String)
    {tree : Tree} (htree : ∀ c ∈ tree.contents, c.IsWritable) :
    (fillWithTree d copies slot tree).Holds Content.IsWritable := by
  unfold BatchRetry.fillWithTree
  split
  · exact (h.graft htree).replace _ _
  · exact h

theorem spread (h : d.Holds Content.IsWritable) (route element : NodeId) (maxRetry : Nat) :
    (spread s d route element maxRetry).Holds Content.IsWritable := by
  have htemplate : ∀ t ∈ (if (partitionActions s d route element).2.isEmpty then consumerOnly
      else consumerProducer), ∀ c ∈ t.contents, c.IsWritable := by
    split
    · exact isWritable_consumerOnly
    · exact isWritable_consumerProducer
  have hlimit := isWritable_constant (isValue_toString maxRetry)
  have hcopies := h.appendCopies route htemplate
  refine ensureRetrySupport (ensureAggregator ?_)
  refine fillWithTree (fillWithTree ?_ _ maxRetrySlot hlimit) _ retrySlot (isWritable_sender _)
  exact fillSlot (fillSlot hcopies _ actionsSlot _) _ nextSlot _

/-- Batching an element adds only what can be written. -/
theorem process (h : d.Holds Content.IsWritable) {r : Reference}
    (hprocess : process r d x = .ok d') : d'.Holds Content.IsWritable := by
  unfold BatchRetry.process at hprocess
  split at hprocess
  · obtain ⟨size, -, hrest⟩ := Outcome.of_bind_eq_ok hprocess
    obtain ⟨interval, -, hlast⟩ := Outcome.of_bind_eq_ok hrest
    obtain rfl := Except.ok.inj hlast
    exact h.wrap x size interval
  · unfold processConsumer at hprocess
    split at hprocess
    · obtain rfl := Except.ok.inj hprocess
      exact h
    · next route hroute =>
      obtain ⟨maxRetry, -, hlast⟩ := Outcome.of_bind_eq_ok hprocess
      obtain rfl := Except.ok.inj hlast
      exact h.spread route x maxRetry
  · obtain rfl := Except.ok.inj hprocess
    exact h

theorem batchAll (h : d.Holds Content.IsWritable) {cs : List Characteristic}
    (hall : Generator.batchAll s policy e x d cs = .ok d') : d'.Holds Content.IsWritable := by
  induction cs generalizing d with
  | nil =>
      obtain rfl := Except.ok.inj hall
      exact h
  | cons c cs ih =>
      rw [Generator.batchAll, List.foldlM_cons] at hall
      obtain ⟨d₁, hfirst, hrest⟩ := Outcome.of_bind_eq_ok hall
      exact ih (h.process hfirst) hrest

end Route.Document.Holds

namespace Generator

/-- Every step of generation adds only what can be written. -/
theorem Step.holds {g : Generator} {directories : Directories} {s : Snapshot} {policy : String}
    {m : Marker} {p p' : Progress} (h : Step g directories s policy m p p')
    (hregistry : g.registry = .standard ∨ g.registry = .empty)
    (hp : p.document.Holds Content.IsWritable) : p'.document.Holds Content.IsWritable := by
  have huri : IsKey Uri.attributeKey.toList := by decide
  obtain ⟨x, uri, -, hresolve⟩ := h
  obtain ⟨name, e, -, -, -, hall⟩ := exists_batchAll hregistry hresolve
  have hset := hp.setAttribute x fun c hc => isWritable_setAttribute hc huri
    (Uri.appendOptions e.uri (e.options m.role))
  exact hset.batchAll hall

end Generator

end RouteCompiler
