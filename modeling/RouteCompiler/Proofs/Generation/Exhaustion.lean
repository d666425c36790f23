import RouteCompiler.Proofs.Generation.Step
import Mathlib.Logic.Relation

/-!
# Generation runs out of references

Batching restructures a document, but it adds no marker that needs resolving and
duplicates nothing.  So every step lowers the number of references below the
root, the loops over the markers end, and no reference is left.

Main definitions:

- `Content.IsSettled`: nothing that a step would still have to resolve.
- `Generator.Loops`: the loops over the markers, without any bound.

Main results:

- Theorem `Resolves.tallyBelow_le`: a step adds nothing that is not settled.
- Theorem `references_run_out`: the loops resolve every reference at most once and
  leave none.
-/

namespace RouteCompiler

open RouteCompiler.Route

namespace Route

/-! ## Settled content -/

/-- Markers only with URIs that are not logical. -/
def Content.IsSettled (c : Content) : Prop :=
  ∀ m, c.name? = some (Marker.tagName m) → c.IsPhysical

theorem Content.IsPlain.isSettled {c : Content} (h : c.IsPlain) : c.IsSettled := by
  intro m hname
  have hmarker := h.marker
  rw [Content.marker_eq_some.mpr hname] at hmarker
  cases hmarker

theorem Content.IsPhysical.isSettled {c : Content} (h : c.IsPhysical) : c.IsSettled :=
  fun _ _ => h

theorem isSettled_beanContent (id className : String) :
    (beanContent id className).IsSettled := by
  intro m hname
  cases m <;> simp [beanContent, beanElement, Content.name?, Marker.tagName] at hname

/-- What is settled refers to nothing. -/
theorem Content.IsSettled.target_eq_none {c : Content} (h : c.IsSettled) (s : Snapshot) :
    c.target? s = none := by
  cases hmarker : c.marker? with
  | none => simp [Content.target?, hmarker]
  | some m =>
      obtain ⟨uri, huri, hphysical⟩ := h m (Content.marker_eq_some.mp hmarker)
      have hnone : Uri.afterScheme? uri = none := by
        simpa [Uri.isLogical] using hphysical
      simp [Content.target?, hmarker, huri, Uri.endpointName?, hnone]

/-- Whether this is a marker of a kind that still has to be resolved. -/
def Content.isUnresolved (m : Marker) (c : Content) : Bool :=
  c.name? == some m.tagName &&
    !(c.attribute? Uri.attributeKey).any fun uri => !Uri.isLogical uri

theorem Content.isUnresolved_eq_false {m : Marker} {c : Content} :
    c.isUnresolved m = false ↔ (c.name? = some m.tagName → c.IsPhysical) := by
  rw [isUnresolved, Bool.and_eq_false_imp, beq_iff_eq, Bool.not_eq_false', Option.any_eq_true]
  refine imp_congr_right fun _ => exists_congr fun uri => and_congr_right fun _ => ?_
  rw [Bool.not_eq_true']

theorem isPhysical_setAttribute {c : Content} (hc : c.isElement) {uri : String}
    (huri : Uri.isLogical uri = false) : (c.setAttribute Uri.attributeKey uri).IsPhysical :=
  ⟨uri, Content.attribute_setAttribute hc _ _, huri⟩

/-- Whether this holds of nothing that batching puts around an element: of no plain content,
and not of the element that sends messages back. -/
structure Foreign (P : Content → Bool) : Prop where
  plain : ∀ c : Content, c.IsPlain → P c = false
  sender : ∀ uri, Uri.isLogical uri = false →
    P (.element Marker.oneWayProducer.tagName [⟨Uri.attributeKey, uri⟩]) = false

/-- What holds of nothing settled is foreign. -/
theorem Foreign.of_isSettled {P : Content → Bool} (hP : ∀ c, c.IsSettled → P c = false) :
    Foreign P where
  plain c hc := hP c hc.isSettled
  sender uri huri := by
    have hphysical : (Content.element Marker.oneWayProducer.tagName
        [⟨Uri.attributeKey, uri⟩]).IsPhysical :=
      ⟨uri, by simp [Content.attribute?, Attribute.find?], huri⟩
    exact hP _ hphysical.isSettled

/-! ## Counting around a place -/

section Tally

variable {P : Content → Bool} {fs : List Frame} {t u : Placed} {ts us : List Placed}

theorem tally_plug (h : Open fs) (t : Placed) :
    Placed.tally P [plug fs t] = (elementsBefore fs).countP (fun e => P e.2) +
      Placed.tally P [t] + (elementsBehind fs).countP fun e => P e.2 := by
  simp [Placed.tally, elements_plug h, Nat.add_assoc]

theorem tally_node {c : Content} (hc : c.isElement) (x : NodeId) (cs : List Placed) :
    Placed.tally P [.node x c cs] = Placed.tally P cs + if P c then 1 else 0 := by
  simp [Placed.tally, Placed.elements_of_isElement hc, List.countP_cons]

theorem tally_append_bean (hP : ∀ c, c.IsSettled → P c = false) (ht : t.content.isElement)
    {low : Nat} {b : Placed} (hb : Placed.IsBean low b) :
    Placed.tally P [t.append b] = Placed.tally P [t] := by
  obtain ⟨n, id, className, -, rfl⟩ := hb
  have hbean := hP _ (isSettled_beanContent id className)
  have helement : (beanContent id className).isElement := rfl
  simp [Placed.tally, elements_append ht, Placed.elements_of_isElement helement, hbean]

theorem tally_withBean (hP : ∀ c, c.IsSettled → P c = false) (ht : t.content.isElement)
    (n : NodeId) (id className : String) :
    Placed.tally P [t.withBean n id className] = Placed.tally P [t] := by
  rw [Placed.withBean]
  split
  · rfl
  · exact tally_append_bean hP ht ⟨n, id, className, Nat.zero_le n, rfl⟩

/-- Aggregations add nothing. -/
theorem tally_enclosedIn (hP : Foreign P) (as : List (NodeId × Nat × Nat)) (t : Placed) :
    Placed.tally P [t.enclosedIn as] = Placed.tally P [t] := by
  induction as with
  | nil => rfl
  | cons a as ih =>
      have hadded : (Placed.number a.1 (BatchRetry.aggregation a.2.1 a.2.2)).elements.countP
          (fun e => P e.2) = 0 := by
        refine List.countP_eq_zero.mpr fun e he => ?_
        have hplain := Placed.elements_number_plain ((Placed.elements_sublist _).subset he)
        simp [hP.plain e.2 hplain]
      have hstep : t.enclosedIn (a :: as) = (t.enclosedIn as).enclosed a.1 a.2.1 a.2.2 := rfl
      simp only [Placed.tally, List.flatMap_singleton] at ih ⊢
      rw [hstep, Placed.elements_enclosed, List.countP_append, hadded, Nat.zero_add, ih]

/-- Filling a slot adds at most what is put into it. -/
theorem tally_settle_le {slot : String} (hslot : P (.element slot []) = false) (n : NodeId)
    (us ts : List Placed) :
    Placed.tally P (Placed.settle slot n us ts).1 + Placed.tally P (Placed.settle slot n us ts).2 ≤
      Placed.tally P ts + Placed.tally P us := by
  rw [Placed.settle]
  split
  · next filled hfilled =>
    obtain ⟨before, x, below, behind, hts, hts', -⟩ := Placed.elements_of_fillAll hfilled
    simp only [Placed.tally, emptySlot, List.flatMap_singleton, Placed.elements_element,
      List.flatMap_nil, List.countP_singleton, hslot, hts, hts', List.countP_append]
    simp only [Bool.false_eq_true, if_false]
    omega
  · exact Nat.le_refl _

theorem Foreign.eq_false_of_isInert (hP : Foreign P) (c : Content) (hc : c.isInert) :
    P c = false :=
  hP.plain c (Content.isPlain_of_isInert hc)

theorem tally_limit (h : P (.element "constant" []) = false) (n maxRetry : Nat) :
    Placed.tally P [.number n (BatchRetry.constant (toString maxRetry))] = 0 := by
  simp [Placed.tally, BatchRetry.constant, Tree.element, Tree.text, Placed.number,
    Placed.numberAll, h]

theorem tally_sender {uri : String}
    (h : P (.element Marker.oneWayProducer.tagName [⟨Uri.attributeKey, uri⟩]) = false) (n : Nat) :
    Placed.tally P [.number n (BatchRetry.sender uri)] = 0 := by
  simp [Placed.tally, BatchRetry.sender, Tree.element, Placed.number, Placed.numberAll, h]

/-- An expanded consumer is followed by nothing that did not follow it before. -/
theorem tally_result_le (hP : Foreign P) {y : Expansion} {low : Nat} {onward : Bool}
    (hy : y.Fits low onward) (s : Snapshot) (maxRetry : Nat) {uri : String}
    (huri : Uri.isLogical uri = false) (behind : List Placed) :
    Placed.tally P (y.result s maxRetry uri behind) ≤ Placed.tally P behind := by
  have hsplit := Placed.tally_append P (Placed.contained s behind) (Placed.comesNext s behind)
  rw [Placed.contained_append_comesNext] at hsplit
  have hsender := tally_sender (hP.sender uri huri) y.senderAt
  have hnext : Placed.tally P (y.withNext s behind).1 + Placed.tally P (y.withNext s behind).2 ≤
      Placed.tally P (Placed.contained s behind) + Placed.tally P (Placed.comesNext s behind) :=
    tally_settle_le (hP.plain _ (by decide)) ..
  have hretry : Placed.tally P (y.withSender s uri behind).1 +
      Placed.tally P (y.withSender s uri behind).2 ≤
        Placed.tally P (y.withNext s behind).1 +
          Placed.tally P [.number y.senderAt (BatchRetry.sender uri)] :=
    tally_settle_le (hP.plain _ (by decide)) ..
  rw [Expansion.result, Layout.tally_fill hy.isInert hP.eq_false_of_isInert,
    tally_limit (hP.plain _ (by decide))]
  split <;> omega

/-- Trees behind a place count with what they hold. -/
theorem tally_withRight {f : Frame} (hopen : Open (f :: fs)) (right : List Placed) (t : Placed) :
    Open (⟨f.id, f.content, f.left, right⟩ :: fs) ∧
      Placed.tally P [plug (⟨f.id, f.content, f.left, right⟩ :: fs) t] +
        Placed.tally P f.right = Placed.tally P [plug (f :: fs) t] + Placed.tally P right := by
  have hopen' : Open (⟨f.id, f.content, f.left, right⟩ :: fs) := by
    intro g hg
    rcases List.mem_cons.mp hg with rfl | hg
    · exact hopen f (by simp)
    · exact hopen g (by simp [hg])
  refine ⟨hopen', ?_⟩
  rw [tally_plug hopen', tally_plug hopen]
  simp only [elementsBefore, elementsBehind, List.countP_append, Placed.tally]
  omega

theorem tally_foldl_append (hP : ∀ c, c.IsSettled → P c = false) {low : Nat} {bs : List Placed}
    (hbs : ∀ b ∈ bs, Placed.IsBean low b) (ht : t.content.isElement) :
    Placed.tally P [bs.foldl Placed.append t] = Placed.tally P [t] :=
  foldl_append_eq (f := fun t => Placed.tally P [t])
    (fun b hb _ ht => tally_append_bean hP ht (hbs b hb)) ht

/-- A round changes the count by what it makes of the trees behind the consumer. -/
theorem tally_round (hP : ∀ c, c.IsSettled → P c = false) {f : Frame} {low : Nat}
    {bs : List Placed} (hbs : ∀ b ∈ bs, Placed.IsBean low b) (hleads : leads (f :: fs) = true)
    (hopen : Open (f :: fs)) (right : List Placed) (t : Placed) :
    Open (⟨f.id, f.content, f.left, right⟩ :: addAtEnd bs fs) ∧
      Placed.tally P [plug (⟨f.id, f.content, f.left, right⟩ :: addAtEnd bs fs) t] +
        Placed.tally P f.right = Placed.tally P [plug (f :: fs) t] + Placed.tally P right := by
  obtain ⟨hopen', hright⟩ := tally_withRight (P := P) hopen right t
  cases fs with
  | nil => simp [leads] at hleads
  | cons g fs =>
      have hnext := open_addAtEnd hopen' bs
      have htop : (plug (⟨f.id, f.content, f.left, right⟩ :: g :: fs) t).content.isElement :=
        content_plug_isElement (fun k hk => hopen k (by simp [hk]))
          (t := Frame.fill ⟨f.id, f.content, f.left, right⟩ [t]) (hopen f (by simp))
      have hadded := tally_foldl_append hP hbs htop
      rw [← plug_addAtEnd, addAtEnd_cons_cons] at hadded
      rw [addAtEnd_cons_cons] at hnext
      refine ⟨hnext, ?_⟩
      rw [hadded]
      exact hright

/-- Rounds of expanding a consumer add nothing. -/
theorem tally_expands_le (hP : ∀ c, c.IsSettled → P c = false) {s : Snapshot} {uri : String}
    {low k : Nat} {fs' : List Frame} (huri : Uri.isLogical uri = false)
    (h : Expands s uri low k fs fs') (hopen : Open fs) (t : Placed) :
    Placed.tally P [plug fs' t] ≤ Placed.tally P [plug fs t] := by
  induction h with
  | done fs => exact Nat.le_refl _
  | @round k maxRetry y f fs fs' bs hleads hdistinct hfits hbeans hrest ih =>
      have hround := tally_round hP hbeans hleads hopen (y.result s maxRetry uri f.right) t
      have hresult := tally_result_le (.of_isSettled hP) hfits s maxRetry huri f.right
      have hlater := ih hround.1
      omega

/-- Aggregations around an element, and the bean that they need, add nothing. -/
theorem tally_batchedAt (hP : ∀ c, c.IsSettled → P c = false) {f : Frame}
    (hopen : Open (f :: fs)) (u : Placed) (n : NodeId) (as : List (NodeId × Nat × Nat)) :
    Placed.tally P [u.batchedAt (f :: fs) n as] = Placed.tally P [plug (f :: fs) u] := by
  cases as with
  | nil => rfl
  | cons a as =>
      have htop : (plug (f :: fs) (u.enclosedIn (a :: as))).content.isElement :=
        content_plug_isElement (fun g hg => hopen g (by simp [hg]))
          (t := f.fill [u.enclosedIn (a :: as)]) (hopen f (by simp))
      have hbean : Placed.tally P [u.batchedAt (f :: fs) n (a :: as)] =
          Placed.tally P [plug (f :: fs) (u.enclosedIn (a :: as))] := tally_withBean hP htop ..
      rw [hbean, tally_plug hopen, tally_plug hopen, tally_enclosedIn (.of_isSettled hP)]

/-- An element that is settled where it stands is no longer counted. -/
theorem tally_settle {f : Frame} {c c' : Content} (hopen : Open (f :: fs)) (hc : c.isElement)
    (hc' : c'.isElement) (hset : P c' = false) (x : NodeId) (cs : List Placed) :
    Placed.tally P [plug (f :: fs) (.node x c' cs)] + (if P c then 1 else 0) =
      Placed.tally P [plug (f :: fs) (.node x c cs)] := by
  rw [tally_plug hopen, tally_plug hopen, tally_node hc, tally_node hc', hset]
  simp only [Bool.false_eq_true, if_false]
  omega

end Tally

/-! ## One step -/

/-- The elements below the top that hold what is asked for. -/
def Placed.tallyBelow (P : Content → Bool) (t : Placed) : Nat :=
  t.elementsBelow.countP fun e => P e.2

theorem Placed.tally_eq_tallyBelow {P : Content → Bool} {t : Placed} (h : t.content.isElement) :
    Placed.tally P [t] = t.tallyBelow P + if P t.content then 1 else 0 := by
  obtain ⟨i, c, cs⟩ := t
  exact tally_node h i cs

theorem Batched.tally_le {P : Content → Bool} (hP : ∀ c, c.IsSettled → P c = false)
    {s : Snapshot} {low : Nat} {e : Endpoint} {entries : List Characteristic} {f : Frame}
    {fs : List Frame} {u t' : Placed} {m : Marker} (h : Batched s low e entries (f :: fs) u m t')
    (hopen : Open (f :: fs)) (hu : u.content.IsPhysical) :
    Placed.tally P [t'] ≤ Placed.tally P [plug (f :: fs) u] := by
  cases h with
  | producer => exact Nat.le_refl _
  | aside hleads => exact Nat.le_refl _
  | expanded hleads hexpands =>
      obtain ⟨uri, huri, hphysical⟩ := hu
      rw [huri] at hexpands
      exact tally_expands_le hP hphysical hexpands hopen u
  | enclosed hsettings has hn => exact Nat.le_of_eq (tally_batchedAt hP hopen u _ _)

/-- A step adds nothing that is not settled, and it settles a reference. -/
theorem Resolves.tallyBelow_le {s : Snapshot} {entries : Endpoint → List Characteristic}
    {low : Nat} {m : Marker} {t t' : Placed} (h : Resolves s entries low m t t')
    (htop : t.content.isElement) :
    (∀ P : Content → Bool, (∀ c, c.IsSettled → P c = false) →
      t'.tallyBelow P ≤ t.tallyBelow P) ∧
      t'.tallyBelow Content.isReference < t.tallyBelow Content.isReference := by
  have hcontent := h.content
  have hsettled : ∀ c : Content, c.IsSettled → c.isReference = false := by
    intro c hc
    cases hreference : c.isReference with
    | false => rfl
    | true =>
        obtain ⟨m, uri, hname, -⟩ := Content.isReference_eq_true.mp hreference
        rw [(hc m hname).not_isReference] at hreference
        cases hreference
  cases h with
  | @step f fs x c cs uri name e t' hopen hname huri hlogical hfirst hendpoint he hphysical
      hbatched =>
      have hc : c.isElement := Content.isElement_of_name hname
      have hset := isPhysical_setAttribute hc hphysical
      have hc' : (c.setAttribute Uri.attributeKey
          (Uri.appendOptions e.uri (e.options m.role))).isElement := by
        simpa [Content.isElement] using hc
      have hcount : ∀ P : Content → Bool, (∀ c, c.IsSettled → P c = false) →
          t'.tallyBelow P + (if P c then 1 else 0) ≤
            (plug (f :: fs) (.node x c cs)).tallyBelow P := by
        intro P hP
        have hle := hbatched.tally_le hP hopen hset
        have hsettle := tally_settle hopen hc hc' (hP _ hset.isSettled) x cs
        rw [Placed.tally_eq_tallyBelow htop] at hsettle
        rw [Placed.tally_eq_tallyBelow (hcontent ▸ htop), hcontent] at hle
        omega
      refine ⟨fun P hP => Nat.le_trans (Nat.le_add_right ..) (hcount P hP), ?_⟩
      have hreference : c.isReference = true :=
        Content.isReference_eq_true.mpr ⟨m, uri, hname, huri, hlogical⟩
      have hlast := hcount Content.isReference hsettled
      simp only [hreference, if_true] at hlast
      omega

theorem Document.ShowsRoot.length_references {d : Document} {t : Placed} (h : d.ShowsRoot t) :
    d.references.length = t.tallyBelow Content.isReference := by
  rw [h.references, List.length_map, Placed.tallyBelow, List.countP_eq_length_filter]

end Route

namespace Generator

/-! ## The loops over the markers -/

/-- The loops over the markers, without any bound: the markers to be passed, where the
loops start, how many references they try to resolve, and the outcome. -/
inductive Loops (g : Generator) (directories : Directories) (s : Snapshot) (policy : String) :
    List Marker → Progress → Nat → Except GenerationError Progress → Prop
  | done (p : Progress) : Loops g directories s policy [] p 0 (.ok p)
  | next {m : Marker} {ms : List Marker} {p : Progress} {calls : Nat}
      {r : Except GenerationError Progress} (hnext : nextReference p.document m = .ok none)
      (hrest : Loops g directories s policy ms p calls r) :
      Loops g directories s policy (m :: ms) p calls r
  | faulty {m : Marker} {ms : List Marker} {p : Progress} {fault : GenerationError}
      (hnext : nextReference p.document m = .error fault) :
      Loops g directories s policy (m :: ms) p 0 (.error fault)
  | failed {m : Marker} {ms : List Marker} {p : Progress} {x : NodeId} {uri : String}
      {fault : GenerationError} (hnext : nextReference p.document m = .ok (some (x, uri)))
      (hresolve : g.resolveElement directories s policy m x uri p = .error fault) :
      Loops g directories s policy (m :: ms) p 1 (.error fault)
  | resolved {m : Marker} {ms : List Marker} {p p' : Progress} {x : NodeId} {uri : String}
      {calls : Nat} {r : Except GenerationError Progress}
      (hnext : nextReference p.document m = .ok (some (x, uri)))
      (hresolve : g.resolveElement directories s policy m x uri p = .ok p')
      (hrest : Loops g directories s policy (m :: ms) p' calls r) :
      Loops g directories s policy (m :: ms) p (calls + 1) r

variable {g : Generator} {directories : Directories} {s : Snapshot} {policy : String}
  {m : Marker} {ms : List Marker} {p p' : Progress}

/-- The loops have one outcome, after one number of calls. -/
theorem Loops.unique {calls calls' : Nat} {r r' : Except GenerationError Progress}
    (h : Loops g directories s policy ms p calls r)
    (h' : Loops g directories s policy ms p calls' r') : calls = calls' ∧ r = r' := by
  induction h generalizing calls' r' with
  | done p =>
      cases h'
      exact ⟨rfl, rfl⟩
  | next hnext hrest ih =>
      cases h' with
      | next _ hrest' => exact ih hrest'
      | faulty hnext' => simp [hnext] at hnext'
      | failed hnext' _ => simp [hnext] at hnext'
      | resolved hnext' _ _ => simp [hnext] at hnext'
  | faulty hnext =>
      cases h' with
      | next hnext' _ => simp [hnext] at hnext'
      | faulty hnext' => simpa [hnext] using hnext'
      | failed hnext' _ => simp [hnext] at hnext'
      | resolved hnext' _ _ => simp [hnext] at hnext'
  | failed hnext hresolve =>
      cases h' with
      | next hnext' _ => simp [hnext] at hnext'
      | faulty hnext' => simp [hnext] at hnext'
      | failed hnext' hresolve' =>
          simp only [hnext, Except.ok.injEq, Option.some.injEq, Prod.mk.injEq] at hnext'
          obtain ⟨rfl, rfl⟩ := hnext'
          simpa [hresolve] using hresolve'
      | resolved hnext' hresolve' _ =>
          simp only [hnext, Except.ok.injEq, Option.some.injEq, Prod.mk.injEq] at hnext'
          obtain ⟨rfl, rfl⟩ := hnext'
          simp [hresolve] at hresolve'
  | resolved hnext hresolve hrest ih =>
      cases h' with
      | next hnext' _ => simp [hnext] at hnext'
      | faulty hnext' => simp [hnext] at hnext'
      | failed hnext' hresolve' =>
          simp only [hnext, Except.ok.injEq, Option.some.injEq, Prod.mk.injEq] at hnext'
          obtain ⟨rfl, rfl⟩ := hnext'
          simp [hresolve] at hresolve'
      | resolved hnext' hresolve' hrest' =>
          simp only [hnext, Except.ok.injEq, Option.some.injEq, Prod.mk.injEq] at hnext'
          obtain ⟨rfl, rfl⟩ := hnext'
          rw [hresolve, Except.ok.injEq] at hresolve'
          subst hresolve'
          obtain ⟨hcalls, hr⟩ := ih hrest'
          exact ⟨by omega, hr⟩

/-! ## Every step resolves a reference -/

/-- A step keeps the root sound and lowers the number of references. -/
theorem Step.references_lt (hregistry : g.registry = .standard ∨ g.registry = .empty)
    (hp : Sound p) (h : Step g directories s policy m p p') :
    Sound p' ∧ p'.document.references.length < p.document.references.length := by
  obtain ⟨t, ht, htop⟩ := hp
  obtain ⟨t', hresolves, -, ht'⟩ := h.exists_resolves hregistry ht htop
  refine ⟨⟨t', ht', hresolves.content ▸ htop⟩, ?_⟩
  rw [ht.length_references, ht'.length_references]
  exact (hresolves.tallyBelow_le htop).2

/-- The loop over one kind keeps the root sound. -/
theorem Sound.resolveKind (hregistry : g.registry = .standard ∨ g.registry = .empty)
    {steps : Nat} (hp : Sound p) (h : g.resolveKind directories s policy m steps p = .ok p') :
    Sound p' :=
  of_resolveKind (fun _ _ hp hstep => (Step.references_lt hregistry hp hstep).1) h hp

/-- A reference that is found is one of those below the root. -/
theorem references_pos_of_nextReference (hp : Sound p) {x : NodeId} {uri : String}
    (hnext : nextReference p.document m = .ok (some (x, uri))) :
    0 < p.document.references.length := by
  obtain ⟨t, ht, htop⟩ := hp
  obtain ⟨c, before, behind, helements, hname, huri, hlogical, -⟩ := nextReference_eq_some ht hnext
  rw [ht.length_references, Placed.tallyBelow, helements]
  have hreference : c.isReference = true :=
    Content.isReference_eq_true.mpr ⟨m, uri, hname, huri, hlogical⟩
  rw [List.countP_append, List.countP_cons]
  simp only [hreference, if_true]
  omega

/-! ## The bounded loops -/

theorem exists_loops_of_error (hregistry : g.registry = .standard ∨ g.registry = .empty)
    {steps : Nat} {fault : GenerationError} (hp : Sound p)
    (h : g.resolveKind directories s policy m steps p = .error fault) :
    ∃ calls, calls ≤ p.document.references.length ∧
      ∀ ms, Loops g directories s policy (m :: ms) p calls (.error fault) := by
  induction steps generalizing p with
  | zero => simp [resolveKind] at h
  | succ steps ih =>
      rw [resolveKind] at h
      cases hnext : nextReference p.document m with
      | error e =>
          simp only [hnext, bind, Except.bind, Except.error.injEq] at h
          exact ⟨0, Nat.zero_le _, fun ms => h ▸ .faulty hnext⟩
      | ok found =>
          cases found with
          | none => simp [hnext, bind, Except.bind, pure, Except.pure] at h
          | some found =>
              obtain ⟨x, uri⟩ := found
              have hpos := references_pos_of_nextReference hp hnext
              cases hresolve : g.resolveElement directories s policy m x uri p with
              | error e =>
                  simp only [hnext, hresolve, bind, Except.bind, Except.error.injEq] at h
                  exact ⟨1, hpos, fun ms => h ▸ .failed hnext hresolve⟩
              | ok p₁ =>
                  simp only [hnext, hresolve, bind, Except.bind] at h
                  have hlt := Step.references_lt hregistry hp ⟨x, uri, hnext, hresolve⟩
                  obtain ⟨calls, hcalls, hloops⟩ := ih hlt.1 h
                  exact ⟨calls + 1, by omega, fun ms => .resolved hnext hresolve (hloops ms)⟩

theorem exists_loops_of_ok (hregistry : g.registry = .standard ∨ g.registry = .empty)
    {steps : Nat} (hp : Sound p) (hsteps : p.document.references.length < steps)
    (h : g.resolveKind directories s policy m steps p = .ok p') :
    ∃ calls, p'.document.references.length + calls ≤ p.document.references.length ∧
      nextReference p'.document m = .ok none ∧
      ∀ ms calls' r, Loops g directories s policy ms p' calls' r →
        Loops g directories s policy (m :: ms) p (calls + calls') r := by
  induction steps generalizing p with
  | zero => omega
  | succ steps ih =>
      rw [resolveKind] at h
      obtain ⟨found, hnext, hrest⟩ := Outcome.of_bind_eq_ok h
      cases found with
      | none =>
          simp only [pure, Except.pure, Except.ok.injEq] at hrest
          subst hrest
          refine ⟨0, Nat.le_refl _, hnext, fun ms calls' r hloops => ?_⟩
          rw [Nat.zero_add]
          exact .next hnext hloops
      | some found =>
          obtain ⟨x, uri⟩ := found
          obtain ⟨p₁, hresolve, hlast⟩ := Outcome.of_bind_eq_ok hrest
          have hlt := Step.references_lt hregistry hp ⟨x, uri, hnext, hresolve⟩
          obtain ⟨calls, hcalls, hnone, hloops⟩ := ih hlt.1 (by omega) hlast
          refine ⟨calls + 1, by omega, hnone, fun ms calls' r hloops' => ?_⟩
          rw [Nat.add_right_comm]
          exact .resolved hnext hresolve (hloops ms calls' r hloops')

/-- With enough steps the bounded loops are the loops without a bound, and no reference
is tried twice. -/
theorem exists_loops (hregistry : g.registry = .standard ∨ g.registry = .empty) {steps : Nat}
    (hp : Sound p) (hsteps : p.document.references.length < steps) :
    ∃ calls, calls ≤ p.document.references.length ∧ Loops g directories s policy ms p calls
      (g.resolveKinds directories s policy steps ms p) := by
  induction ms generalizing p with
  | nil => exact ⟨0, Nat.zero_le _, .done p⟩
  | cons m ms ih =>
      rw [resolveKinds]
      cases hkind : g.resolveKind directories s policy m steps p with
      | error fault =>
          obtain ⟨calls, hcalls, hloops⟩ := exists_loops_of_error hregistry hp hkind
          exact ⟨calls, hcalls, hloops ms⟩
      | ok p₁ =>
          obtain ⟨calls, hcalls, -, hloops⟩ := exists_loops_of_ok hregistry hp hsteps hkind
          obtain ⟨calls', hcalls', hloops'⟩ := ih (hp.resolveKind hregistry hkind) (by omega)
          exact ⟨calls + calls', by omega, hloops ms calls' _ hloops'⟩

/-! ## Nothing is left -/

/-- All markers of a kind below the root have URIs that are not logical. -/
def Exhausted (m : Marker) (p : Progress) : Prop :=
  ∃ t : Placed, p.document.ShowsRoot t ∧ t.content.isElement ∧
    t.tallyBelow (Content.isUnresolved m) = 0

theorem Exhausted.of_nextReference (hp : Sound p)
    (hnext : nextReference p.document m = .ok none) : Exhausted m p := by
  obtain ⟨t, ht, htop⟩ := hp
  refine ⟨t, ht, htop, List.countP_eq_zero.mpr fun e he => ?_⟩
  have hphysical := nextReference_eq_none ht hnext e he
  simp [Content.isUnresolved_eq_false.mpr hphysical]

/-- A kind of marker that is exhausted stays so. -/
theorem Exhausted.step (hregistry : g.registry = .standard ∨ g.registry = .empty) {k : Marker}
    (hp : Exhausted k p) (h : Step g directories s policy m p p') : Exhausted k p' := by
  obtain ⟨t, ht, htop, hnone⟩ := hp
  obtain ⟨t', hresolves, -, ht'⟩ := h.exists_resolves hregistry ht htop
  have hle := (hresolves.tallyBelow_le htop).1 (Content.isUnresolved k) fun c hc =>
    Content.isUnresolved_eq_false.mpr (hc k)
  exact ⟨t', ht', hresolves.content ▸ htop, by omega⟩

theorem Exhausted.isPhysical (hp : Exhausted m p) {n : NodeId}
    (hn : n ∈ p.document.descendants p.document.root)
    (hname : p.document.isNamed m.tagName n) :
    ∃ uri, p.document.attribute? n Uri.attributeKey = some uri ∧ Uri.isLogical uri = false := by
  obtain ⟨t, ht, htop, hnone⟩ := hp
  rw [ht.descendants] at hn
  obtain ⟨e, he, rfl⟩ := List.mem_map.mp hn
  have hcontent := ht.content_of_mem he
  rw [Document.isNamed_of_content hcontent, beq_iff_eq] at hname
  have hunresolved := List.countP_eq_zero.mp hnone e he
  rw [Bool.not_eq_true] at hunresolved
  rw [Document.attribute_of_content hcontent]
  exact Content.isUnresolved_eq_false.mp hunresolved hname

/-- What is left of an exhausted kind is physical. -/
theorem Exhausted.isPhysical_of_mem (hp : Exhausted m p) {t : Placed}
    (ht : p.document.ShowsRoot t) {e : NodeId × Content} (he : e ∈ t.elementsBelow)
    (hname : e.2.name? = some m.tagName) : e.2.IsPhysical := by
  obtain ⟨uri, huri, hphysical⟩ :=
    hp.isPhysical (ht.mem_descendants he) (ht.isNamed_of_mem he hname)
  rw [Document.attribute_of_content (ht.content_of_mem he)] at huri
  exact ⟨uri, huri, hphysical⟩

/-- The bounded loops exhaust every kind of marker that they pass. -/
theorem exhausted_of_resolveKinds (hregistry : g.registry = .standard ∨ g.registry = .empty)
    {steps : Nat} (hp : Sound p) (hsteps : p.document.references.length < steps)
    (h : g.resolveKinds directories s policy steps ms p = .ok p') :
    ∀ m ∈ ms, Exhausted m p' := by
  induction ms generalizing p with
  | nil => simp
  | cons m ms ih =>
      obtain ⟨p₁, hkind, hrest⟩ := Outcome.of_bind_eq_ok h
      obtain ⟨calls, hcalls, hnone, -⟩ := exists_loops_of_ok hregistry hp hsteps hkind
      have hp₁ : Sound p₁ := hp.resolveKind hregistry hkind
      intro k hk
      rcases List.mem_cons.mp hk with rfl | hk
      · exact of_resolveKinds (fun m _ p p' hp hstep => Exhausted.step hregistry hp hstep) hrest
          (.of_nextReference hp₁ hnone)
      · exact ih hp₁ (by omega) hrest k hk

/-- Behind the loops over all kinds everything below the root is settled. -/
theorem isSettled_of_resolveKinds (hregistry : g.registry = .standard ∨ g.registry = .empty)
    {steps : Nat} (hp : Sound p) (hsteps : p.document.references.length < steps)
    (h : g.resolveKinds directories s policy steps Marker.all p = .ok p') {t : Placed}
    (ht : p'.document.ShowsRoot t) : ∀ e ∈ t.elementsBelow, e.2.IsSettled := by
  intro e he m hname
  have hm : m ∈ Marker.all := by cases m <;> decide
  exact (exhausted_of_resolveKinds hregistry hp hsteps h m hm).isPhysical_of_mem ht he hname

/-- Where everything below the root is settled, the loops have nothing to do. -/
theorem resolveKinds_of_isSettled {t : Placed} (ht : p.document.ShowsRoot t)
    (h : ∀ e ∈ t.elementsBelow, e.2.IsSettled) (steps : Nat) :
    g.resolveKinds directories s policy steps ms p = .ok p := by
  induction ms with
  | nil => rfl
  | cons m ms ih =>
      have hnone : nextReference p.document m = .ok none :=
        nextReference_of_isPhysical ht fun e he hname => h e he m hname
      have hkind : g.resolveKind directories s policy m steps p = .ok p := by
        cases steps with
        | zero => rfl
        | succ steps =>
            rw [resolveKind, hnone]
            rfl
      rw [resolveKinds, hkind]
      exact ih

/-! ## Generating a policy -/

/-- Where everything below the root is settled, a definition is written out as it was
read. -/
theorem generateWith_of_isSettled {definition : String} {d : Document} {t : Placed}
    {policy : Policy} {resources : Settings} (resolvers : ResolverChain)
    (hresources : s.resourceContents policy = .ok resources)
    (hparse : Document.parse definition = .ok d) (ht : d.ShowsRoot t)
    (h : ∀ e ∈ t.elementsBelow, e.2.IsSettled) :
    g.generateWith directories resolvers s policy definition =
      .ok ({ policy := policy.name, definition := d.serialize,
             dependencies := (g.ownPackages policy).foldl SortedSet.union .empty,
             resources, issues := [] }, resolvers) := by
  have hloops (steps : Nat) : g.resolveKinds directories s policy.name steps Marker.all
      ⟨d, .empty, [], resolvers⟩ = .ok ⟨d, .empty, [], resolvers⟩ :=
    resolveKinds_of_isSettled ht h steps
  rw [generateWith, hresources, hparse, Outcome.mapError_ok, Outcome.mapError_ok,
    Outcome.ok_bind, Outcome.ok_bind]
  simp only [hloops, Outcome.mapError_ok, Outcome.ok_bind]
  rfl

/-- A document has more places than references. -/
theorem length_references_le (hp : Sound p) :
    p.document.references.length ≤ p.document.size := by
  obtain ⟨t, ht, htop⟩ := hp
  have hsize : t.ids.length ≤ p.document.size := by
    obtain ⟨-, detached, hshows⟩ := ht
    have hplace : p.document.Shows (plug [] t :: detached) := hshows
    exact hplace.length_ids_le
  have hbelow : t.elementsBelow.length ≤ t.elements.length := by
    rw [Placed.elements_eq_cons htop]
    exact Nat.le_succ _
  have hnodes : t.elements.length ≤ t.ids.length := by
    rw [Placed.ids, List.length_map]
    exact t.elements_sublist.length_le
  rw [ht.length_references]
  exact Nat.le_trans List.countP_le_length (Nat.le_trans hbelow (Nat.le_trans hnodes hsize))

/-- The bound of the loops is never met. -/
theorem references_lt_steps {definition : String} {d : Document}
    (hparse : Document.parse definition = .ok d) :
    d.references.length < d.size + addedReferenceLimit := by
  have hsound : Sound (start d .empty) := sound_start hparse
  have hle : d.references.length ≤ d.size := length_references_le hsound
  have hpos : 0 < addedReferenceLimit := by decide
  omega

/-- Every reference is resolved at most once, every step lowers their number, and a
policy that was generated has none left. -/
theorem references_run_out (hregistry : g.registry = .standard ∨ g.registry = .empty)
    {definition : String} {d : Document} (hparse : Document.parse definition = .ok d)
    (resolvers : ResolverChain) (policy : Policy) :
    (∃ calls, calls ≤ d.references.length ∧
      Loops g directories s policy.name Marker.all (start d resolvers) calls
        (g.resolveKinds directories s policy.name (d.size + addedReferenceLimit) Marker.all
          (start d resolvers))) ∧
    (∀ calls r, Loops g directories s policy.name Marker.all (start d resolvers) calls r →
      calls ≤ d.references.length) ∧
    (∀ p p' m, Relation.ReflTransGen (fun p p' => ∃ m, Step g directories s policy.name m p p')
        (start d resolvers) p →
      Step g directories s policy.name m p p' →
        p'.document.references.length < p.document.references.length) ∧
    ∀ generated resolvers',
      g.generateWith directories resolvers s policy definition = .ok (generated, resolvers') →
        ∃ final, g.resolveKinds directories s policy.name (d.size + addedReferenceLimit)
            Marker.all (start d resolvers) = .ok final ∧
          generated.definition = final.document.serialize ∧
          ∀ m : Marker, ∀ n ∈ final.document.descendants final.document.root,
            final.document.isNamed m.tagName n →
              ∃ uri, final.document.attribute? n Uri.attributeKey = some uri ∧
                Uri.isLogical uri = false := by
  have hsound : Sound (start d resolvers) := sound_start hparse
  have hsteps := references_lt_steps hparse
  obtain ⟨calls, hcalls, hloops⟩ := exists_loops (g := g) (s := s) hregistry hsound hsteps
  refine ⟨⟨calls, hcalls, hloops⟩, fun calls' r hloops' => ?_, fun p p' m hreach hstep => ?_,
    fun generated resolvers' hgenerate => ?_⟩
  · rw [← (hloops.unique hloops').1]
    exact hcalls
  · have hp : Sound p := by
      clear hstep
      induction hreach with
      | refl => exact hsound
      | tail _ hlast ih =>
          obtain ⟨k, hk⟩ := hlast
          exact (Step.references_lt hregistry ih hk).1
    exact (Step.references_lt hregistry hp hstep).2
  · obtain ⟨d', final, hparse', hfinal, hdefinition⟩ := generateWith_eq_ok hgenerate
    rw [hparse, Except.ok.injEq] at hparse'
    subst hparse'
    refine ⟨final, hfinal, hdefinition, fun m n hn hname => ?_⟩
    have hall := exhausted_of_resolveKinds hregistry hsound hsteps hfinal m (by cases m <;> decide)
    exact hall.isPhysical hn hname

/-- A snapshot with one endpoint, which batches. -/
def batchingSnapshot : Snapshot where
  group := {
    name := "g"
    endpoints := [{
      name := "q"
      uri := "jms:q"
      characteristics := [.ofKind BatchRetry.kindName] }] }

/-- A definition with one reference inside another. -/
def nestedReferences : String :=
  "<a><to uri=\"logical:q\"><inOnly uri=\"logical:q\"/></to></a>"

/-- The document of that definition. -/
def nestedDocument : Document :=
  ⟨#[⟨.element "a" [], none, [1]⟩, ⟨.element "to" [⟨"uri", "logical:q"⟩], some 0, [2]⟩,
    ⟨.element "inOnly" [⟨"uri", "logical:q"⟩], some 1, []⟩], 0⟩

/-- Two references are resolved by at most two calls. -/
theorem references_run_out_nested :
    ∃ calls, calls ≤ 2 ∧
      Loops ⟨.standard, .empty, .empty⟩ (fun _ => false) batchingSnapshot "p" Marker.all
        (start nestedDocument .empty) calls
        (resolveKinds ⟨.standard, .empty, .empty⟩ (fun _ => false) batchingSnapshot "p"
          (nestedDocument.size + addedReferenceLimit) Marker.all
          (start nestedDocument .empty)) := by
  have hparse : Document.parse nestedReferences = .ok nestedDocument :=
    Outcome.of_toOption_eq_some (by decide +kernel)
  have hreferences : nestedDocument.references.length = 2 := by decide
  rw [← hreferences]
  exact (references_run_out (.inl rfl) hparse .empty { name := "p" }).1

end Generator

end RouteCompiler
