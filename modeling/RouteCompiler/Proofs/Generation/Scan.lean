import RouteCompiler.Generation.Generator
import RouteCompiler.Proofs.Document.Order
import RouteCompiler.Proofs.Document.Rooted
import RouteCompiler.Proofs.Outcome

/-!
# Searching for references

A reference is a marker element with a logical URI.  The search for the next
reference of a kind looks at the elements below the root in document order.

Main definitions:

- `Content.isReference` and `Document.references`: the references of a document.
- `Generator.endsSearch`: which elements the search does not go past.

Main results:

- Theorem `nextReference_eq_some`: what is found is the first reference of its
  kind.
- Theorem `nextReference_eq_none`: nothing is found only where every marker of
  the kind has a physical URI.
- Theorem `searches_in_document_order`: in a forest the elements below a node are listed in
  document order, and searches find the first match.
-/

namespace RouteCompiler

theorem Marker.ofTagName_eq_some {name : String} {m : Marker} :
    Marker.ofTagName? name = some m ↔ name = m.tagName := by
  constructor
  · intro h
    have := List.find?_some h
    exact (beq_iff_eq.mp this).symm
  · rintro rfl
    exact Marker.ofTagName_tagName m

namespace Route

namespace Content

/-- The marker that an element is, by its name. -/
def marker? (c : Content) : Option Marker :=
  c.name?.bind Marker.ofTagName?

/-- Whether this is a marker with a logical URI. -/
def isReference (c : Content) : Bool :=
  c.marker?.isSome && (c.attribute? Uri.attributeKey).any Uri.isLogical

/-- Whether this is a marker of a kind with a URI that is not logical. -/
def IsPhysical (c : Content) : Prop :=
  ∃ uri, c.attribute? Uri.attributeKey = some uri ∧ Uri.isLogical uri = false

theorem marker_element (name : String) (attributes : List Attribute) :
    (element name attributes).marker? = Marker.ofTagName? name := rfl

theorem marker_eq_some {c : Content} {m : Marker} :
    c.marker? = some m ↔ c.name? = some m.tagName := by
  rw [marker?, Option.bind_eq_some_iff]
  exact ⟨fun ⟨name, hname, hm⟩ => Marker.ofTagName_eq_some.mp hm ▸ hname,
    fun h => ⟨_, h, Marker.ofTagName_tagName m⟩⟩

theorem isReference_eq_true {c : Content} :
    c.isReference = true ↔ ∃ m uri, c.name? = some (Marker.tagName m) ∧
      c.attribute? Uri.attributeKey = some uri ∧ Uri.isLogical uri = true := by
  simp only [isReference, Bool.and_eq_true, Option.isSome_iff_exists, marker_eq_some,
    Option.any_eq_true]
  exact ⟨fun ⟨⟨m, hm⟩, uri, huri⟩ => ⟨m, uri, hm, huri⟩,
    fun ⟨m, uri, hm, huri⟩ => ⟨⟨m, hm⟩, uri, huri⟩⟩

theorem IsPhysical.not_isReference {c : Content} (h : c.IsPhysical) : c.isReference = false := by
  obtain ⟨uri, huri, hphysical⟩ := h
  simp [isReference, huri, hphysical]

@[simp] theorem marker_setAttribute (key value : String) (c : Content) :
    (c.setAttribute key value).marker? = c.marker? := by
  simp [marker?]

theorem isElement_of_name {c : Content} {name : String} (h : c.name? = some name) :
    c.isElement = true := by
  simp [isElement, h]

/-- A marker has the URI that it is given. -/
theorem attribute_setAttribute {c : Content} (h : c.isElement) (key value : String) :
    (c.setAttribute key value).attribute? key = some value := by
  cases c with
  | element name attributes => simp [setAttribute, attribute?]
  | text value => simp [isElement, name?] at h

end Content

/-- How many of the elements that a walk through some trees meets hold what is asked
for. -/
def Placed.tally (P : Content → Bool) (ts : List Placed) : Nat :=
  (ts.flatMap Placed.elements).countP fun e => P e.2

theorem Placed.tally_append (P : Content → Bool) (ts us : List Placed) :
    Placed.tally P (ts ++ us) = Placed.tally P ts + Placed.tally P us := by
  simp [tally]

theorem Placed.tally_cons (P : Content → Bool) (t : Placed) (ts : List Placed) :
    Placed.tally P (t :: ts) = Placed.tally P [t] + Placed.tally P ts :=
  tally_append P [t] ts

/-- The references below the root, in document order. -/
def Document.references (d : Document) : List NodeId :=
  (d.descendants d.root).filter fun x => (d.content? x).any Content.isReference

/-- The references below the root are those of the tree of the root. -/
theorem Document.ShowsRoot.references {d : Document} {t : Placed} (h : d.ShowsRoot t) :
    d.references = (t.elementsBelow.filter fun e => e.2.isReference).map Prod.fst := by
  rw [Document.references, h.descendants, List.filter_map]
  congr 1
  refine List.filter_congr fun e he => ?_
  simp [h.content_of_mem he]

end Route

namespace Generator

open RouteCompiler.Route

variable {d : Document} {m : Marker} {x : NodeId} {uri : String}
  {es : List (NodeId × Content)}

theorem nextAmong_eq_some (hes : ∀ e ∈ es, d.content? e.1 = some e.2)
    (h : nextAmong d m (es.map Prod.fst) = .ok (some (x, uri))) :
    ∃ c before behind, es = before ++ (x, c) :: behind ∧ c.name? = some m.tagName ∧
      c.attribute? Uri.attributeKey = some uri ∧ Uri.isLogical uri = true ∧
        ∀ e ∈ before, e.2.name? = some m.tagName → e.2.IsPhysical := by
  induction es with
  | nil => simp [nextAmong] at h
  | cons e es ih =>
      have hcontent := hes e (by simp)
      have hrest : ∀ e ∈ es, d.content? e.1 = some e.2 := fun e he => hes e (by simp [he])
      obtain ⟨y, c⟩ := e
      simp only [List.map_cons, nextAmong, Document.isNamed_of_content hcontent,
        Document.attribute_of_content hcontent, beq_iff_eq] at h
      split at h
      · next hname =>
        split at h
        · simp at h
        · next u hu =>
          split at h
          · next hlogical =>
            simp only [Except.ok.injEq, Option.some.injEq, Prod.mk.injEq] at h
            obtain ⟨rfl, rfl⟩ := h
            exact ⟨c, [], es, rfl, hname, hu, hlogical, by simp⟩
          · next hphysical =>
            obtain ⟨c', before, behind, rfl, h₁, h₂, h₃, h₄⟩ := ih hrest h
            refine ⟨c', (y, c) :: before, behind, rfl, h₁, h₂, h₃, ?_⟩
            intro e he hname
            rcases List.mem_cons.mp he with rfl | he
            · exact ⟨u, hu, by simpa using hphysical⟩
            · exact h₄ e he hname
      · next hname =>
        obtain ⟨c', before, behind, rfl, h₁, h₂, h₃, h₄⟩ := ih hrest h
        refine ⟨c', (y, c) :: before, behind, rfl, h₁, h₂, h₃, ?_⟩
        intro e he hname'
        rcases List.mem_cons.mp he with rfl | he
        · exact absurd hname' hname
        · exact h₄ e he hname'

theorem nextAmong_eq_none (hes : ∀ e ∈ es, d.content? e.1 = some e.2)
    (h : nextAmong d m (es.map Prod.fst) = .ok none) :
    ∀ e ∈ es, e.2.name? = some m.tagName → e.2.IsPhysical := by
  induction es with
  | nil => simp
  | cons e es ih =>
      have hcontent := hes e (by simp)
      have hrest : ∀ e ∈ es, d.content? e.1 = some e.2 := fun e he => hes e (by simp [he])
      simp only [List.map_cons, nextAmong, Document.isNamed_of_content hcontent,
        Document.attribute_of_content hcontent, beq_iff_eq] at h
      intro e' he' hname'
      split at h
      · split at h
        · simp at h
        · next u hu =>
          split at h
          · simp at h
          · next hphysical =>
            rcases List.mem_cons.mp he' with rfl | he'
            · exact ⟨u, hu, by simpa using hphysical⟩
            · exact ih hrest h e' he' hname'
      · next hname =>
        rcases List.mem_cons.mp he' with rfl | he'
        · exact absurd hname' hname
        · exact ih hrest h e' he' hname'

theorem nextAmong_of_isPhysical (hes : ∀ e ∈ es, d.content? e.1 = some e.2)
    (h : ∀ e ∈ es, e.2.name? = some m.tagName → e.2.IsPhysical) :
    nextAmong d m (es.map Prod.fst) = .ok none := by
  induction es with
  | nil => rfl
  | cons e es ih =>
      have hcontent := hes e (by simp)
      have hrest := ih (fun e he => hes e (by simp [he])) (fun e he => h e (by simp [he]))
      rw [List.map_cons, nextAmong, Document.isNamed_of_content hcontent,
        Document.attribute_of_content hcontent]
      by_cases hname : e.2.name? = some m.tagName
      · obtain ⟨uri, huri, hphysical⟩ := h e (by simp) hname
        simp [hname, huri, hphysical, hrest]
      · simp [hname, hrest]

/-- The next reference of a kind is the first one in document order. -/
theorem nextReference_eq_some {t : Placed} (ht : d.ShowsRoot t)
    (h : nextReference d m = .ok (some (x, uri))) :
    ∃ c before behind, t.elementsBelow = before ++ (x, c) :: behind ∧
      c.name? = some m.tagName ∧ c.attribute? Uri.attributeKey = some uri ∧
        Uri.isLogical uri = true ∧ ∀ e ∈ before, e.2.name? = some m.tagName → e.2.IsPhysical := by
  rw [nextReference, ht.descendants] at h
  exact nextAmong_eq_some (fun e he => ht.content_of_mem he) h

/-- Where there is no next reference of a kind, its markers have physical URIs. -/
theorem nextReference_eq_none {t : Placed} (ht : d.ShowsRoot t)
    (h : nextReference d m = .ok none) :
    ∀ e ∈ t.elementsBelow, e.2.name? = some m.tagName → e.2.IsPhysical := by
  rw [nextReference, ht.descendants] at h
  exact nextAmong_eq_none (fun e he => ht.content_of_mem he) h

/-- Where all markers of a kind have physical URIs, there is no next reference of it. -/
theorem nextReference_of_isPhysical {t : Placed} (ht : d.ShowsRoot t)
    (h : ∀ e ∈ t.elementsBelow, e.2.name? = some m.tagName → e.2.IsPhysical) :
    nextReference d m = .ok none := by
  rw [nextReference, ht.descendants]
  exact nextAmong_of_isPhysical (fun e he => ht.content_of_mem he) h

/-! ## Document order -/

/-- Whether the search for references of a kind ends at a node: at a marker without a URI, or
with a logical one. -/
def endsSearch (d : Document) (m : Marker) (x : NodeId) : Bool :=
  d.isNamed m.tagName x && (d.attribute? x Uri.attributeKey).all Uri.isLogical

/-- The search among nodes goes on to the first one at which it ends. -/
theorem nextAmong_cases (d : Document) (m : Marker) (xs : List NodeId) :
    (xs.find? (endsSearch d m) = none ∧ nextAmong d m xs = .ok none) ∨
    (∃ x, xs.find? (endsSearch d m) = some x ∧ d.attribute? x Uri.attributeKey = none ∧
      nextAmong d m xs = .error (.missingUri "" m.tagName)) ∨
    (∃ x uri, xs.find? (endsSearch d m) = some x ∧ d.attribute? x Uri.attributeKey = some uri ∧
      nextAmong d m xs = .ok (some (x, uri))) := by
  induction xs with
  | nil => exact .inl ⟨rfl, rfl⟩
  | cons x xs ih =>
      rw [nextAmong, List.find?_cons]
      cases hname : d.isNamed m.tagName x with
      | false => simpa [endsSearch, hname] using ih
      | true =>
          cases huri : d.attribute? x Uri.attributeKey with
          | none => exact .inr (.inl ⟨x, by simp [endsSearch, hname, huri], huri, rfl⟩)
          | some uri =>
              cases hlogical : Uri.isLogical uri with
              | false => simpa [endsSearch, hname, huri, hlogical] using ih
              | true =>
                  exact .inr (.inr ⟨x, uri, by simp [endsSearch, hname, huri, hlogical], huri,
                    by simp [hlogical]⟩)

theorem nextAmong_eq_ok_some_iff {xs : List NodeId} : nextAmong d m xs = .ok (some (x, uri)) ↔
    xs.find? (endsSearch d m) = some x ∧ d.attribute? x Uri.attributeKey = some uri := by
  rcases nextAmong_cases d m xs with ⟨hfind, hnext⟩ | ⟨y, hfind, huri, hnext⟩ |
    ⟨y, u, hfind, huri, hnext⟩
  · simp [hfind, hnext]
  · rw [hfind, hnext, Option.some.injEq]
    constructor
    · intro h
      cases h
    · rintro ⟨rfl, hsome⟩
      rw [huri] at hsome
      cases hsome
  · rw [hfind, hnext, Except.ok.injEq, Option.some.injEq, Prod.mk.injEq, Option.some.injEq]
    refine and_congr_right ?_
    rintro rfl
    rw [huri, Option.some.injEq]

theorem nextAmong_eq_ok_none_iff {xs : List NodeId} :
    nextAmong d m xs = .ok none ↔ xs.find? (endsSearch d m) = none := by
  rcases nextAmong_cases d m xs with ⟨hfind, hnext⟩ | ⟨y, hfind, huri, hnext⟩ |
    ⟨y, u, hfind, huri, hnext⟩ <;> simp [hfind, hnext]

theorem nextAmong_eq_error_iff {xs : List NodeId} {e : GenerationError} :
    nextAmong d m xs = .error e ↔ e = .missingUri "" m.tagName ∧
      ∃ y, xs.find? (endsSearch d m) = some y ∧ d.attribute? y Uri.attributeKey = none := by
  rcases nextAmong_cases d m xs with ⟨hfind, hnext⟩ | ⟨y, hfind, huri, hnext⟩ |
    ⟨y, u, hfind, huri, hnext⟩
  · simp [hfind, hnext]
  · rw [hfind, hnext, Except.error.injEq, eq_comm]
    exact ⟨fun h => ⟨h, y, rfl, huri⟩, And.left⟩
  · simp [hfind, hnext, huri]

/-- Below a node of a forest the elements are listed as a recursion over child lists meets them,
which passes over texts with whatever is below them: each one once, and those with only elements
between, which are all of them where nothing is below a text.  So a search for a name finds the
first element of that name, and the search for references the first marker that has a logical
URI, unless one without a URI comes before it. -/
theorem searches_in_document_order (h : d.IsForest) :
    (∀ id order, d.Traverses (d.children id) order ↔ order = d.descendants id) ∧
    (∀ id, (d.descendants id).Nodup) ∧
    (∀ id y, y ∈ d.descendants id ↔ d.BelowByElements y id) ∧
    ((∀ y, d.isElement y = false → d.children y = []) →
      ∀ id y, y ∈ d.descendants id ↔ d.isElement y = true ∧ d.Below y id) ∧
    (∀ id order, d.Traverses (d.children id) order → ∀ name,
      (∀ y, d.findDescendant? id name = some y ↔
        Document.IsFirst order (d.isNamed name · = true) y) ∧
      (d.findDescendant? id name = none ↔ ∀ y ∈ order, d.isNamed name y = false)) ∧
    (∀ order, d.Traverses (d.children d.root) order → ∀ m,
      (∀ y u, nextReference d m = .ok (some (y, u)) ↔
        Document.IsFirst order (endsSearch d m · = true) y ∧
          d.attribute? y Uri.attributeKey = some u) ∧
      (nextReference d m = .ok none ↔ ∀ y ∈ order, endsSearch d m y = false) ∧
      (∀ e, nextReference d m = .error e ↔ e = .missingUri "" m.tagName ∧
        ∃ y, Document.IsFirst order (endsSearch d m · = true) y ∧
          d.attribute? y Uri.attributeKey = none)) := by
  refine ⟨fun id order => h.traverses_iff id, h.nodup_descendants, fun id y => h.mem_descendants id,
    fun htexts id y => h.mem_descendants_of_texts htexts id, ?_, ?_⟩
  · intro id order horder name
    obtain rfl := (h.traverses_iff id).mp horder
    refine ⟨fun y => Document.find_eq_some_iff_isFirst, ?_⟩
    rw [Document.findDescendant?, List.find?_eq_none]
    simp
  · intro order horder m
    obtain rfl := (h.traverses_iff d.root).mp horder
    refine ⟨fun y u => ?_, ?_, fun e => ?_⟩
    · rw [← Document.find_eq_some_iff_isFirst]
      exact nextAmong_eq_ok_some_iff
    · rw [nextReference, nextAmong_eq_ok_none_iff, List.find?_eq_none]
      simp
    · simp only [← Document.find_eq_some_iff_isFirst]
      exact nextAmong_eq_error_iff

/-- An element with a text, below which there is another element. -/
def elementBelowText : Document :=
  let d := ((Document.ofRootName "a").createText "t").1.link 0 1
  (d.createElement "b").1.link 1 2

theorem isForest_elementBelowText : elementBelowText.IsForest :=
  ((Document.IsForest.ofRootName "a").push_link _ (by decide)).push_link _ (by decide)

/-- Elements below a text are not listed. -/
theorem descendants_omits_below_text :
    ¬ ∀ d : Document, d.IsForest → ∀ id y,
      (y ∈ d.descendants id ↔ d.isElement y = true ∧ d.Below y id) := by
  intro hall
  have hlisted := (hall elementBelowText isForest_elementBelowText 0 2).mpr
    ⟨by decide, .head (b := 1) (by decide) (.single (by decide))⟩
  revert hlisted
  decide

/-- A consumer with a physical URI, and one with a logical one below it. -/
def nestedConsumers : Document :=
  let d := ((Document.ofRootName "route").push (.element "from" [⟨"uri", "jms:a"⟩])).1.link 0 1
  (d.push (.element "from" [⟨"uri", "logical:b"⟩])).1.link 1 2

theorem isForest_nestedConsumers : nestedConsumers.IsForest :=
  ((Document.IsForest.ofRootName "route").push_link _ (by decide)).push_link _ (by decide)

/-- The search goes past a physical URI to a logical one below it. -/
theorem searches_in_document_order_nested :
    nestedConsumers.IsForest ∧ nestedConsumers.Traverses (nestedConsumers.children 0) [1, 2] ∧
      nestedConsumers.findDescendant? 0 "from" = some 1 ∧
      nextReference nestedConsumers .consumer = .ok (some (2, "logical:b")) := by
  obtain ⟨horder, -, -, -, hname, hnext⟩ := searches_in_document_order isForest_nestedConsumers
  have hboth : nestedConsumers.Traverses (nestedConsumers.children 0) [1, 2] :=
    (horder 0 [1, 2]).mpr (by decide)
  refine ⟨isForest_nestedConsumers, hboth, ?_, ?_⟩
  · exact ((hname 0 _ hboth "from").1 1).mpr ⟨[], [2], rfl, by decide, by simp⟩
  · exact ((hnext _ hboth .consumer).1 2 "logical:b").mpr
      ⟨⟨[1], [], rfl, by decide, by decide⟩, by decide⟩

end Generator

end RouteCompiler
