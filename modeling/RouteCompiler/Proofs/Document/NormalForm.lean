import RouteCompiler.Proofs.Document.Reading
import RouteCompiler.Proofs.Document.RoundTrip
import RouteCompiler.Proofs.Document.Unfolding

/-!
# Normal form

Edits may leave detached nodes in the arena, or put texts side by side.  Reading does neither.
The arena of a document that was read holds the tree of its root and nothing else, its texts are
trimmed and stand apart, and its elements name each key once.

Reading never leaves this form on the way: the elements that are still open lack children, but
what they have got is final, except for a text at their end, which may only grow.

Main definitions:

- `Document.LeadsTo`: where child lists lead.
- `Document.IsNormal`: the documents in normal form.

Main results:

- Theorem `Shows.isNormal`: a document that is one tidy tree is in normal form.
- Theorem `isNormal_of_run`: from the first element on, every token leaves a document in normal
  form, also if the text turns out to be no document.
- Theorem `normal_of_parse`: a document that was read is in normal form.
- Theorem `IsNormal.read_again`: a document in normal form whose names and keys can be written
  is read again from what is written of it, so nothing is missing from the form.
-/

namespace RouteCompiler.Route

open Relation

/-- Wherever a place is in a tidy tree, what stands there is tidy. -/
theorem tidy_of_plug {fs : List Frame} {s : Placed} (h : (plug fs s).toTree.Tidy) :
    s.toTree.Tidy := by
  induction fs generalizing s with
  | nil => exact h
  | cons f fs ih =>
      have hfill := ih h
      rw [Frame.fill, Placed.toTree_node] at hfill
      exact hfill.of_mem (by simp)

namespace Document

variable {d : Document} {x p : NodeId} {t : Placed} {c : Content} {ts : List Tree}

/-! ## The form -/

/-- Following child lists from the first node leads to the second one. -/
def LeadsTo (d : Document) : NodeId → NodeId → Prop :=
  ReflTransGen fun p c => c ∈ d.children p

/-- A document in normal form. -/
structure IsNormal (d : Document) : Prop extends IsForest d where
  /-- The root is an element. -/
  element_root : d.isElement d.root = true
  /-- No other node is without a parent. -/
  only_root : ∀ x < d.size, d.parent? x = none → x = d.root
  /-- Child lists lead from the root to every node of the arena. -/
  reached : ∀ x < d.size, d.LeadsTo d.root x
  /-- No text is empty, or has white space at one of its ends. -/
  trimmed : ∀ x value, d.content? x = some (.text value) → IsValue value.toList
  /-- Nothing stands below a text. -/
  leaves : ∀ x, d.isElement x = false → d.children x = []
  /-- No two texts are next to each other in a child list. -/
  apart : ∀ x, (d.children x).IsChain fun a b => d.isElement a ∨ d.isElement b
  /-- No key occurs twice in an element. -/
  distinct : ∀ x name attributes, d.content? x = some (.element name attributes) →
    (attributes.map Attribute.key).Nodup

/-- In a forest child lists lead to what is at or below a node. -/
theorem IsForest.leadsTo_iff (h : d.IsForest) : d.LeadsTo p x ↔ d.AtOrBelow x p := by
  have hlinks : (fun p c => c ∈ d.children p) = Function.swap d.HangsFrom := by
    funext p c
    exact propext (h.mem_children p c)
  rw [LeadsTo, hlinks, reflTransGen_swap, AtOrBelow]

/-! ## Nodes and their trees -/

/-- Texts stand apart in a child list if and only if they do in the tree. -/
theorem Unfolds.apart_iff (h : d.Unfolds x (.node c ts)) :
    (d.children x).IsChain (fun a b => d.isElement a ∨ d.isElement b) ↔ Tree.Apart ts := by
  obtain ⟨-, hbelow⟩ := h
  have hkinds : (d.children x).map d.isElement = ts.map fun t => t.content.isElement := by
    generalize d.children x = ys at hbelow ⊢
    induction hbelow with
    | nil => rfl
    | cons hfirst hrest ih => rw [List.map_cons, List.map_cons, hfirst.isElement, ih]
  -- On both sides only the kinds of the nodes are compared.
  have hmap := congrArg (List.IsChain fun a b : Bool => a = true ∨ b = true) hkinds
  rw [List.isChain_map, List.isChain_map] at hmap
  exact iff_of_eq hmap

/-- Every node of a document that is one tidy tree unfolds to a tidy tree. -/
theorem Shows.exists_tidy (h : d.Shows [t]) (ht : t.toTree.Tidy) (hx : x < d.size) :
    ∃ u, d.Unfolds x u ∧ u.Tidy := by
  obtain ⟨fs, c, cs, others, hperm⟩ := h.exists_plug hx
  have hsame : [t] = plug fs (.node x c cs) :: others := (List.perm_singleton.mp hperm.symm).symm
  obtain ⟨rfl, rfl⟩ := List.cons.inj hsame
  exact ⟨_, h.storesAt.unfolds, tidy_of_plug ht⟩

/-- A document that is one tidy tree is in normal form. -/
theorem Shows.isNormal (h : d.Shows [t]) (hroot : t.id = d.root) (htop : t.content.isElement)
    (ht : t.toTree.Tidy) : d.IsNormal := by
  have hforest : d.IsForest := h.isForest ⟨t, List.mem_singleton_self t, hroot⟩
  have hstored : d.Stores none t := h.stored t (List.mem_singleton_self t)
  refine { hforest with
    element_root := ?element_root, only_root := ?only_root, reached := ?reached,
    trimmed := ?trimmed, leaves := ?leaves, apart := ?apart, distinct := ?distinct }
  case element_root => rw [← hroot, hstored.unfolds.isElement, Placed.content_toTree, htop]
  case only_root =>
    intro x hx hnone
    obtain ⟨u, hu, rfl⟩ := h.mem_tops hx hnone
    rw [List.mem_singleton.mp hu, hroot]
  case reached =>
    intro x hx
    rw [hforest.leadsTo_iff, ← hroot]
    exact hstored.atOrBelow x (h.mem_ids hx)
  case trimmed =>
    intro x value hcontent
    exact ht.of_mem_contents.1 value (h.mem_contents hcontent)
  case leaves =>
    intro x htext
    by_cases hx : x < d.size
    · obtain ⟨⟨c, ts⟩, hu, htidy⟩ := h.exists_tidy ht hx
      rw [hu.isElement] at htext
      cases c with
      | element name attributes => cases htext
      | text value =>
          obtain ⟨-, rfl⟩ := htidy.of_text
          obtain ⟨-, hbelow⟩ := hu
          exact List.forall₂_nil_right_iff.mp hbelow
    · exact children_of_size_le (Nat.le_of_not_lt hx)
  case apart =>
    intro x
    by_cases hx : x < d.size
    · obtain ⟨⟨c, ts⟩, hu, htidy⟩ := h.exists_tidy ht hx
      exact hu.apart_iff.mpr htidy.apart
    · rw [children_of_size_le (Nat.le_of_not_lt hx)]
      exact .nil
  case distinct =>
    intro x name attributes hcontent
    exact (ht.of_mem_contents.2 name attributes (h.mem_contents hcontent)).distinct

end Document

/-! ## While a document is read -/

namespace Builder

variable {b : Builder} {stage : Stage} {f : Frame} {fs : List Frame} {s : Placed}

/-- An element at the end of what has been read makes a tidy tree with it. -/
theorem tidy_plug (h : ∀ g ∈ fs, TidyFrame g) (hs : s.toTree.Tidy) (htop : s.content.isElement) :
    (plug fs s).toTree.Tidy := by
  induction fs generalizing s with
  | nil => exact hs
  | cons f fs ih =>
      have hf := h f List.mem_cons_self
      have hfill : (f.fill [s]).toTree.Tidy := by
        rw [← hf.isOpen.fill_add s]
        exact (hf.add hs (.inl htop)).fill
      exact ih (fun g hg => h g (List.mem_cons_of_mem f hg)) hfill hf.isOpen.isElement

/-- From the first element on, what has been built is in normal form. -/
theorem At.isNormal (h : b.At stage) (htidy : stage.Tidy) (hroot : b.hasRoot = true) :
    b.document.IsNormal := by
  cases stage with
  | before =>
      rw [h.2.2] at hroot
      cases hroot
  | inside f fs =>
      have hf := htidy f List.mem_cons_self
      have hfs : ∀ g ∈ fs, TidyFrame g := fun g hg => htidy g (List.mem_cons_of_mem f hg)
      have htop : (f.fill []).content.isElement := hf.isOpen.isElement
      have hplug := content_plug_isElement (fun g hg => (hfs g hg).isOpen.isElement) htop
      exact h.1.isNormal h.2.1.symm hplug (tidy_plug hfs hf.fill htop)
  | after t => exact h.1.isNormal h.2.1.symm h.2.2.2.2 htidy

/-- From the first element on, every token leaves a document in normal form, also if the text
turns out to be no document. -/
theorem isNormal_of_run {total : Nat} {cs : List Char} {front back : List (Token × List Char)}
    (hscan : Token.scan cs = front ++ back) (hrun : run total front start = .ok b)
    (hroot : b.hasRoot = true) : b.document.IsNormal := by
  obtain ⟨stage, hreads, hat⟩ := exists_readsAll at_start hrun
  refine hat.isNormal (hreads.tidy_stage (fun token htoken => ?_) trivial) hroot
  obtain ⟨e, he, rfl⟩ := List.mem_map.mp htoken
  exact Token.isProper_of_mem_scan (hscan ▸ List.mem_append_left back he)

end Builder

namespace Document

variable {d : Document}

/-- A document that was read is in normal form: its root is an element, the only node without a
parent, from which child lists lead to every node of the arena; its texts are trimmed, not empty
and never side by side; and no element has a key twice. -/
theorem normal_of_parse {text : String} (h : parse text = .ok d) : d.IsNormal := by
  obtain ⟨b, hrun, hfinish⟩ := Outcome.of_bind_eq_ok h
  obtain ⟨hroot, rfl⟩ := Builder.of_finish_eq_ok hfinish
  exact Builder.isNormal_of_run (List.append_nil _).symm hrun hroot

/-- Character data in pieces, an element after it, and keys that differ in case. -/
def piecewiseText : String :=
  "<a k=\"1\" K=\"2\"> x <!-- c -->\u00A0y\n<![CDATA[ z ]]><b/> w&#32;</a>"

/-- The document of that text. -/
def piecewiseDocument : Document :=
  ⟨#[⟨.element "a" [⟨"k", "1"⟩, ⟨"K", "2"⟩], none, [1, 2, 3]⟩, ⟨.text "xyz", some 0, []⟩,
    ⟨.element "b" [], some 0, []⟩, ⟨.text "w", some 0, []⟩], 0⟩

/-- Pieces of character data are trimmed one by one, and become one text. -/
theorem normal_of_parse_piecewise :
    parse piecewiseText = .ok piecewiseDocument ∧ piecewiseDocument.IsNormal := by
  have hparse : parse piecewiseText = .ok piecewiseDocument :=
    Outcome.of_toOption_eq_some (by decide +kernel)
  exact ⟨hparse, normal_of_parse hparse⟩

/-! ## Reading a normal form -/

/-- What a node of a document in normal form unfolds to can be written if the names and keys
can. -/
theorem IsNormal.writable (h : d.IsNormal)
    (hnames : ∀ x name attributes, d.content? x = some (.element name attributes) →
      IsName name.toList ∧ ∀ a ∈ attributes, IsKey a.key.toList)
    {x : NodeId} {t : Tree} (ht : d.Unfolds x t) : t.Writable ∧ t.TextsAreLeaves := by
  induction t generalizing x with
  | node c ts ih =>
      have hapart := ht.apart_iff.mp (h.apart x)
      have hall : ∀ u ∈ ts, u.Writable ∧ u.TextsAreLeaves := by
        intro u hu
        obtain ⟨y, -, hy⟩ := ht.exists_child hu
        exact ih u hu hy
      have hkind := ht.isElement
      obtain ⟨hcontent, hbelow⟩ := ht
      cases c with
      | text value =>
          rw [h.leaves x hkind] at hbelow
          cases hbelow
          exact ⟨.text (h.trimmed x value hcontent), .text value⟩
      | element name attributes =>
          obtain ⟨hname, hkeys⟩ := hnames x name attributes hcontent
          have htag : IsTag name attributes := ⟨hname, hkeys, h.distinct x name attributes hcontent⟩
          exact ⟨.element htag (fun u hu => (hall u hu).1) hapart,
            .element fun u hu => (hall u hu).2⟩

/-- A document in normal form whose names and keys can be written is read again from what is
written of it. -/
theorem IsNormal.read_again (h : d.IsNormal)
    (hnames : ∀ x name attributes, d.content? x = some (.element name attributes) →
      IsName name.toList ∧ ∀ a ∈ attributes, IsKey a.key.toList) :
    ∃ d', parse d.serialize = .ok d' ∧ d'.tree d'.root = d.tree d.root := by
  have hunfolds := h.unfolds h.root_lt
  obtain ⟨hwritable, hleaves⟩ := h.writable hnames hunfolds
  have htop : (d.tree d.root).content.isElement := by
    rw [← hunfolds.isElement, h.element_root]
  obtain ⟨d', hparse, htree⟩ := exists_parse_toText hwritable.legible htop
  exact ⟨d', hparse, htree.trans hleaves.pruned_eq⟩

end Document

end RouteCompiler.Route
