import RouteCompiler.Proofs.Document.Scanning
import RouteCompiler.Proofs.Document.Walk

/-!
# What the nodes of a document hold

Most edits only change links.  What a node holds is given when the node is made and
changed by edits of that node alone, so a property of what all nodes hold is kept by
every edit that adds nothing without it, whatever the links are.

Main definitions:

- `Content.IsWritable`: the tags and texts that can be written.
- `Document.Holds`: all places of an arena, detached ones too, hold something with a
  property.

Main results:

- One theorem per edit, `Holds.push` to `Holds.graft`: what the edit has to respect.
-/

namespace RouteCompiler.Route

/-- What can be written: a tag or a text. -/
def Content.IsWritable : Content → Prop
  | .element name attributes => IsTag name attributes
  | .text value => IsValue value.toList

instance (c : Content) : Decidable c.IsWritable :=
  match c with
  | .element name attributes => inferInstanceAs (Decidable (IsTag name attributes))
  | .text value => inferInstanceAs (Decidable (IsValue value.toList))

namespace Document

/-- All places of the arena hold something with a property. -/
def Holds (P : Content → Prop) (d : Document) : Prop :=
  ∀ n c, d.content? n = some c → P c

variable {P : Content → Prop} {d : Document} {c : Content}

theorem holds_iff : d.Holds P ↔ ∀ node ∈ d.nodes.toList, P node.content := by
  constructor
  · intro h node hnode
    obtain ⟨n, hn⟩ := List.mem_iff_getElem?.mp hnode
    apply h n
    rw [content?, ← Array.getElem?_toList, hn]
    rfl
  · intro h n c hc
    obtain ⟨node, hnode, rfl⟩ := Option.map_eq_some_iff.mp hc
    rw [← Array.getElem?_toList] at hnode
    exact h node (List.mem_of_getElem? hnode)

instance [DecidablePred P] : Decidable (d.Holds P) :=
  decidable_of_iff _ holds_iff.symm

namespace Holds

/-- Only what nodes hold counts. -/
theorem congr {d' : Document} (h : d.Holds P) (heq : ∀ n, d'.content? n = d.content? n) :
    d'.Holds P := by
  intro n c hc
  rw [heq n] at hc
  exact h n c hc

theorem push (h : d.Holds P) (hc : P c) : (d.push c).1.Holds P := by
  intro n c' hc'
  simp only [content?, Document.push, Array.getElem?_push] at hc'
  split at hc'
  · rw [Option.map_some, Option.some.injEq] at hc'
    exact hc' ▸ hc
  · exact h n c' hc'

/-- A node that is changed has to keep the property. -/
theorem modifyContent (h : d.Holds P) (id : NodeId) {f : Content → Content}
    (hf : ∀ c, P c → P (f c)) : (d.modifyContent id f).Holds P := by
  intro n c hc
  simp only [content?, Document.modifyContent, getElem_modifyNode] at hc
  split at hc
  · rw [Option.map_map, Option.map_eq_some_iff] at hc
    obtain ⟨node, hnode, rfl⟩ := hc
    apply hf
    apply h n
    rw [content?, hnode]
    rfl
  · exact h n c hc

theorem setAttribute (h : d.Holds P) (id : NodeId) {key value : String}
    (hset : ∀ c, P c → P (c.setAttribute key value)) :
    (d.setAttribute id key value).Holds P :=
  h.modifyContent id hset

/-! ## Links -/

theorem setParent (h : d.Holds P) (id : NodeId) (parent : Option NodeId) :
    (d.setParent id parent).Holds P :=
  h.congr fun n => d.content_setParent id n parent

theorem modifyChildren (h : d.Holds P) (id : NodeId) (f : List NodeId → List NodeId) :
    (d.modifyChildren id f).Holds P :=
  h.congr fun n => d.content_modifyChildren id n f

theorem link (h : d.Holds P) (parent child : NodeId) : (d.link parent child).Holds P :=
  (h.setParent child (some parent)).modifyChildren parent _

theorem detach (h : d.Holds P) (id : NodeId) : (d.detach id).Holds P := by
  unfold Document.detach
  split
  · exact h
  · exact (h.setParent id none).modifyChildren _ _

theorem appendChild (h : d.Holds P) (parent child : NodeId) :
    (d.appendChild parent child).Holds P :=
  (h.detach child).link parent child

theorem replace (h : d.Holds P) (target replacement : NodeId) :
    (d.replace target replacement).Holds P := by
  unfold Document.replace
  split
  · exact h
  · exact (((h.detach replacement).modifyChildren _ _).setParent target none).setParent _ _

/-- What each edit of a sequence keeps, the sequence keeps. -/
theorem foldl {f : Document → NodeId → Document}
    (hf : ∀ d r, d.Holds P → (f d r).Holds P) (rs : List NodeId) (h : d.Holds P) :
    (rs.foldl f d).Holds P := by
  induction rs generalizing d with
  | nil => exact h
  | cons r rs ih => exact ih (hf d r h)

theorem replaceWithMany (h : d.Holds P) (target : NodeId) (replacements : List NodeId) :
    (d.replaceWithMany target replacements).Holds P := by
  unfold Document.replaceWithMany
  split
  · exact h
  · next parent _ =>
    have hdetached := foldl (fun d r h => h.detach r) replacements h
    dsimp only
    split
    · have hcut := (hdetached.modifyChildren parent (splice target replacements)).setParent target
        none
      exact foldl (fun d r h => h.setParent r (some parent)) replacements hcut
    · exact hdetached

/-! ## Copies -/

private theorem graftAll_of_graft {trees : List Tree}
    (ih : ∀ t ∈ trees, ∀ {d : Document}, d.Holds P → (∀ c ∈ t.contents, P c) →
      (d.graft t).1.Holds P)
    (h : d.Holds P) (htrees : ∀ c ∈ Tree.contentsAll trees, P c) (parent : NodeId) :
    (d.graftAll parent trees).Holds P := by
  induction trees generalizing d with
  | nil => exact h
  | cons t trees ihtrees =>
      rw [Tree.contentsAll] at htrees
      have hcopy := ih t (by simp) h fun c hc => htrees c (List.mem_append_left _ hc)
      rw [Document.graftAll]
      apply ihtrees fun u hu => ih u (by simp [hu])
      · exact hcopy.link parent _
      · intro c hc
        exact htrees c (List.mem_append_right _ hc)

/-- A copy holds what was copied. -/
theorem graft (h : d.Holds P) {t : Tree} (ht : ∀ c ∈ t.contents, P c) :
    (d.graft t).1.Holds P := by
  induction t generalizing d with
  | node content children ih =>
      rw [Tree.contents] at ht
      have hpush : (d.push content).1.Holds P := h.push (ht content (by simp))
      exact graftAll_of_graft (fun t hmem _ h ht => ih t hmem h ht) hpush
        (fun c hc => ht c (List.mem_cons_of_mem _ hc)) _

end Holds

end Document

end RouteCompiler.Route
