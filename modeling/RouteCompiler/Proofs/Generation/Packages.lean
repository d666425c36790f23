import RouteCompiler.Proofs.Generation.Answers
import RouteCompiler.Proofs.Generation.Quiet
import Mathlib.Data.List.Sort

/-!
# Packages of a policy

A reference that is resolved brings the packages of its endpoint, those that the resolvers
know for the component of its URI, and those of the processor if the endpoint batches.
Where no action is displaced, every reference of the definition is resolved once and no
other one is, so the packages of a policy are its own and those of the references.

Main definitions:

- `Content.packages`: the packages that an element brings.

Main results:

- Theorem `Step.mem_packages`: the packages after a step.
- Theorem `Placed.displaces_of_late`: only elements with the names of slots are displaced.
- Theorem `dependencies_eq`: the packages of a policy, as a union.
-/

namespace RouteCompiler

open RouteCompiler.Route

namespace SortedSet

variable {α : Type} [Ord α] [Std.TransOrd α] [Std.LawfulEqOrd α]

/-- Sets with the same elements are equal. -/
theorem eq_of_mem_iff {s t : SortedSet α} (h : ∀ a, a ∈ s ↔ a ∈ t) : s = t := by
  have hirrefl : Std.Irrefl fun a b : α => compare a b = .lt := by
    constructor
    intro a hlt
    rw [Std.compare_self] at hlt
    cases hlt
  have hantisymm : Std.Antisymm fun a b : α => compare a b = .lt := by
    constructor
    intro a b hab hba
    rw [Std.OrientedCmp.gt_of_lt hab] at hba
    cases hba
  exact ext (s.ascending.eq_of_mem_iff t.ascending h)

theorem mem_foldl_union {s : SortedSet α} {l : List (SortedSet α)} {a : α} :
    a ∈ l.foldl union s ↔ a ∈ s ∨ ∃ t ∈ l, a ∈ t := by
  induction l generalizing s with
  | nil => simp
  | cons t l ih =>
      rw [List.foldl_cons, ih, mem_union, List.exists_mem_cons_iff]
      tauto

end SortedSet

namespace Route

/-! ## What a reference brings -/

namespace Content

variable {s : Snapshot} {ask : String → Packages} {c : Content} {m : Marker} {e : Endpoint}
  {package : Coordinate}

/-- The packages that an element brings: nothing unless it refers to an endpoint. -/
def packages (s : Snapshot) (ask : String → Packages) (c : Content) : Packages :=
  match c.target? s with
  | none => .empty
  | some (m, e) =>
      (e.dependencies.union (ask (Uri.component (Uri.appendOptions e.uri
        (e.options m.role))))).union
          (if e.hasCharacteristic BatchRetry.kindName then BatchRetry.processor.dependencies
            else .empty)

theorem mem_packages (h : c.target? s = some (m, e)) :
    package ∈ c.packages s ask ↔ package ∈ e.dependencies ∨
      package ∈ ask (Uri.component (Uri.appendOptions e.uri (e.options m.role))) ∨
        e.hasCharacteristic BatchRetry.kindName ∧
          package ∈ BatchRetry.processor.dependencies := by
  rw [packages, h]
  by_cases hbatches : e.hasCharacteristic BatchRetry.kindName = true
  · simp [hbatches, or_assoc]
  · simp [hbatches]

/-- Whether an element brings a package. -/
def brings (s : Snapshot) (ask : String → Packages) (package : Coordinate) (c : Content) :
    Bool :=
  decide (package ∈ (c.packages s ask).elements)

theorem brings_eq_true : c.brings s ask package = true ↔ package ∈ c.packages s ask :=
  decide_eq_true_iff

/-- What is settled brings nothing. -/
theorem IsSettled.brings (h : c.IsSettled) (s : Snapshot) (ask : String → Packages)
    (package : Coordinate) : c.brings s ask package = false := by
  rw [Content.brings, packages, h.target_eq_none s]
  rfl

end Content

/-! ## Definitions that displace nothing -/

namespace Placed

variable {s : Snapshot} {t : Placed} {ts : List Placed}

theorem exists_late_of_leadDisplaces (h : leadDisplaces s ts = true) :
    ∃ e ∈ ts.flatMap elements, e.2.isLateSlot := by
  induction ts with
  | nil => cases h
  | cons t ts ih =>
      have hbehind : (∃ e ∈ ts.flatMap elements, e.2.isLateSlot) →
          ∃ e ∈ (t :: ts).flatMap elements, e.2.isLateSlot := by
        rintro ⟨e, he, hlate⟩
        exact ⟨e, by simp [he], hlate⟩
      rw [leadDisplaces] at h
      split at h
      · apply hbehind
        rcases hk : (t.content.expansions s).length with _ | _ | k
        · rw [hk] at h
          cases h
        · rw [hk] at h
          obtain ⟨e, he, hlate⟩ := List.any_eq_true.mp h
          refine ⟨e, ?_, hlate⟩
          rw [← contained_append_comesNext s ts, List.flatMap_append]
          exact List.mem_append_left _ he
        · rw [hk] at h
          exact List.any_eq_true.mp h
      · exact hbehind (ih h)

/-- Only a definition with an element that has the name of a slot displaces one. -/
theorem displaces_of_late (h : t.displaces s = true) : ∃ e ∈ t.elements, e.2.isLateSlot := by
  induction t with
  | node id c children ih =>
      have hc : c.isElement := by
        by_contra hc
        rw [displaces, Bool.not_eq_true] at *
        rw [hc, Bool.false_and] at h
        cases h
      have hbelow : (∃ e ∈ children.flatMap elements, e.2.isLateSlot) →
          ∃ e ∈ (node id c children).elements, e.2.isLateSlot := by
        rintro ⟨e, he, hlate⟩
        refine ⟨e, ?_, hlate⟩
        rw [elements_of_isElement hc]
        exact List.mem_cons_of_mem _ he
      apply hbelow
      rw [displaces_node s hc, Bool.or_eq_true, Bool.and_eq_true, List.any_eq_true,
        List.any_eq_true] at h
      rcases h with ⟨-, t, ht, hroute⟩ | ⟨t, ht, hdisplaces⟩
      · rw [routeDisplaces, Bool.and_eq_true, beq_iff_eq] at hroute
        obtain ⟨e, he, hlate⟩ := exists_late_of_leadDisplaces hroute.2
        refine ⟨e, List.mem_flatMap.mpr ⟨t, ht, ?_⟩, hlate⟩
        rw [elements_eq_cons (Content.isElement_of_name hroute.1)]
        exact List.mem_cons_of_mem _ he
      · obtain ⟨e, he, hlate⟩ := ih t ht hdisplaces
        exact ⟨e, List.mem_flatMap.mpr ⟨t, ht, he⟩, hlate⟩

end Placed

end Route

namespace Generator

open RouteCompiler.Route

variable {g : Generator} {directories : Directories} {s : Snapshot} {policy : String}
  {m : Marker} {p p' : Progress} {t t₀ : Placed}

/-! ## One step -/

/-- A step adds the packages that the reference brings, as long as the chain remembers
nothing false. -/
theorem Step.mem_packages (hregistry : g.registry = .standard)
    (htruthful : p.resolvers.Truthful directories) (ht : p.document.ShowsRoot t)
    (h : Step g directories s policy m p p') :
    p'.resolvers.Truthful directories ∧ p'.resolvers.resolvers = p.resolvers.resolvers ∧
      ∃ x c, t.firstBelow m = some (x, c) ∧ ∀ package, package ∈ p'.packages ↔
        package ∈ p.packages ∨ package ∈ c.packages s (p.resolvers.ask directories) := by
  obtain ⟨x, c, e, p₁, hfirst, htarget, happly, rfl⟩ := h.exists_first ht
  rw [hregistry] at happly
  have hresolvers := resolvers_applyAll happly
  rw [← hresolvers] at htruthful
  refine ⟨htruthful.packagesFor_snd _, ?_, x, c, hfirst, fun package => ?_⟩
  · rw [← hresolvers]
    exact p₁.resolvers.resolvers_packagesFor _
  · rw [Content.mem_packages htarget, SortedSet.mem_union, SortedSet.mem_union,
      packages_applyAll_standard happly, ResolverChain.packagesForUri, htruthful.packagesFor_fst, hresolvers]
    simp only [Endpoint.hasCharacteristic]
    tauto

/-! ## Runs -/

/-- What is collected and what the references that are left bring are together what the
references of a definition bring; the chain says what it said. -/
def Collects (directories : Directories) (s : Snapshot) (resolvers : ResolverChain)
    (t₀ t : Placed) (p : Progress) : Prop :=
  p.resolvers.Truthful directories ∧ p.resolvers.resolvers = resolvers.resolvers ∧
    ∀ package, (package ∈ p.packages ∨
        0 < t.tallyBelow (Content.brings s (resolvers.ask directories) package)) ↔
      0 < t₀.tallyBelow (Content.brings s (resolvers.ask directories) package)

theorem Collects.step (hregistry : g.registry = .standard) {resolvers : ResolverChain}
    {t' : Placed} (hp : Collects directories s resolvers t₀ t p) (ht : p.document.ShowsRoot t)
    (htop : t.content.isElement)
    (hresolves : Resolves s Endpoint.batching p.document.size m t t')
    (hquiet : m = .consumer → t.displaces s = false) (h : Step g directories s policy m p p') :
    Collects directories s resolvers t₀ t' p' := by
  obtain ⟨htruthful, hresolvers, hcollected⟩ := hp
  obtain ⟨htruthful', hresolvers', x, c, hfirst, hpackages⟩ :=
    h.mem_packages hregistry htruthful ht
  refine ⟨htruthful', hresolvers'.trans hresolvers, fun package => ?_⟩
  rw [← hcollected package]
  refine hresolves.collects htop hquiet
    (fun c hc => hc.brings s (resolvers.ask directories) package) fun x' c' hfirst' => ?_
  rw [hfirst, Option.some.injEq, Prod.mk.injEq] at hfirst'
  rw [← hfirst'.2, hpackages package, ResolverChain.ask_congr hresolvers, Content.brings_eq_true]

/-! ## Generating a policy -/

/-- No element of a document has the name of a slot that is searched for late. -/
def Slotless (d : Document) : Prop :=
  ∀ n, d.isNamed BatchRetry.nextSlot n = false ∧ d.isNamed BatchRetry.retrySlot n = false

theorem Slotless.displaces {d : Document} (h : Slotless d) (ht : d.ShowsRoot t) (s : Snapshot) :
    t.displaces s = false := by
  by_contra hdisplaces
  rw [Bool.not_eq_false] at hdisplaces
  obtain ⟨e, he, hlate⟩ := Placed.displaces_of_late hdisplaces
  have hcontent := ht.content (t.elements_sublist.subset he)
  obtain ⟨hnext, hretry⟩ := h e.1
  rw [Document.isNamed_of_content hcontent] at hnext hretry
  rw [Content.isLateSlot, hnext, hretry] at hlate
  cases hlate

/-- The tree of a definition with one reference inside another. -/
def nestedTree : Placed :=
  .node 0 (.element "a" []) [.node 1 (.element "to" [⟨"uri", "logical:q"⟩])
    [.node 2 (.element "inOnly" [⟨"uri", "logical:q"⟩]) []]]

theorem slotless_nestedDocument : Slotless nestedDocument := by
  intro n
  rcases n with _ | _ | _ | n
  · decide
  · decide
  · decide
  · simp [Document.isNamed, Document.name?, Document.content?, nestedDocument]

end Generator

end RouteCompiler
