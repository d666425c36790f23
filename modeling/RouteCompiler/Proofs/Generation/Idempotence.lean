import RouteCompiler.Proofs.Document.Joining
import RouteCompiler.Proofs.Generation.SinglePass
import RouteCompiler.Proofs.Generation.Writing

/-!
# Generating again

A policy that was generated has nothing left to resolve, and its definition can be read
again if the names and keys of the original one can be written.  Texts that became
neighbours are read as one, but no element changes on the way, so there is nothing to
resolve in what is read either, and it is written as it was.

Main results:

- Theorem `elements_joined`: joining texts keeps the elements.
- Theorem `generated_again`: generating from what was generated gives it back.
-/

namespace RouteCompiler

open RouteCompiler.Route

namespace Route.Tree

/-- Joining texts keeps the elements. -/
theorem elements_joined (depth : Nat) (t : Tree) : (t.joined depth).elements = t.elements := by
  induction t generalizing depth with
  | node c children ih =>
      cases c with
      | text value => rfl
      | element name attributes =>
          have hjoin : ∀ between ts, (joinTexts between ts).flatMap elements =
              ts.flatMap elements := by
            intro between ts
            apply flatMap_joinTexts
            intro value more below below'
            rfl
          rw [joined, elements, elements, elementsAll_eq_flatMap, elementsAll_eq_flatMap, hjoin,
            joinedAll_eq_map, List.flatMap_map]
          exact congrArg _ (List.flatMap_congr fun t ht => ih t ht (depth + 1))

/-- The elements below the top are kept, too. -/
theorem elementsAll_children_joined (depth : Nat) {t : Tree} (h : t.content.isElement) :
    elementsAll (t.joined depth).children = elementsAll t.children := by
  obtain ⟨c, children⟩ := t
  cases c with
  | text value => cases h
  | element name attributes =>
      have hall := elements_joined depth (.node (.element name attributes) children)
      rw [joined, elements, elements] at hall
      exact (List.cons.inj hall).2

end Route.Tree

namespace Generator

variable {g : Generator} {directories : Directories} {s : Snapshot}

/-- A definition whose elements below the root are settled, and which can be written, comes
out of generation as it went in. -/
theorem generateWith_toText {policy : Policy} {resources : Settings}
    (hresources : s.resourceContents policy = .ok resources) {t : Placed}
    (htop : t.content.isElement) (hwritable : ∀ c ∈ t.toTree.contents, c.IsWritable)
    (hsettled : ∀ e ∈ t.elementsBelow, e.2.IsSettled) (resolvers : ResolverChain) :
    g.generateWith directories resolvers s policy t.toTree.toText =
      .ok (⟨policy.name, t.toTree.toText,
        (g.ownPackages policy).foldl SortedSet.union .empty, resources, []⟩, resolvers) := by
  have htop' : t.toTree.content.isElement := by
    rw [Placed.content_toTree]
    exact htop
  obtain ⟨d, hparse, htree, hserialize⟩ := Document.exists_parse_eq_joined hwritable htop'
  obtain ⟨u, hshows, hroot, -⟩ := Document.exists_shows_of_parse hparse
  have hu : d.ShowsRoot u := ⟨hroot, [], hshows⟩
  rw [hu.tree] at htree
  have hsame : u.elementsBelow.map Prod.snd = t.elementsBelow.map Prod.snd := by
    rw [Placed.elementsBelow_map_content, Placed.elementsBelow_map_content, htree,
      Tree.elementsAll_children_joined 0 htop']
  have hsettled' : ∀ e ∈ u.elementsBelow, e.2.IsSettled := by
    intro e he
    have hmem : e.2 ∈ t.elementsBelow.map Prod.snd := by
      rw [← hsame]
      exact List.mem_map_of_mem he
    obtain ⟨e', he', heq⟩ := List.mem_map.mp hmem
    rw [← heq]
    exact hsettled e' he'
  rw [generateWith_of_isSettled resolvers hresources hparse hu hsettled', hserialize]

/-- Generating from a definition that was generated gives it back: nothing is resolved, no
advice is given, and only the packages of the policy itself are collected. -/
theorem generated_again (hregistry : g.registry = .standard ∨ g.registry = .empty)
    {resolvers resolvers' : ResolverChain} {policy : Policy} {definition : String} {d : Document}
    {generated : GeneratedPolicy} (hparse : Document.parse definition = .ok d)
    (hnames : ∀ n name attributes, d.content? n = some (.element name attributes) →
      IsName name.toList ∧ ∀ a ∈ attributes, IsKey a.key.toList)
    (hgenerate : g.generateWith directories resolvers s policy definition =
      .ok (generated, resolvers')) (directories' : Directories) (resolvers'' : ResolverChain) :
    g.generateWith directories' resolvers'' s policy generated.definition =
      .ok ({ policy := policy.name
             definition := generated.definition
             dependencies := (policy.dependencies :: policy.resources.map Resource.dependencies ++
               [g.baseDependencies]).foldl SortedSet.union .empty
             resources := generated.resources
             issues := [] }, resolvers'') := by
  obtain ⟨resources, d', final, hresources, hparse', hfinal, rfl, -⟩ :=
    exists_of_generateWith hgenerate
  rw [hparse, Except.ok.injEq] at hparse'
  subst hparse'
  have hsound : Sound (start d resolvers) := sound_start hparse
  have hsteps := references_lt_steps hparse
  have hholds : final.document.Holds Content.IsWritable :=
    of_resolveKinds (fun _ _ _ _ hp hstep => Step.holds hstep hregistry hp) hfinal
      (Document.holds_of_parse hparse hnames)
  obtain ⟨t, ht, htop, -⟩ :=
    exhausted_of_resolveKinds hregistry hsound hsteps hfinal .consumer (by decide)
  have hwritable : ∀ c ∈ t.toTree.contents, c.IsWritable := by
    intro c hc
    rw [← Placed.nodes_map_content] at hc
    obtain ⟨e, he, rfl⟩ := List.mem_map.mp hc
    exact hholds e.1 e.2 (ht.content he)
  have hsettled := isSettled_of_resolveKinds hregistry hsound hsteps hfinal ht
  rw [ht.serialize]
  exact generateWith_toText hresources htop hwritable hsettled resolvers''

/-- A definition with two texts that become neighbours when what stands between them is
taken for a slot. -/
def separatedTexts : String :=
  "<camelContext><route><from uri=\"logical:q\"/>one<NEXT/>two</route></camelContext>"

/-- The document of that definition. -/
def separatedDocument : Document :=
  ⟨#[⟨.element "camelContext" [], none, [1]⟩, ⟨.element "route" [], some 0, [2, 3, 4, 5]⟩,
    ⟨.element "from" [⟨"uri", "logical:q"⟩], some 1, []⟩, ⟨.text "one", some 1, []⟩,
    ⟨.element "NEXT" [], some 1, []⟩, ⟨.text "two", some 1, []⟩], 0⟩

/-- The texts are read as one, and still the definition comes out as it went in. -/
theorem generated_again_separated :
    ∃ generated resolvers,
      generateWith ⟨.standard, .empty, .empty⟩ (fun _ => false) .empty batchingSnapshot
        { name := "p" } separatedTexts = .ok (generated, resolvers) ∧
      generateWith ⟨.standard, .empty, .empty⟩ (fun _ => false) .empty batchingSnapshot
        { name := "p" } generated.definition =
          .ok (⟨"p", generated.definition, [.empty, .empty].foldl SortedSet.union .empty,
            generated.resources, []⟩, .empty) := by
  have hparse : Document.parse separatedTexts = .ok separatedDocument :=
    Outcome.of_toOption_eq_some (by decide +kernel)
  have hnames : ∀ n name attributes,
      separatedDocument.content? n = some (.element name attributes) →
        IsName name.toList ∧ ∀ a ∈ attributes, IsKey a.key.toList := by
    have hholds : separatedDocument.Holds Content.IsWritable := by decide +kernel
    intro n name attributes hcontent
    have htag : IsTag name attributes := hholds n _ hcontent
    exact ⟨htag.name, htag.keys⟩
  have hok : (generateWith ⟨.standard, .empty, .empty⟩ (fun _ => false) .empty batchingSnapshot
      { name := "p" } separatedTexts).isOk = true := by
    decide +kernel
  obtain ⟨⟨generated, resolvers⟩, hgenerate⟩ := Outcome.exists_of_isOk hok
  exact ⟨generated, resolvers, hgenerate,
    generated_again (.inl rfl) hparse hnames hgenerate (fun _ => false) .empty⟩

end Generator

end RouteCompiler
