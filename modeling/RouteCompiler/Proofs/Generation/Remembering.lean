import Mathlib.Data.List.Forall2
import RouteCompiler.Generation.Generator
import RouteCompiler.Proofs.Generation.Answers
import RouteCompiler.Proofs.Outcome

/-!
# Generation and what a chain remembers

The policies of a snapshot share one chain of resolvers, which remembers what it
was asked for earlier policies.  A chain that remembers nothing false answers as
its resolvers do, so two runs whose chains have the same resolvers go on alike,
whatever the chains remember.

Main definitions:

- `ResolverChain.AnswersFor`: the chains that answer as some resolvers do.
- `Progress.Alike`: two runs that differ only in what their chains remember.
- `Generator.answer`: what is generated for a policy, without the chain.
- `Generator.withChain`: the generator with another chain.

Main results:

- Theorem `answer_congr`: what a chain remembers changes no policy, and no error.
- Theorem `answersFor_of_generateWith`: a chain with which a policy was generated
  answers as before.
- Theorem `of_generateSnapshot_eq_ok`: the policies of a snapshot are generated as each
  of them is by itself.
- Theorem `generateSnapshot_withChain`: a snapshot is generated alike by generators whose
  chains differ only in what they remember.
-/

namespace RouteCompiler

open RouteCompiler.Route

/-! ## Chains of the same resolvers -/

/-- A chain has the given resolvers, and remembers nothing false of them. -/
structure ResolverChain.AnswersFor (directories : Directories) (resolvers : List Resolver)
    (c : ResolverChain) : Prop where
  resolvers_eq : c.resolvers = resolvers
  truthful : c.Truthful directories

namespace ResolverChain.AnswersFor

variable {directories : Directories} {resolvers : List Resolver} {c c' : ResolverChain}

/-- Chains of the same resolvers give the same answer. -/
theorem packagesForUri_fst (h : c.AnswersFor directories resolvers)
    (h' : c'.AnswersFor directories resolvers) (uri : String) :
    (c.packagesForUri directories uri).1 = (c'.packagesForUri directories uri).1 := by
  rw [packagesForUri, packagesForUri, h.truthful.packagesFor_fst, h'.truthful.packagesFor_fst,
    ask_congr (h.resolvers_eq.trans h'.resolvers_eq.symm)]

/-- A chain that was asked remembers one more answer, and that is not false. -/
theorem packagesForUri_snd (h : c.AnswersFor directories resolvers) (uri : String) :
    (c.packagesForUri directories uri).2.AnswersFor directories resolvers :=
  ⟨(resolvers_packagesFor ..).trans h.resolvers_eq, h.truthful.packagesFor_snd _⟩

end ResolverChain.AnswersFor

/-- Two runs differ only in what their chains remember. -/
structure Progress.Alike (directories : Directories) (resolvers : List Resolver)
    (p p' : Progress) : Prop where
  document : p.document = p'.document
  packages : p.packages = p'.packages
  issues : p.issues = p'.issues
  chain : p.resolvers.AnswersFor directories resolvers
  chain' : p'.resolvers.AnswersFor directories resolvers

namespace Generator

variable {g : Generator} {directories : Directories} {s : Snapshot} {policy : String}
  {p p' : Progress} {resolvers : List Resolver}

/-! ## One reference -/

/-- A characteristic is applied alike. -/
theorem applyCharacteristic_alike (h : p.Alike directories resolvers p') (registry : Registry)
    (e : Endpoint) (x : NodeId) (c : Characteristic) :
    Outcome.Alike (Progress.Alike directories resolvers)
      (applyCharacteristic registry s policy e x p c)
      (applyCharacteristic registry s policy e x p' c) := by
  rw [applyCharacteristic, applyCharacteristic, ← h.document, ← h.packages, ← h.issues]
  cases registry.find? c.kind with
  | none => exact .ok ⟨rfl, rfl, rfl, h.chain, h.chain'⟩
  | some processor =>
      refine (Outcome.Alike.refl _).bind fun d d' hd => ?_
      subst hd
      exact .ok ⟨rfl, rfl, rfl, h.chain, h.chain'⟩

/-- All characteristics are applied alike. -/
theorem applyAll_alike (h : p.Alike directories resolvers p') (registry : Registry) (e : Endpoint)
    (x : NodeId) (cs : List Characteristic) :
    Outcome.Alike (Progress.Alike directories resolvers) (applyAll registry s policy e x p cs)
      (applyAll registry s policy e x p' cs) := by
  induction cs generalizing p p' with
  | nil => exact .ok h
  | cons c cs ih => exact (applyCharacteristic_alike h registry e x c).bind fun _ _ h => ih h

/-- A reference is resolved alike. -/
theorem resolveElement_alike (h : p.Alike directories resolvers p') (m : Marker) (x : NodeId)
    (uri : String) :
    Outcome.Alike (Progress.Alike directories resolvers)
      (g.resolveElement directories s policy m x uri p)
      (g.resolveElement directories s policy m x uri p') := by
  refine (Outcome.Alike.refl (s.resolveFor m uri)).bind fun found found' hfound => ?_
  subst hfound
  cases found with
  | none => exact .error _
  | some resolution =>
      dsimp only
      split
      · exact .error _
      · have hset : Progress.Alike directories resolvers
            { p with document := p.document.setAttribute x Uri.attributeKey resolution.uri }
            { p' with document := p'.document.setAttribute x Uri.attributeKey resolution.uri } :=
          { h with document := by rw [h.document] }
        refine (applyAll_alike hset g.registry resolution.endpoint x
          resolution.endpoint.characteristics).bind fun q q' hq => ?_
        have hanswer := hq.chain.packagesForUri_fst hq.chain' resolution.uri
        exact .ok ⟨hq.document, by rw [hanswer, hq.packages], hq.issues,
          hq.chain.packagesForUri_snd _, hq.chain'.packagesForUri_snd _⟩

/-! ## All references -/

/-- References of one kind are resolved alike. -/
theorem resolveKind_alike (h : p.Alike directories resolvers p') (m : Marker) (steps : Nat) :
    Outcome.Alike (Progress.Alike directories resolvers)
      (g.resolveKind directories s policy m steps p)
      (g.resolveKind directories s policy m steps p') := by
  induction steps generalizing p p' with
  | zero => exact .ok h
  | succ steps ih =>
      rw [resolveKind, resolveKind, ← h.document]
      refine (Outcome.Alike.refl (nextReference p.document m)).bind fun found found' hfound => ?_
      subst hfound
      cases found with
      | none => exact .ok h
      | some found => exact (resolveElement_alike h m found.1 found.2).bind fun _ _ h => ih h

/-- References of all kinds are resolved alike. -/
theorem resolveKinds_alike (h : p.Alike directories resolvers p') (steps : Nat) (ms : List Marker) :
    Outcome.Alike (Progress.Alike directories resolvers)
      (g.resolveKinds directories s policy steps ms p)
      (g.resolveKinds directories s policy steps ms p') := by
  induction ms generalizing p p' with
  | nil => exact .ok h
  | cons m ms ih => exact (resolveKind_alike h m steps).bind fun _ _ h => ih h

/-! ## One policy -/

/-- What is generated for a policy, or why it cannot be, when it is asked with a
chain. -/
def answer (g : Generator) (directories : Directories) (c : ResolverChain) (s : Snapshot)
    (policy : Policy) (definition : String) : Except GenerationError GeneratedPolicy :=
  (g.generateWith directories c s policy definition).map Prod.fst

theorem generate_eq_answer (g : Generator) (directories : Directories) (s : Snapshot)
    (policy : Policy) (definition : String) :
    g.generate directories s policy definition =
      g.answer directories g.resolvers s policy definition := rfl

/-- Policies are generated alike, and the chains go on answering as their resolvers
do. -/
theorem generateWith_alike {c c' : ResolverChain} (hc : c.AnswersFor directories resolvers)
    (hc' : c'.AnswersFor directories resolvers) (policy : Policy) (definition : String) :
    Outcome.Alike
      (fun r r' : GeneratedPolicy × ResolverChain => r.1 = r'.1 ∧
        r.2.AnswersFor directories resolvers ∧ r'.2.AnswersFor directories resolvers)
      (g.generateWith directories c s policy definition)
      (g.generateWith directories c' s policy definition) := by
  refine (Outcome.Alike.refl _).bind fun resources resources' hresources => ?_
  subst hresources
  refine (Outcome.Alike.refl _).bind fun d d' hd => ?_
  subst hd
  have hstart : Progress.Alike directories resolvers ⟨d, .empty, [], c⟩ ⟨d, .empty, [], c'⟩ :=
    ⟨rfl, rfl, rfl, hc, hc'⟩
  refine ((resolveKinds_alike hstart _ _).mapError _).bind fun q q' hq => ?_
  refine .ok ⟨?_, hq.chain, hq.chain'⟩
  simp only [hq.document, hq.packages, hq.issues]

/-- What a chain remembers changes no policy, and no error. -/
theorem answer_congr {c c' : ResolverChain} (hc : c.AnswersFor directories resolvers)
    (hc' : c'.AnswersFor directories resolvers) (s : Snapshot) (policy : Policy)
    (definition : String) :
    g.answer directories c s policy definition = g.answer directories c' s policy definition :=
  (generateWith_alike hc hc' policy definition).map_eq fun _ _ h => h.1

/-- A chain with which a policy was generated answers as before. -/
theorem answersFor_of_generateWith {c c' : ResolverChain} {policy : Policy} {definition : String}
    {generated : GeneratedPolicy} (hc : c.AnswersFor directories resolvers)
    (h : g.generateWith directories c s policy definition = .ok (generated, c')) :
    c'.AnswersFor directories resolvers := by
  have halike := generateWith_alike (g := g) (s := s) hc hc policy definition
  rw [h] at halike
  cases halike with
  | ok hrelated => exact hrelated.2.1

/-! ## The policies of a snapshot -/

/-- The chain of a configured generator remembers nothing yet. -/
theorem reached_of_ofConfig {read : FileReader} {config : GeneratorConfig}
    (h : ofConfig read config = .ok g) (directories : Directories) :
    g.resolvers.Reached directories := by
  have hconfigured (table : ComponentTable) :
      (ResolverChain.empty.push (.configured table)).Reached directories := .push .empty _
  cases hprobe : config.probe with
  | none =>
      simp only [ofConfig, hprobe] at h
      split at h
      · rw [← Except.ok.inj h]
        exact hconfigured _
      · obtain ⟨table, -, h⟩ := Outcome.of_bind_eq_ok h
        rw [← Except.ok.inj h]
        exact hconfigured table
  | some probe =>
      simp only [ofConfig, hprobe] at h
      split at h
      · rw [← Except.ok.inj h]
        exact (hconfigured _).push _
      · obtain ⟨table, -, h⟩ := Outcome.of_bind_eq_ok h
        rw [← Except.ok.inj h]
        exact (hconfigured table).push _

/-- Policies that are generated one after the other are generated as each of them is by
itself. -/
theorem forall_of_generateAll {c : ResolverChain} {policies : List Policy}
    {generated : List GeneratedPolicy} (hc : c.AnswersFor directories resolvers)
    (hg : g.resolvers.AnswersFor directories resolvers)
    (h : g.generateAll directories s c policies = .ok generated) :
    List.Forall₂ (fun p r => ∃ definition, s.definition? p.name = some definition ∧
      g.generate directories s p definition = .ok r) policies generated := by
  induction policies generalizing c generated with
  | nil =>
      rw [← Except.ok.inj h]
      exact .nil
  | cons p policies ih =>
      rw [generateAll] at h
      split at h
      · next definition hdefinition =>
        rw [Outcome.ok_bind] at h
        obtain ⟨⟨r, c'⟩, hfirst, h⟩ := Outcome.of_bind_eq_ok h
        obtain ⟨others, hothers, h⟩ := Outcome.of_bind_eq_ok h
        rw [← Except.ok.inj h]
        refine .cons ⟨definition, hdefinition, ?_⟩
          (ih (answersFor_of_generateWith hc hfirst) hothers)
        rw [generate_eq_answer, answer_congr hg hc, answer, hfirst]
        rfl
      · cases h

/-- A snapshot is generated only if it is consistent, and then each policy is generated as
it is by itself. -/
theorem of_generateSnapshot_eq_ok {generated : List GeneratedPolicy}
    (hchain : g.resolvers.Truthful directories)
    (h : g.generateSnapshot directories s = .ok generated) :
    s.checkConsistency = .ok () ∧
      List.Forall₂ (fun p r => ∃ definition, s.definition? p.name = some definition ∧
        g.generate directories s p definition = .ok r) s.policies generated := by
  obtain ⟨_, hconsistent, h⟩ := Outcome.of_bind_eq_ok h
  have hanswers : g.resolvers.AnswersFor directories g.resolvers.resolvers := ⟨rfl, hchain⟩
  exact ⟨Outcome.of_mapError_eq_ok hconsistent, forall_of_generateAll hanswers hanswers h⟩

/-! ## Other chains -/

/-- The generator with another chain of resolvers. -/
def withChain (g : Generator) (c : ResolverChain) : Generator :=
  { g with resolvers := c }

theorem resolveKind_withChain (g : Generator) (c : ResolverChain) (m : Marker) (steps : Nat)
    (p : Progress) :
    (g.withChain c).resolveKind directories s policy m steps p =
      g.resolveKind directories s policy m steps p := by
  induction steps generalizing p with
  | zero => rfl
  | succ steps ih =>
      simp only [resolveKind, ih]
      rfl

theorem resolveKinds_withChain (g : Generator) (c : ResolverChain) (steps : Nat)
    (ms : List Marker) (p : Progress) :
    (g.withChain c).resolveKinds directories s policy steps ms p =
      g.resolveKinds directories s policy steps ms p := by
  induction ms generalizing p with
  | nil => rfl
  | cons m ms ih => simp only [resolveKinds, resolveKind_withChain, ih]

/-- Policies are generated with the chain that is given, not with that of the generator. -/
theorem generateAll_withChain (g : Generator) (c c' : ResolverChain) (policies : List Policy) :
    (g.withChain c).generateAll directories s c' policies =
      g.generateAll directories s c' policies := by
  induction policies generalizing c' with
  | nil => rfl
  | cons p policies ih =>
      simp only [generateAll, generateWith, resolveKinds_withChain, ih]
      rfl

/-- What a chain remembers changes nothing of the policies that follow one another. -/
theorem generateAll_alike {c c' : ResolverChain} (hc : c.AnswersFor directories resolvers)
    (hc' : c'.AnswersFor directories resolvers) (policies : List Policy) :
    Outcome.Alike Eq (g.generateAll directories s c policies)
      (g.generateAll directories s c' policies) := by
  induction policies generalizing c c' with
  | nil => exact .refl _
  | cons p policies ih =>
      rw [generateAll, generateAll]
      split
      · next definition _ =>
        rw [Outcome.ok_bind, Outcome.ok_bind]
        refine (generateWith_alike hc hc' p definition).bind fun r r' hr => ?_
        obtain ⟨hgenerated, hchain, hchain'⟩ := hr
        refine (ih hchain hchain').bind fun others others' hothers => ?_
        rw [hgenerated, hothers]
        exact .refl _
      · exact .error _

/-- A snapshot is generated alike by generators whose chains differ only in what they
remember. -/
theorem generateSnapshot_withChain {c : ResolverChain} (hg : g.resolvers.Truthful directories)
    (hc : c.AnswersFor directories g.resolvers.resolvers) (s : Snapshot) :
    (g.withChain c).generateSnapshot directories s = g.generateSnapshot directories s := by
  refine Outcome.bind_congr fun _ _ => ?_
  rw [generateAll_withChain]
  exact (generateAll_alike hc ⟨rfl, hg⟩ s.policies).eq

end Generator

end RouteCompiler
