import RouteCompiler.Proofs.Generation.Step

/-!
# Remarks on what is generated

Issues come from two sources.  Generation that goes well gives advice only; an error, of
whatever kind, makes one issue that says so.

Main results:

- Theorems `ModelError.severity_toIssue` and `GenerationError.severity_toIssue`: the issue
  that an error makes is an error.
- Theorem `Generator.of_generateSnapshot`: what is generated for a snapshot gives advice
  only, and there is something for each of its policies.
-/

namespace RouteCompiler

open RouteCompiler.Route

/-- Whether issues are advice only. -/
def Issue.AreAdvice (issues : List Issue) : Prop :=
  ∀ i ∈ issues, i.severity = .warning

theorem Issue.AreAdvice.addIssue {issues : List Issue} {issue : Issue} (h : AreAdvice issues)
    (hissue : issue.severity = .warning) : AreAdvice (Generator.addIssue issues issue) := by
  rw [Generator.addIssue]
  split
  · exact h
  · intro i hi
    rcases List.mem_append.mp hi with hi | hi
    · exact h i hi
    · rw [List.mem_singleton.mp hi]
      exact hissue

theorem ModelError.severity_toIssue (e : ModelError) : e.toIssue.severity = .error := by
  cases e <;> rfl

theorem GenerationError.severity_toIssue (e : GenerationError) : e.toIssue.severity = .error := by
  cases e with
  | model e => exact e.severity_toIssue
  | malformed | missingUri | unknownEndpoint | invalidMarker | invalidTemplate | invalidProperty
  | invalidConfig | file => rfl

namespace Generator

variable {g : Generator} {directories : Directories} {s : Snapshot} {policy : String}
  {p p' : Progress}

/-- Applying characteristics gives advice only. -/
theorem isAdvice_of_applyAll {registry : Registry} {e : Endpoint} {element : NodeId}
    {cs : List Characteristic} (h : applyAll registry s policy e element p cs = .ok p')
    (hp : Issue.AreAdvice p.issues) : Issue.AreAdvice p'.issues := by
  refine of_applyAll (I := fun q => Issue.AreAdvice q.issues) ?_ h hp
  intro q q' c hq hcharacteristic
  rcases applyCharacteristic_eq_ok hcharacteristic with ⟨-, rfl⟩ | ⟨processor, d, -, -, rfl⟩
  · exact hq.addIssue rfl
  · exact hq

/-- Resolving a reference gives advice only. -/
theorem isAdvice_of_step {m : Marker} (hp : Issue.AreAdvice p.issues)
    (h : Step g directories s policy m p p') : Issue.AreAdvice p'.issues := by
  obtain ⟨x, uri, -, hresolve⟩ := h
  obtain ⟨name, e, p₁, -, -, -, happly, rfl⟩ := resolveElement_eq_ok hresolve
  have hadvice : Issue.AreAdvice p₁.issues := isAdvice_of_applyAll happly hp
  exact hadvice

/-- What is generated for a policy gives advice only. -/
theorem isAdvice_of_generateWith {resolvers resolvers' : ResolverChain} {policy : Policy}
    {definition : String} {generated : GeneratedPolicy}
    (h : g.generateWith directories resolvers s policy definition = .ok (generated, resolvers')) :
    Issue.AreAdvice generated.issues := by
  obtain ⟨resources, d, final, -, -, hfinal, rfl, -⟩ := exists_of_generateWith h
  exact of_resolveKinds (I := fun p => Issue.AreAdvice p.issues)
    (fun _ _ _ _ => isAdvice_of_step) hfinal fun i hi => by cases hi

/-- What is generated for policies gives advice only, and names them in order. -/
theorem of_generateAll_eq_ok {c : ResolverChain} {policies : List Policy}
    {generated : List GeneratedPolicy}
    (h : g.generateAll directories s c policies = .ok generated) :
    (∀ r ∈ generated, Issue.AreAdvice r.issues) ∧
      generated.map GeneratedPolicy.policy = policies.map Policy.name := by
  induction policies generalizing c generated with
  | nil =>
      rw [← Except.ok.inj h]
      exact ⟨fun r hr => (by cases hr), rfl⟩
  | cons p policies ih =>
      rw [generateAll] at h
      split at h
      case h_2 => cases h
      rw [Outcome.ok_bind] at h
      obtain ⟨⟨r, c'⟩, hfirst, h⟩ := Outcome.of_bind_eq_ok h
      obtain ⟨others, hothers, h⟩ := Outcome.of_bind_eq_ok h
      obtain ⟨hadvice, hnames⟩ := ih hothers
      have hname : r.policy = p.name := by
        obtain ⟨_, _, _, -, -, -, rfl, -⟩ := exists_of_generateWith hfirst
        rfl
      rw [← Except.ok.inj h]
      refine ⟨List.forall_mem_cons.mpr ⟨isAdvice_of_generateWith hfirst, hadvice⟩, ?_⟩
      rw [List.map_cons, List.map_cons, hname, hnames]

/-- What is generated for a snapshot gives advice only, and names its policies in order. -/
theorem of_generateSnapshot {generated : List GeneratedPolicy}
    (h : g.generateSnapshot directories s = .ok generated) :
    (∀ r ∈ generated, Issue.AreAdvice r.issues) ∧
      generated.map GeneratedPolicy.policy = s.policies.map Policy.name := by
  obtain ⟨_, -, h⟩ := Outcome.of_bind_eq_ok h
  exact of_generateAll_eq_ok h

end Generator

end RouteCompiler
