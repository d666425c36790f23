import RouteCompiler.Generation.Components

/-!
# What a chain of resolvers remembers

A chain keeps the answers that it gave.  As long as its resolvers go on saying the same, what it
remembers is what they say, so remembering changes no answer.  A resolver that is put at the end
may know what nobody knew before; the chain forgets its answers then.

Main definitions:

- `ResolverChain.Reached`: the chains that come about by pushing and asking.
- `ResolverChain.Truthful`: a chain that remembers nothing false.
- `ResolverChain.Call`: what can be done with a chain.
- `ResolverChain.FirstAnswer`: what the first resolver says that supports a component.

Main results:

- Theorem `Reached.truthful`: every chain that comes about remembers nothing false.
- Theorem `Truthful.packagesFor_fst`: such a chain answers as its resolvers do.
- Theorem `Truthful.after`: a call makes a chain remember nothing false.
- Theorem `answers_first`: after any calls, a chain answers as its first supporting resolver.
-/

namespace RouteCompiler.ResolverChain

variable {directories : Directories} {c : ResolverChain}

/-- The chains that come about by putting resolvers at the end and asking for components,
while the directories stay the same. -/
inductive Reached (directories : Directories) : ResolverChain → Prop
  | empty : Reached directories .empty
  | push {c : ResolverChain} (h : Reached directories c) (r : Resolver) :
      Reached directories (c.push r)
  | asked {c : ResolverChain} (h : Reached directories c) (component : String) :
      Reached directories (c.packagesFor directories component).2

/-- Every answer that is remembered is the one that the resolvers give. -/
def Truthful (directories : Directories) (c : ResolverChain) : Prop :=
  ∀ component packages, c.answers.find? component = some packages →
    packages = c.ask directories component

/-- Where nothing is remembered, nothing false is. -/
theorem truthful_of_resolvers (resolvers : List Resolver) :
    Truthful directories ⟨resolvers, .empty⟩ := by
  intro component packages hpackages
  cases hpackages

/-- Asking changes no resolver. -/
theorem resolvers_packagesFor (c : ResolverChain) (component : String) :
    (c.packagesFor directories component).2.resolvers = c.resolvers := by
  unfold packagesFor
  split <;> rfl

/-- Chains with the same resolvers are asked alike. -/
theorem ask_congr {c' : ResolverChain} (h : c'.resolvers = c.resolvers) :
    c'.ask directories = c.ask directories := by
  funext component
  rw [ask, ask, h]

/-- A chain that remembers nothing false answers as its resolvers do. -/
theorem Truthful.packagesFor_fst (h : c.Truthful directories) (component : String) :
    (c.packagesFor directories component).1 = c.ask directories component := by
  unfold packagesFor
  split
  · next packages hpackages => exact h component packages hpackages
  · rfl

/-- Asking makes a chain remember nothing false. -/
theorem Truthful.packagesFor_snd (h : c.Truthful directories) (component : String) :
    (c.packagesFor directories component).2.Truthful directories := by
  intro other packages hpackages
  rw [ask_congr (c.resolvers_packagesFor component)]
  unfold packagesFor at hpackages
  split at hpackages
  · exact h other packages hpackages
  · by_cases hother : other = component
    · subst hother
      rw [SortedMap.find_insert_self, Option.some.injEq] at hpackages
      exact hpackages.symm
    · rw [SortedMap.find_insert_of_ne _ _ hother] at hpackages
      exact h other packages hpackages

/-- Every chain that comes about remembers nothing false. -/
theorem Reached.truthful (h : c.Reached directories) : c.Truthful directories := by
  induction h with
  | empty => exact truthful_of_resolvers []
  | push h r ih => exact truthful_of_resolvers _
  | asked h component ih => exact ih.packagesFor_snd component

/-! ## Any sequence of calls -/

/-- What can be done with a chain: put a resolver at the end of it, or ask for packages. -/
inductive Call where
  | push (r : Resolver)
  | packagesFor (directories : Directories) (component : String)
  | packagesForUri (directories : Directories) (uri : String)

namespace Call

/-- The resolver that a call puts at the end. -/
def pushed? : Call → Option Resolver
  | push r => some r
  | packagesFor _ _ => none
  | packagesForUri _ _ => none

/-- The directories that there are when a call asks. -/
def directories? : Call → Option Directories
  | push _ => none
  | packagesFor directories _ => some directories
  | packagesForUri directories _ => some directories

/-- The resolvers that calls put into a chain, in order. -/
def pushed (calls : List Call) : List Resolver :=
  calls.filterMap pushed?

theorem pushed_cons (call : Call) (calls : List Call) :
    pushed (call :: calls) = call.pushed?.toList ++ pushed calls := by
  rw [pushed, pushed, List.filterMap_cons]
  cases call.pushed? <;> rfl

end Call

/-- The chain after a call. -/
def after (c : ResolverChain) : Call → ResolverChain
  | .push r => c.push r
  | .packagesFor directories component => (c.packagesFor directories component).2
  | .packagesForUri directories uri => (c.packagesForUri directories uri).2

/-- The chain after calls. -/
def afterAll (c : ResolverChain) (calls : List Call) : ResolverChain :=
  calls.foldl after c

theorem resolvers_after (c : ResolverChain) (call : Call) :
    (c.after call).resolvers = c.resolvers ++ call.pushed?.toList := by
  cases call with
  | push r => rfl
  | packagesFor d component =>
      rw [after, resolvers_packagesFor]
      exact (List.append_nil _).symm
  | packagesForUri d uri =>
      rw [after, packagesForUri, resolvers_packagesFor]
      exact (List.append_nil _).symm

/-- Every resolver that is pushed stays, in the order of the pushes. -/
theorem resolvers_afterAll (c : ResolverChain) (calls : List Call) :
    (c.afterAll calls).resolvers = c.resolvers ++ Call.pushed calls := by
  induction calls generalizing c with
  | nil => exact (List.append_nil _).symm
  | cons call calls ih =>
      rw [afterAll, List.foldl_cons, ← afterAll, ih, resolvers_after, List.append_assoc,
        Call.pushed_cons]

end ResolverChain

/-- A resolver says the same whichever of two sets of directories there is.  One that looks into
no directory does so for any two. -/
def Resolver.AgreesOn (r : Resolver) (d d' : Directories) : Prop :=
  r.supports d = r.supports d' ∧ r.packages d = r.packages d'

namespace ResolverChain

variable {directories d : Directories} {c : ResolverChain}

/-- A chain says what its resolvers say. -/
theorem ask_eq_of_agreesOn (h : ∀ r ∈ c.resolvers, r.AgreesOn d directories) :
    c.ask d = c.ask directories := by
  obtain ⟨resolvers, answers⟩ := c
  funext component
  induction resolvers with
  | nil => rfl
  | cons r resolvers ih =>
      obtain ⟨⟨hsupports, hpackages⟩, hrest⟩ := List.forall_mem_cons.mp h
      have hlater := ih hrest
      simp only [ask, List.find?_cons, hsupports] at hlater ⊢
      cases r.supports directories component with
      | true => exact congrFun hpackages component
      | false => exact hlater

/-- Asking with directories on which the resolvers agree is asking. -/
theorem packagesFor_eq_of_agreesOn (h : ∀ r ∈ c.resolvers, r.AgreesOn d directories) :
    c.packagesFor d = c.packagesFor directories := by
  funext component
  rw [packagesFor, packagesFor, ask_eq_of_agreesOn h]

/-- A call makes a chain remember nothing false. -/
theorem Truthful.after (h : c.Truthful directories) {call : Call}
    (hagree : ∀ r ∈ c.resolvers, ∀ d ∈ call.directories?, r.AgreesOn d directories) :
    (c.after call).Truthful directories := by
  cases call with
  | push r => exact truthful_of_resolvers _
  | packagesFor d component =>
      rw [ResolverChain.after, packagesFor_eq_of_agreesOn fun r hr => hagree r hr d rfl]
      exact h.packagesFor_snd component
  | packagesForUri d uri =>
      rw [ResolverChain.after, packagesForUri,
        packagesFor_eq_of_agreesOn fun r hr => hagree r hr d rfl]
      exact h.packagesFor_snd (Uri.component uri)

/-- What the first of some resolvers says that supports a component; nothing is needed if none
does. -/
inductive FirstAnswer (directories : Directories) (component : String) :
    List Resolver → Packages → Prop
  | none : FirstAnswer directories component [] .empty
  | here {r : Resolver} {resolvers : List Resolver}
      (h : r.supports directories component = true) :
      FirstAnswer directories component (r :: resolvers) (r.packages directories component)
  | later {r : Resolver} {resolvers : List Resolver} {packages : Packages}
      (h : r.supports directories component = false)
      (hlater : FirstAnswer directories component resolvers packages) :
      FirstAnswer directories component (r :: resolvers) packages

/-- A chain says what the first of its resolvers says. -/
theorem firstAnswer_iff {component : String} {packages : Packages} :
    FirstAnswer directories component c.resolvers packages ↔
      c.ask directories component = packages := by
  obtain ⟨resolvers, answers⟩ := c
  induction resolvers generalizing packages with
  | nil =>
      constructor
      · intro h
        cases h
        rfl
      · rintro rfl
        exact .none
  | cons r resolvers ih =>
      simp only [ask, List.find?_cons] at ih ⊢
      cases hsupports : r.supports directories component with
      | true =>
          constructor
          · intro h
            cases h with
            | here _ => rfl
            | later hnot _ =>
                rw [hsupports] at hnot
                cases hnot
          · rintro rfl
            exact .here hsupports
      | false =>
          constructor
          · intro h
            cases h with
            | here hsome =>
                rw [hsupports] at hsome
                cases hsome
            | later _ hlater => exact ih.mp hlater
          · intro h
            exact .later hsupports (ih.mpr h)

/-- Calls make a chain remember nothing false. -/
theorem Truthful.afterAll {calls : List Call} (h : c.Truthful directories)
    (hagree : ∀ r ∈ c.resolvers ++ Call.pushed calls, ∀ d ∈ calls.filterMap Call.directories?,
      r.AgreesOn d directories) : (c.afterAll calls).Truthful directories := by
  induction calls generalizing c with
  | nil => exact h
  | cons call calls ih =>
      have hnow : ∀ r ∈ c.resolvers, ∀ d ∈ call.directories?, r.AgreesOn d directories := by
        intro r hr d hd
        exact hagree r (List.mem_append_left _ hr) d
          (List.mem_filterMap.mpr ⟨call, List.mem_cons_self, hd⟩)
      refine ih (h.after hnow) fun r hr d hd => ?_
      obtain ⟨later, hlater, hd⟩ := List.mem_filterMap.mp hd
      rw [resolvers_after, List.append_assoc, ← Call.pushed_cons] at hr
      exact hagree r hr d (List.mem_filterMap.mpr ⟨later, List.mem_cons_of_mem call hlater, hd⟩)

/-- After any calls, a chain answers as an uncached one: with what the first of the resolvers
pushed so far says that supports the component, and with no packages if none does.  The
resolvers have to say the same at every question; those that depend on nothing but the component
do. -/
theorem answers_first {calls : List Call}
    (h : ∀ r ∈ Call.pushed calls, ∀ d ∈ calls.filterMap Call.directories?,
      r.AgreesOn d directories) :
    (∀ component packages,
      ((afterAll .empty calls).packagesFor directories component).1 = packages ↔
        FirstAnswer directories component (Call.pushed calls) packages) ∧
    ∀ uri packages,
      ((afterAll .empty calls).packagesForUri directories uri).1 = packages ↔
        FirstAnswer directories (Uri.component uri) (Call.pushed calls) packages := by
  have hresolvers : (afterAll .empty calls).resolvers = Call.pushed calls := by
    rw [resolvers_afterAll]
    exact List.nil_append _
  have htruthful : (afterAll .empty calls).Truthful directories :=
    Truthful.afterAll (truthful_of_resolvers []) h
  have hanswer : ∀ component packages,
      ((afterAll .empty calls).packagesFor directories component).1 = packages ↔
        FirstAnswer directories component (Call.pushed calls) packages := by
    intro component packages
    rw [htruthful.packagesFor_fst, ← hresolvers, firstAnswer_iff]
  exact ⟨hanswer, fun uri packages => hanswer (Uri.component uri) packages⟩

/-- The directory of the package that serves a component is missed, then a resolver that finds
it is pushed. -/
def probedCalls (directories : Directories) (probe : ProbeConfig) : List Call :=
  [.push (.configured .builtIn), .packagesFor directories "jetty",
    .packagesForUri directories "activemq:queue:q", .push (.probe probe)]

/-- A miss that was remembered is forgotten as soon as a resolver is pushed that knows the
component, and the first resolver goes on answering for its own. -/
theorem answers_first_probed :
    let probe : ProbeConfig := ⟨"/repo", "2.15.0"⟩
    let directories : Directories := (· == "/repo/org/apache/camel/camel-jetty/2.15.0")
    ((afterAll .empty (probedCalls directories probe)).packagesForUri directories
        "jetty:http://h").1 = .ofList [⟨"org.apache.camel", "camel-jetty", "2.15.0"⟩] ∧
      ((afterAll .empty (probedCalls directories probe)).packagesFor directories
        "activemq").1 = ComponentTable.builtIn.packagesOf "activemq" := by
  intro probe directories
  have hagree : ∀ r ∈ Call.pushed (probedCalls directories probe),
      ∀ d ∈ (probedCalls directories probe).filterMap Call.directories?,
        r.AgreesOn d directories := by
    intro r _ d hd
    have hpair : d ∈ [directories, directories] := hd
    obtain rfl : d = directories := by simpa using hpair
    exact ⟨rfl, rfl⟩
  obtain ⟨hcomponent, huri⟩ := answers_first hagree
  constructor
  · have hname : Uri.component "jetty:http://h" = "jetty" := by decide +kernel
    have hmiss : (Resolver.configured .builtIn).supports directories "jetty" = false := by
      decide +kernel
    have hfound : (Resolver.probe probe).supports directories "jetty" = true := by
      decide +kernel
    have hpackages : (Resolver.probe probe).packages directories "jetty" =
        .ofList [⟨"org.apache.camel", "camel-jetty", "2.15.0"⟩] := by
      decide +kernel
    rw [huri, hname, ← hpackages]
    exact .later hmiss (.here hfound)
  · have hknown : (Resolver.configured .builtIn).supports directories "activemq" = true := by
      decide +kernel
    exact (hcomponent _ _).mpr (.here hknown)

end RouteCompiler.ResolverChain
