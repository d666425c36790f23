import RouteCompiler.Files.Access
import RouteCompiler.Proofs.Files.Changes
import RouteCompiler.Proofs.Files.Components
import RouteCompiler.Proofs.Files.Runs

/-!
# What is asked of files

A computation asks for operations on files, and what they do is up to whoever answers.  This
module runs a computation with a record of what it asks for.  Leaving the record out gives back the
run without one, and the operations in it are all that happens to the state.  So what a computation
may ask for says what it may change, whatever the files are.

Main definitions:

- `FileOperation`: what can be asked for.
- `Recorded`: a state with the operations that were asked for.
- `Records`: a computation is another one with a record, and asks for operations of a kind only.
- `requests`: the operations that a computation asks for.

Main results:

- Theorems `Records.bind`, `Records.forM`: sequences of steps ask for what their steps ask for.
- Theorem `confined_perform`: operations whose paths lead inside of a directory change nothing
  elsewhere, but for directories that are made above it.
-/

namespace RouteCompiler

/-- An operation on files, with what it is asked to do. -/
inductive FileOperation where
  | readText (path : String)
  | writeText (path text : String)
  | listNames (path : String)
  | pathExists (path : String)
  | isDirectory (path : String)
  | makeDirectories (path : String)
  | removeTree (path : String)
  | rename (path newPath : String)
  deriving DecidableEq, Repr

namespace FileOperation

/-- The paths that an operation is asked to use. -/
def paths : FileOperation → List String
  | readText path | writeText path _ | listNames path | pathExists path | isDirectory path
  | makeDirectories path | removeTree path => [path]
  | rename path newPath => [path, newPath]

variable {σ : Type} [Files (StateM σ)]

/-- The state that an operation leaves. -/
def perform (s : σ) : FileOperation → σ
  | readText path => ((Files.readText path : StateM σ _).run s).2
  | writeText path text => ((Files.writeText path text : StateM σ _).run s).2
  | listNames path => ((Files.listNames path : StateM σ _).run s).2
  | pathExists path => ((Files.pathExists path : StateM σ _).run s).2
  | isDirectory path => ((Files.isDirectory path : StateM σ _).run s).2
  | makeDirectories path => ((Files.makeDirectories path : StateM σ _).run s).2
  | removeTree path => ((Files.removeTree path : StateM σ _).run s).2
  | rename path newPath => ((Files.rename path newPath : StateM σ _).run s).2

/-- The state that operations leave, one after another. -/
def performAll (s : σ) (operations : List FileOperation) : σ :=
  operations.foldl perform s

theorem performAll_append (s : σ) (first second : List FileOperation) :
    performAll s (first ++ second) = performAll (performAll s first) second :=
  List.foldl_append

end FileOperation

/-- A state with the operations that were asked for. -/
structure Recorded (σ : Type) where
  state : σ
  operations : List FileOperation

/-- Do what is asked for, and note it. -/
def record {σ α : Type} (operation : FileOperation) (action : StateM σ α) :
    StateM (Recorded σ) α := fun r =>
  ((action.run r.state).1, ⟨(action.run r.state).2, r.operations ++ [operation]⟩)

instance {σ : Type} [Files (StateM σ)] : Files (StateM (Recorded σ)) where
  readText path := record (.readText path) (Files.readText path)
  writeText path text := record (.writeText path text) (Files.writeText path text)
  listNames path := record (.listNames path) (Files.listNames path)
  pathExists path := record (.pathExists path) (Files.pathExists path)
  isDirectory path := record (.isDirectory path) (Files.isDirectory path)
  makeDirectories path := record (.makeDirectories path) (Files.makeDirectories path)
  removeTree path := record (.removeTree path) (Files.removeTree path)
  rename path newPath := record (.rename path newPath) (Files.rename path newPath)

/-- The operations that a computation asks for. -/
def requests {σ ε α : Type} (x : ExceptT ε (StateM (Recorded σ)) α) (s : σ) :
    List FileOperation :=
  (runIn ⟨s, []⟩ x).2.operations

/-! ## Records of runs -/

section Records

variable {σ ε α β : Type} [Files (StateM σ)] {P : FileOperation → Prop}
  {recorded : ExceptT ε (StateM (Recorded σ)) α} {plain : ExceptT ε (StateM σ) α}

/-- A computation with a record does what it does without, it notes operations of a kind only, and
these make of the state what the computation makes of it. -/
def Records (P : FileOperation → Prop) (recorded : ExceptT ε (StateM (Recorded σ)) α)
    (plain : ExceptT ε (StateM σ) α) : Prop :=
  ∀ s before, ∃ operations,
    runIn ⟨s, before⟩ recorded =
        ((runIn s plain).1, ⟨(runIn s plain).2, before ++ operations⟩) ∧
      (runIn s plain).2 = FileOperation.performAll s operations ∧ ∀ o ∈ operations, P o

namespace Records

/-- What is known already needs no operation. -/
theorem mk (r : Except ε α) : Records (σ := σ) P (ExceptT.mk (pure r)) (ExceptT.mk (pure r)) :=
  fun _ _ => ⟨[], by simp, rfl, nofun⟩

theorem pure (a : α) : Records (σ := σ) (ε := ε) P (Pure.pure a) (Pure.pure a) :=
  mk (.ok a)

theorem mono {Q : FileOperation → Prop} (h : Records P recorded plain) (hPQ : ∀ o, P o → Q o) :
    Records Q recorded plain := by
  intro s before
  obtain ⟨operations, hrun, hstate, hkind⟩ := h s before
  exact ⟨operations, hrun, hstate, fun o ho => hPQ o (hkind o ho)⟩

theorem bind {f : α → ExceptT ε (StateM (Recorded σ)) β} {g : α → ExceptT ε (StateM σ) β}
    (h : Records P recorded plain) (hf : ∀ a, Records P (f a) (g a)) :
    Records P (recorded >>= f) (plain >>= g) := by
  intro s before
  obtain ⟨first, hrun, hstate, hfirst⟩ := h s before
  rw [runIn_bind, runIn_bind, hrun]
  cases hplain : runIn s plain with
  | mk r s₁ =>
      rw [hplain] at hstate
      obtain rfl : s₁ = FileOperation.performAll s first := hstate
      cases r with
      | error e => exact ⟨first, rfl, rfl, hfirst⟩
      | ok a =>
          obtain ⟨second, hrun', hstate', hsecond⟩ := hf a _ (before ++ first)
          refine ⟨first ++ second, ?_, ?_, List.forall_mem_append.mpr ⟨hfirst, hsecond⟩⟩
          · dsimp only
            rw [hrun', List.append_assoc]
          · rw [FileOperation.performAll_append, ← hstate']

theorem forM {f : α → ExceptT ε (StateM (Recorded σ)) PUnit} {g : α → ExceptT ε (StateM σ) PUnit}
    {l : List α} (h : ∀ a ∈ l, Records P (f a) (g a)) : Records P (l.forM f) (l.forM g) := by
  induction l with
  | nil => exact pure ()
  | cons a l ih =>
      exact bind (h a List.mem_cons_self) fun _ =>
        ih fun b hb => h b (List.mem_cons_of_mem a hb)

/-- An operation that is asked for is noted. -/
theorem operation {o : FileOperation} {action : StateM σ α} (ho : P o)
    (haction : ∀ s, (action.run s).2 = o.perform s) :
    Records P (liftM (record o action) : ExceptT ε (StateM (Recorded σ)) α)
      (liftM action : ExceptT ε (StateM σ) α) :=
  fun s _ => ⟨[o], rfl, haction s, by simpa using ho⟩

/-- What the first of two steps asks for is asked for first. -/
theorem requests_bind {f : α → ExceptT ε (StateM (Recorded σ)) β}
    {g : α → ExceptT ε (StateM σ) β} (h : Records P recorded plain)
    (hf : ∀ a, Records P (f a) (g a)) (s : σ) :
    requests recorded s <+: requests (recorded >>= f) s := by
  obtain ⟨first, hrun, -, -⟩ := h s []
  rw [requests, requests, runIn_bind, hrun]
  cases hplain : runIn s plain with
  | mk r s₁ =>
      cases r with
      | error e => exact List.prefix_rfl
      | ok a =>
          obtain ⟨second, hrun', -, -⟩ := hf a s₁ first
          dsimp only [List.nil_append]
          rw [hrun']
          exact List.prefix_append ..

/-- The record does not change what is computed, and holds all that happens to the state. -/
theorem run_eq (h : Records P recorded plain) (s : σ) :
    runIn ⟨s, []⟩ recorded =
        ((runIn s plain).1, ⟨(runIn s plain).2, requests recorded s⟩) ∧
      (runIn s plain).2 = FileOperation.performAll s (requests recorded s) ∧
      ∀ o ∈ requests recorded s, P o := by
  obtain ⟨operations, hrun, hstate, hkind⟩ := h s []
  have hrequests : requests recorded s = operations := by
    rw [requests, hrun, List.nil_append]
  rw [hrequests]
  exact ⟨hrun, hstate, hkind⟩

end Records

end Records

/-! ## What operations change -/

namespace FileSystem

open RouteCompiler.Path

variable {fs fs' : FileSystem} {base path above : String}

/-- An operation is asked to use paths inside of a directory only. -/
def UsesInside (base : String) (o : FileOperation) : Prop :=
  ∀ path ∈ o.paths, Inside base path

/-- The places inside of a directory. -/
def Below (fs : FileSystem) (base : String) (p : Place) : Prop :=
  ∃ first rest, p = fs.placeOf base ++ first :: rest

/-- The places of a directory and of those that its path leads through. -/
def OnWay (fs : FileSystem) (base : String) (p : Place) : Prop :=
  ∃ above, components above <+: components base ∧ p = fs.placeOf above

/-- What is inside of a directory is at a place inside of it. -/
theorem below_of_inside (h : Inside base path) : fs.Below base (fs.placeOf path) := by
  obtain ⟨first, rest, hcomponents⟩ := h
  have hstart : fs.start path = fs.start base := start_of_extends (extends_of_components hcomponents)
  obtain ⟨-, others, hsegments, hothers⟩ := segments_of_components hcomponents
  obtain ⟨hdots, hnames⟩ := names_of_components hothers
  have hleads : others.filter (fun piece => !isTrivial piece) = others :=
    List.filter_eq_self.mpr fun piece hpiece => by
      simp [(mem_segments.mp (hsegments ▸ List.mem_append_right _ hpiece)).2]
  refine ⟨first, rest, ?_⟩
  rw [placeOf_eq_follow_segments, placeOf_eq_follow_segments, hsegments, hstart, follow_append,
    follow_of_descends hdots, hleads, hnames]

theorem Below.further {place p : Place} (h : fs.Below base place) (hp : place <+: p) :
    fs.Below base p := by
  obtain ⟨first, rest, rfl⟩ := h
  obtain ⟨more, rfl⟩ := hp
  exact ⟨first, rest ++ more, by simp⟩

/-- Directories are made inside of a directory, or where its path leads through. -/
theorem confined_makeDirectories_inside (h : Inside base path) :
    Confined (fs.Below base) (fs.OnWay base) fs (fs.makeDirectories path).2 := by
  refine makeDirectories_induct
    (R := fun fs₁ fs₂ => Confined (fs.Below base) (fs.OnWay base) fs fs₁ →
      Confined (fs.Below base) (fs.OnWay base) fs fs₂)
    (P := fun q => components q <+: components path)
    (fun _ => id) (fun _ _ _ h h' => h' ∘ h) (fun fs₁ fs₂ q hq hmade hgrown => ?_)
    (fun q above hq habove => ?_) List.prefix_rfl .refl
  · obtain ⟨-, hplace, -, hnone, rfl⟩ := of_makeDirectory hmade
    have hwhere : fs.OnWay base (fs.placeOf q) ∨ fs.Below base (fs.placeOf q) :=
      (h.of_above hq).imp (fun hway => ⟨q, hway, rfl⟩) below_of_inside
    rw [placeOf_congr hgrown.workingDirectory_eq] at hplace hnone ⊢
    refine hgrown.trans ⟨rfl, fun p hp => ?_⟩
    rw [node?_put hplace]
    split
    · next heq =>
      subst heq
      exact .inr ⟨hwhere.resolve_right hp, hnone, rfl⟩
    · exact .inl rfl
  · rw [components_parent habove]
    exact (List.dropLast_prefix _).trans hq

/-- Operations whose paths lead inside of a directory change nothing elsewhere, but for directories
that are made where its path leads through. -/
theorem confined_perform {o : FileOperation} (h : UsesInside base o) :
    Confined (fs.Below base) (fs.OnWay base) fs (o.perform fs) := by
  have hbelow (path : String) (hpath : path ∈ o.paths) (p : Place) (hp : fs.placeOf path <+: p) :
      fs.Below base p :=
    (below_of_inside (h path hpath)).further hp
  cases o with
  | readText path | listNames path | pathExists path | isDirectory path => exact .refl
  | writeText path text =>
      refine confined_write.mono (fun p hp => ?_) fun _ hfalse => hfalse.elim
      exact hbelow path List.mem_cons_self p (hp ▸ List.prefix_rfl)
  | makeDirectories path => exact confined_makeDirectories_inside (h path List.mem_cons_self)
  | removeTree path =>
      exact (confined_removeTree fs path).mono (hbelow path List.mem_cons_self)
        fun _ hfalse => hfalse.elim
  | rename path newPath =>
      have hboth (p : Place) (hp : fs.placeOf path <+: p ∨ fs.placeOf newPath <+: p) :
          fs.Below base p :=
        hp.elim (hbelow path List.mem_cons_self p)
          (hbelow newPath (List.mem_cons_of_mem _ List.mem_cons_self) p)
      change Confined _ _ fs (fs.settle (fs.rename path newPath)).2
      cases hrename : fs.rename path newPath with
      | error fault => exact .refl
      | ok fs' => exact (confined_rename hrename).mono hboth fun _ hfalse => hfalse.elim

/-- So it is with any number of them. -/
theorem confined_performAll {operations : List FileOperation}
    (h : ∀ o ∈ operations, UsesInside base o) :
    Confined (fs.Below base) (fs.OnWay base) fs (FileOperation.performAll fs operations) := by
  induction operations using List.reverseRecOn with
  | nil => exact .refl
  | append_singleton operations o ih =>
      obtain ⟨hbefore, hlast⟩ := List.forall_mem_append.mp h
      have hgrown := ih hbefore
      rw [FileOperation.performAll_append]
      have hstep : Confined _ _ (FileOperation.performAll fs operations)
          (o.perform (FileOperation.performAll fs operations)) :=
        confined_perform (hlast o List.mem_cons_self)
      refine hgrown.trans (hstep.mono (fun p => ?_) fun p => ?_)
      · rintro ⟨first, rest, rfl⟩
        exact ⟨first, rest, by rw [placeOf_congr hgrown.workingDirectory_eq]⟩
      · rintro ⟨above, habove, rfl⟩
        exact .inr ⟨above, habove, by rw [placeOf_congr hgrown.workingDirectory_eq]⟩

end FileSystem

end RouteCompiler
