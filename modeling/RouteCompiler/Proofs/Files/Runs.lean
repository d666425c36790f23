import RouteCompiler.Proofs.Outcome

/-!
# Computations that change a state and can fail

A computation that fails leaves the state in which it stopped.  This module takes apart what a
sequence of steps does, whether it succeeds or fails, and shows that what every step does to the
state the sequence does.

Main definitions:

- `runIn`: what a computation gives in a state, and the state that it leaves.
- `Keeps`: a computation leaves a state that is related to the one it began in.

Main results:

- Theorems `runIn_bind_eq_ok` and `runIn_bind_eq_error`: how two steps succeed, or fail.
- Theorems `Keeps.bind` and `Keeps.forM`: sequences of steps keep what their steps keep.
-/

namespace RouteCompiler

variable {σ ε α β : Type} {s s' : σ} {x : ExceptT ε (StateM σ) α} {f : α → ExceptT ε (StateM σ) β}

/-- What a computation gives in a state, with the state that it leaves. -/
def runIn (s : σ) (x : ExceptT ε (StateM σ) α) : Except ε α × σ :=
  x.run.run s

/-- What is known already is given without a change. -/
@[simp] theorem runIn_mk (r : Except ε α) :
    runIn s (ExceptT.mk (pure r) : ExceptT ε (StateM σ) α) = (r, s) := rfl

/-- What is known already is passed on. -/
theorem mk_ok_bind (a : α) : (ExceptT.mk (pure (.ok a)) >>= f : ExceptT ε (StateM σ) β) = f a :=
  rfl

/-- A computation that cannot fail. -/
@[simp] theorem runIn_lift (action : StateM σ α) :
    runIn s (liftM action : ExceptT ε (StateM σ) α) = (.ok (action.run s).1, (action.run s).2) :=
  rfl

theorem runIn_bind : runIn s (x >>= f) =
    match runIn s x with
    | (.ok a, s') => runIn s' (f a)
    | (.error e, s') => (.error e, s') := by
  change (match x s with | (r, s') => ExceptT.bindCont f r s') = match x s with
    | (.ok a, s') => runIn s' (f a)
    | (.error e, s') => (.error e, s')
  obtain ⟨_ | _, s'⟩ := x s <;> rfl

/-- A computation of which it is known that it succeeds gives something. -/
theorem exists_runIn_eq_ok (h : (runIn s x).1.isOk = true) : ∃ a s', runIn s x = (.ok a, s') := by
  obtain ⟨a, ha⟩ := Outcome.exists_of_isOk h
  exact ⟨a, (runIn s x).2, Prod.ext ha rfl⟩

/-- Two steps succeed if both do. -/
theorem runIn_bind_eq_ok {b : β} : runIn s (x >>= f) = (.ok b, s') ↔
    ∃ a s₁, runIn s x = (.ok a, s₁) ∧ runIn s₁ (f a) = (.ok b, s') := by
  rw [runIn_bind]
  constructor
  · intro h
    split at h
    · next a s₁ hrun => exact ⟨a, s₁, hrun, h⟩
    · cases h
  · rintro ⟨a, s₁, hrun, h⟩
    rw [hrun]
    exact h

/-- Two steps fail if the first does, or the second where the first succeeds. -/
theorem runIn_bind_eq_error {e : ε} : runIn s (x >>= f) = (.error e, s') ↔
    runIn s x = (.error e, s') ∨
      ∃ a s₁, runIn s x = (.ok a, s₁) ∧ runIn s₁ (f a) = (.error e, s') := by
  rw [runIn_bind]
  constructor
  · intro h
    split at h
    · next a s₁ hrun => exact .inr ⟨a, s₁, hrun, h⟩
    · next e' s₁ hrun =>
      obtain ⟨he, rfl⟩ := Prod.mk.inj h
      obtain rfl := Except.error.inj he
      exact .inl hrun
  · rintro (hrun | ⟨a, s₁, hrun, h⟩)
    · rw [hrun]
    · rw [hrun]
      exact h

/-- A computation leaves a state that is related to the one it began in. -/
def Keeps (R : σ → σ → Prop) (x : ExceptT ε (StateM σ) α) : Prop :=
  ∀ s, R s (runIn s x).2

namespace Keeps

variable {R : σ → σ → Prop}

theorem pure (hrefl : ∀ s, R s s) (a : α) : Keeps R (Pure.pure a : ExceptT ε (StateM σ) α) :=
  fun s => hrefl s

theorem bind (htrans : ∀ s s' s'', R s s' → R s' s'' → R s s'') (hx : Keeps R x)
    (hf : ∀ a, Keeps R (f a)) : Keeps R (x >>= f) := by
  intro s
  have hfirst := hx s
  rw [runIn_bind]
  cases hrun : runIn s x with
  | mk r s₁ =>
      rw [hrun] at hfirst
      cases r with
      | error e => exact hfirst
      | ok a => exact htrans s s₁ _ hfirst (hf a s₁)

theorem forM {g : α → ExceptT ε (StateM σ) PUnit} (hrefl : ∀ s, R s s)
    (htrans : ∀ s s' s'', R s s' → R s' s'' → R s s'') {l : List α}
    (h : ∀ a ∈ l, Keeps R (g a)) : Keeps R (l.forM g) := by
  induction l with
  | nil => exact pure hrefl _
  | cons a l ih =>
      exact bind htrans (h a List.mem_cons_self) fun _ =>
        ih fun b hb => h b (List.mem_cons_of_mem a hb)

end Keeps

end RouteCompiler
