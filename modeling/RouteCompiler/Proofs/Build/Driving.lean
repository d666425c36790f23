import RouteCompiler.Build.Run
import RouteCompiler.Proofs.Build.HandOver

/-!
# How a server is driven

The functions that submit, wait and shut down choose the moves of a server and carry
them out between other actions in a world: they look at the clock, draw identifiers,
generate and deploy.  This module shows that what they do is a run of the server, and
that what they hand to the deployer is what that run hands over.

Main definitions:

- `Observer`: which worlds are as they have to be, and what was handed over in them.
- `Server.LeadsTo`: some moves, no calls among them, lead from one server to another.
- `Observer.Follows`: a computation does what some moves of a server do.

Main results:

- Theorems `submit_follows`, `waitFor_follows` and `shutDown_follows`: the functions that
  drive a server follow its runs.
-/

namespace RouteCompiler

/-- What can be told of a world in which commands run: whether it is as it has to be, and
what has been handed to the deployer in it. -/
structure Observer (W : Type) where
  calm : W → Prop
  handed : W → List HandOver

namespace Observer

variable {W α β : Type} (o : Observer W)

/-! ## Looking at a world -/

/-- A computation leaves calm worlds calm, and hands nothing over. -/
def Keeps (x : StateM W α) : Prop :=
  ∀ w, o.calm w → o.calm (x.run w).2 ∧ o.handed (x.run w).2 = o.handed w

/-- In calm worlds a computation always gives the same, and keeps them. -/
def Yields (x : StateM W α) (a : α) : Prop :=
  ∀ w, o.calm w → (x.run w).1 = a ∧ o.calm (x.run w).2 ∧ o.handed (x.run w).2 = o.handed w

/-- A computation hands something over, and leaves calm worlds calm. -/
def HandsOver (x : StateM W α) (h : HandOver) : Prop :=
  ∀ w, o.calm w → o.calm (x.run w).2 ∧ o.handed (x.run w).2 = o.handed w ++ [h]

variable {o} {x : StateM W α} {f : α → StateM W β} {a : α} {b : β}

theorem Yields.pure (a : α) : o.Yields (Pure.pure a) a :=
  fun _ hw => ⟨rfl, hw, rfl⟩

theorem Yields.keeps (hx : o.Yields x a) : o.Keeps x :=
  fun w hw => (hx w hw).2

theorem Keeps.pure (a : α) : o.Keeps (Pure.pure a) :=
  fun _ hw => ⟨hw, rfl⟩

theorem Yields.bind (hx : o.Yields x a) (hf : o.Yields (f a) b) : o.Yields (x >>= f) b := by
  intro w hw
  obtain ⟨hvalue, hcalm, hhanded⟩ := hx w hw
  obtain ⟨hvalue', hcalm', hhanded'⟩ := hf _ hcalm
  have hrun : (x >>= f).run w = (f a).run (x.run w).2 := by
    rw [← hvalue]
    rfl
  rw [hrun]
  exact ⟨hvalue', hcalm', hhanded'.trans hhanded⟩

/-- Asking for each item of a list gives the same each time. -/
theorem yields_filterM {p : α → StateM W Bool} {l : List α}
    (h : ∀ a ∈ l, ∃ answer, o.Yields (p a) answer) : ∃ found, o.Yields (l.filterM p) found := by
  have hfrom (l : List α) (h : ∀ a ∈ l, ∃ answer, o.Yields (p a) answer) (found : List α) :
      ∃ found', o.Yields (l.filterAuxM p found) found' := by
    induction l generalizing found with
    | nil => exact ⟨found, .pure _⟩
    | cons a l ih =>
        obtain ⟨answer, hanswer⟩ := h a (by simp)
        obtain ⟨found', hfound⟩ := ih (fun b hb => h b (by simp [hb]))
          (cond answer (a :: found) found)
        exact ⟨found', hanswer.bind hfound⟩
  obtain ⟨found, hfound⟩ := hfrom l h []
  exact ⟨found.reverse, hfound.bind (.pure _)⟩

end Observer

/-! ## Moves -/

namespace Server

variable {σ : Type} [Store σ] {compile compile' : Compiler} {s s' s'' : Server σ}
  {moves later : List Move}

/-- Some moves, no calls among them, lead from one server to another. -/
def LeadsTo (compile : Compiler) (s : Server σ) (moves : List Move) (s' : Server σ) : Prop :=
  moves.countP Move.isSubmission = 0 ∧ s.run compile moves = s'

theorem LeadsTo.nil (s : Server σ) : s.LeadsTo compile [] s :=
  ⟨rfl, rfl⟩

theorem LeadsTo.append (h : s.LeadsTo compile moves s') (h' : s'.LeadsTo compile later s'') :
    s.LeadsTo compile (moves ++ later) s'' := by
  refine ⟨by rw [List.countP_append, h.1, h'.1], ?_⟩
  rw [run_append, h.2, h'.2]

/-- How snapshots are generated matters only where a worker is about to generate one. -/
theorem step_work_congr {i : Nat} (deployment : DeployOutcome) (now : Instant)
    (h : ∀ request tag snapshot,
      s.workers[i]? = some (.busy ⟨request, .generate tag snapshot⟩) →
        compile snapshot = compile' snapshot) :
    s.step compile (.work i deployment now) = s.step compile' (.work i deployment now) := by
  simp only [step, work]
  split
  · rfl
  · rfl
  · rfl
  · next job hjob =>
    obtain ⟨request, stage⟩ := job
    have hstage : s.workStage compile request deployment now stage =
        s.workStage compile' request deployment now stage := by
      cases stage with
      | generate tag snapshot => simp only [workStage, h request tag snapshot hjob]
      | _ => rfl
    rw [hstage]

end Server

/-! ## Computations that make moves -/

namespace Observer

variable {W α β σ : Type} [Store σ] (o : Observer W) (compile : Compiler)

/-- A computation does what some moves of a server do: it hands the same over, and what it
gives is related to them. -/
def Follows (s : Server σ) (x : StateM W α) (Q : List Move → α → Prop) : Prop :=
  ∀ w, o.calm w → ∃ moves, o.calm (x.run w).2 ∧
    o.handed (x.run w).2 = o.handed w ++ s.handOvers compile moves ∧ Q moves (x.run w).1

variable {o compile} {s : Server σ} {x : StateM W α} {f : α → StateM W β}
  {Q : List Move → α → Prop} {R : List Move → β → Prop}

theorem Follows.pure {a : α} (h : Q [] a) : o.Follows compile s (Pure.pure a) Q :=
  fun _ hw => ⟨[], hw, (List.append_nil _).symm, h⟩

theorem Follows.mono {Q' : List Move → α → Prop} (hx : o.Follows compile s x Q)
    (h : ∀ moves a, Q moves a → Q' moves a) : o.Follows compile s x Q' := by
  intro w hw
  obtain ⟨moves, hcalm, hhanded, hQ⟩ := hx w hw
  exact ⟨moves, hcalm, hhanded, h _ _ hQ⟩

/-- One computation after the other makes the moves of one after those of the other. -/
theorem Follows.bind (hx : o.Follows compile s x Q)
    (hf : ∀ moves a, Q moves a →
      o.Follows compile (s.run compile moves) (f a) fun later b => R (moves ++ later) b) :
    o.Follows compile s (x >>= f) R := by
  intro w hw
  obtain ⟨moves, hcalm, hhanded, hQ⟩ := hx w hw
  obtain ⟨later, hcalm', hhanded', hR⟩ := hf moves _ hQ _ hcalm
  refine ⟨moves ++ later, hcalm', ?_, hR⟩
  rw [Server.handOvers_append, ← List.append_assoc, ← hhanded]
  exact hhanded'

/-- Looking at the world comes before moves without being one. -/
theorem Keeps.bind_follows (hx : o.Keeps x) (hf : ∀ a, o.Follows compile s (f a) R) :
    o.Follows compile s (x >>= f) R := by
  intro w hw
  obtain ⟨hcalm, hhanded⟩ := hx w hw
  obtain ⟨moves, hcalm', hhanded', hR⟩ := hf (x.run w).1 _ hcalm
  exact ⟨moves, hcalm', by rw [← hhanded]; exact hhanded', hR⟩

/-- So does asking for something that is known. -/
theorem Yields.bind_follows {a : α} (hx : o.Yields x a) (hf : o.Follows compile s (f a) R) :
    o.Follows compile s (x >>= f) R := by
  intro w hw
  obtain ⟨hvalue, hcalm, hhanded⟩ := hx w hw
  obtain ⟨moves, hcalm', hhanded', hR⟩ := hf _ hcalm
  have hrun : (x >>= f).run w = (f a).run (x.run w).2 := by
    rw [← hvalue]
    rfl
  rw [hrun]
  exact ⟨moves, hcalm', by rw [← hhanded]; exact hhanded', hR⟩

/-- One run after the other is a run. -/
theorem Follows.andThen {x : StateM W (Server σ)} {f : Server σ → StateM W (Server σ)}
    (hx : o.Follows compile s x (s.LeadsTo compile))
    (hf : ∀ s', o.Follows compile s' (f s') (s'.LeadsTo compile)) :
    o.Follows compile s (x >>= f) (s.LeadsTo compile) := by
  refine hx.bind fun moves s' hs' => ?_
  obtain ⟨hcalls, rfl⟩ := hs'
  exact (hf _).mono fun later s'' hs'' => Server.LeadsTo.append ⟨hcalls, rfl⟩ hs''

/-- A move that hands nothing over may come before all others. -/
theorem Follows.after {x : StateM W (Server σ)} {s' : Server σ}
    (hx : o.Follows compile s' x (s'.LeadsTo compile)) (move : Move)
    (hmove : move.isSubmission = false) (hnone : s.handOver? move = none)
    (hs' : s.step compile move = s') : o.Follows compile s x (s.LeadsTo compile) := by
  intro w hw
  obtain ⟨moves, hcalm, hhanded, hcalls, hrun⟩ := hx w hw
  refine ⟨move :: moves, hcalm, ?_, ?_, ?_⟩
  · rw [Server.handOvers, hnone, hs']
    exact hhanded
  · rw [List.countP_cons, hcalls, hmove]
    rfl
  · rw [Server.run, List.foldl_cons, hs']
    exact hrun

end Observer

/-! ## Surroundings -/

/-- Surroundings leave calm worlds calm, generate in one way there, and deploy nothing but
what is handed over. -/
structure Surroundings.Steady {W : Type} (site : Surroundings (StateM W)) (o : Observer W)
    (compile : Compiler) : Prop where
  now : o.Keeps site.now
  freshId : o.Keeps site.freshId
  generate : ∀ snapshot, o.Yields (site.generate snapshot) (compile snapshot)
  deploy : ∀ request policies, o.HandsOver (site.deploy request policies) ⟨request, policies⟩

namespace Surroundings.Steady

open Server

variable {W σ : Type} [Store σ] {site : Surroundings (StateM W)} {o : Observer W}
  {compile : Compiler}

/-! ## Calls -/

/-- A call that goes on follows a run. -/
theorem advanceBy_follows (h : site.Steady o compile) (call n : Nat) (s : Server σ) :
    o.Follows compile s (advanceBy site call n s) (s.LeadsTo compile) := by
  induction n generalizing s with
  | zero => exact .pure (.nil s)
  | succ n ih =>
      have hrest (fresh : BuildId) : o.Follows compile s
          (do
            let now ← site.now
            advanceBy site call n (s.step noCompiler (.advance call fresh now)))
          (s.LeadsTo compile) :=
        h.now.bind_follows fun now => (ih _).after (.advance call fresh now) rfl rfl rfl
      rw [advanceBy]
      split
      · exact h.freshId.bind_follows hrest
      · exact hrest ""

/-- Submitting a tag is a call, and then follows a run. -/
theorem submit_follows (h : site.Steady o compile) (s : Server σ) (key : TagKey) :
    o.Follows compile s (s.submit site key) fun moves result =>
      moves.countP Move.isSubmission = 1 ∧ s.run compile moves = result.2 := by
  intro w hw
  obtain ⟨moves, hcalm, hhanded, hcalls, hrun⟩ :=
    h.advanceBy_follows s.submissions.length submissionMoves (s.step compile (.submit key)) w hw
  refine ⟨.submit key :: moves, hcalm, hhanded, ?_, hrun⟩
  rw [List.countP_cons, hcalls]
  rfl

/-! ## Workers -/

/-- A worker that makes a move follows a run. -/
theorem workOnce_follows (h : site.Steady o compile) (s : Server σ) (i : Nat) :
    o.Follows compile s (s.workOnce site i) (s.LeadsTo compile) := by
  rw [workOnce]
  split
  · next request tag snapshot hi =>
    refine (h.generate snapshot).bind_follows (h.now.bind_follows fun now => ?_)
    refine (Observer.Follows.pure (.nil _)).after (.work i .done now) rfl ?_ ?_
    · simp only [handOver?, hi]
      rfl
    · refine step_work_congr _ _ fun request' tag' snapshot' hi' => ?_
      rw [hi] at hi'
      cases hi'
      rfl
  · next request tag policies hi =>
    intro w hw
    obtain ⟨hcalm, hhanded⟩ := h.deploy request policies w hw
    obtain ⟨hcalm', hhanded'⟩ := h.now _ hcalm
    let outcome := ((site.deploy request policies).run w).1
    let now := (site.now.run ((site.deploy request policies).run w).2).1
    have hstep : s.step noCompiler (.work i outcome now) =
        s.step compile (.work i outcome now) := by
      refine step_work_congr _ _ fun request' tag' snapshot' hi' => ?_
      rw [hi] at hi'
      cases hi'
    have hsome : s.handOver? (.work i outcome now) = some ⟨request, policies⟩ := by
      simp only [handOver?, hi]
      rfl
    refine ⟨[.work i outcome now], hcalm', ?_, rfl, hstep.symm⟩
    rw [handOvers, handOvers, hsome]
    exact hhanded'.trans hhanded
  · next hgenerate hdeploy =>
    refine h.now.bind_follows fun now => ?_
    refine (Observer.Follows.pure (.nil _)).after (.work i .done now) rfl ?_ ?_
    · simp only [handOver?]
      split
      · next job hi =>
        obtain ⟨request, stage⟩ := job
        cases stage with
        | deploy tag policies => exact absurd hi (hdeploy request tag policies)
        | _ => rfl
      · rfl
    · exact step_work_congr _ _ fun request tag snapshot hi =>
        absurd hi (hgenerate request tag snapshot)

/-- A worker that goes on until it pauses follows a run. -/
theorem workToPause_follows (h : site.Steady o compile) (i n : Nat) (s : Server σ) :
    o.Follows compile s (workToPause site i n s) (s.LeadsTo compile) := by
  induction n generalizing s with
  | zero => exact .pure (.nil s)
  | succ n ih =>
      rw [workToPause]
      split
      · exact .pure (.nil s)
      · exact (h.workOnce_follows s i).andThen ih

/-- A worker that takes its turn follows a run. -/
theorem turn_follows (h : site.Steady o compile) (s : Server σ) (i : Nat) :
    o.Follows compile s (s.turn site i) (s.LeadsTo compile) := by
  rw [turn]
  split
  · exact .pure (.nil s)
  · exact (h.workOnce_follows s i).andThen fun s' => h.workToPause_follows i s'.movesToPause s'

/-- Workers that take turns follow a run. -/
theorem round_follows (h : site.Steady o compile) (s : Server σ) :
    o.Follows compile s (s.round site) (s.LeadsTo compile) := by
  rw [Server.round]
  induction List.range s.workers.length generalizing s with
  | nil => exact .pure (.nil s)
  | cons i is ih =>
      rw [List.foldlM_cons]
      exact (h.turn_follows s i).andThen ih

/-! ## Waiting -/

/-- Who waits for a build is told what the tracker answers at the end of a run. -/
theorem waitFor_follows (h : site.Steady o compile) (id : BuildId) (n : Nat) (s : Server σ) :
    o.Follows compile s (waitFor site id n s) fun moves result =>
      s.LeadsTo compile moves result.2 ∧ result.1 = result.2.tracker.answer? id := by
  induction n generalizing s with
  | zero => exact .pure ⟨.nil s, rfl⟩
  | succ n ih =>
      rw [waitFor]
      split
      · next answer hanswer => exact .pure ⟨.nil s, hanswer.symm⟩
      · refine (h.round_follows s).bind fun moves s' hs' => ?_
        obtain ⟨hcalls, rfl⟩ := hs'
        refine (ih _).mono fun later result hresult => ?_
        exact ⟨LeadsTo.append ⟨hcalls, rfl⟩ hresult.1, hresult.2⟩

/-- Workers that take turns until they have left follow a run. -/
theorem roundsToEnd_follows (h : site.Steady o compile) (n : Nat) (s : Server σ) :
    o.Follows compile s (roundsToEnd site n s) (s.LeadsTo compile) := by
  induction n generalizing s with
  | zero => exact .pure (.nil s)
  | succ n ih =>
      rw [roundsToEnd]
      split
      · exact .pure (.nil s)
      · exact (h.round_follows s).andThen ih

/-- Shutting down follows a run. -/
theorem shutDown_follows (h : site.Steady o compile) (s : Server σ) :
    o.Follows compile s (s.shutDown site) (s.LeadsTo compile) :=
  (h.roundsToEnd_follows _ _).after .shutDown rfl rfl rfl

end Surroundings.Steady

end RouteCompiler
