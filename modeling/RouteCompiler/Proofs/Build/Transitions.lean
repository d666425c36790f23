import RouteCompiler.Proofs.Build.Statuses
import RouteCompiler.Time.Epoch

/-!
# Transitions of tags

Which status may follow which is laid down, and nobody asks before a record is written.
This module shows that every record that calls and workers write takes its tag from the
stored status to one that may follow.

Main results:

- Theorem `Rewrites.canMoveTo`: a record that is made of another has a status that may follow
  the other.
- Theorem `statuses_move_legally`: in every interleaving with authoring, all records that are
  written have statuses that may follow, and no record changes in another way.
-/

namespace RouteCompiler.Server

variable {s : Server Repository} {key : TagKey} {tag : Tag}

/-- A record that is made of another has a status that may follow the other. -/
theorem Rewrites.canMoveTo {stored : Tag} (h : s.Rewrites stored tag) :
    stored.status.canMoveTo tag.status := by
  cases h with
  | scheduled hrest =>
      have hnext : stored.status.canMoveTo .scheduled := by
        cases hstatus : stored.status with
        | created | successful | failed => rfl
        | scheduled | building =>
            rw [hstatus] at hrest
            cases hrest
      exact hnext
  | building hscheduled =>
      rw [hscheduled]
      rfl
  | @finished r outcome now hphase hstatus =>
      rcases hstatus with hbuilding | ⟨hscheduled, hfailed⟩
      · rw [hbuilding]
        cases outcome <;> rfl
      · -- Only a failure is recorded before the build was marked as running.
        rw [hscheduled]
        cases outcome with
        | ok issues => cases hfailed
        | error e => rfl

/-- Where everything stored is as expected, an action leaves a record as it is, or moves it
on to a status that may follow. -/
theorem Fits.exists_tag_act (h : s.Fits) {action : Action Repository}
    (hauthored : action.IsAuthored) (htag : s.store.tag? key = some tag) :
    ∃ tag', (s.act action).store.tag? key = some tag' ∧
      (tag' = tag ∨ tag.status.canMoveTo tag'.status) := by
  rcases h.tag_act_cases hauthored key with
    hsame | ⟨hnone, -⟩ | ⟨stored, tag', hstored, htag', hrewrites⟩
  · exact ⟨tag, hsame.trans htag, .inl rfl⟩
  · rw [hnone] at htag
    cases htag
  · obtain rfl := Option.some.inj (htag.symm.trans hstored)
    exact ⟨tag', htag', .inr hrewrites.canMoveTo⟩

/-- In every interleaving of calls, workers and authoring, a record that is written has a
status that may follow the stored one, and no record changes in another way. -/
theorem statuses_move_legally {config : ServerConfig} {setup : List Edit}
    {s₀ : Server Repository} {actions : List (Action Repository)} {action : Action Repository}
    (hstart : Server.start config (.authored setup) = .ok s₀) (hfresh : s₀.DrawsOnce actions)
    (hauthored : ∀ a ∈ actions ++ [action], a.IsAuthored) :
    (∀ key tag, (s₀.play actions).write? action = some (key, tag) →
      ∃ stored, (s₀.play actions).store.tag? key = some stored ∧
        stored.status.canMoveTo tag.status) ∧
    ∀ key tag, (s₀.play actions).store.tag? key = some tag →
      ∃ tag', (s₀.play (actions ++ [action])).store.tag? key = some tag' ∧
        (tag' = tag ∨ tag.status.canMoveTo tag'.status) := by
  have h : (s₀.play actions).Fits :=
    fits_play hstart hfresh fun a ha => hauthored a (List.mem_append_left _ ha)
  have haction : action.IsAuthored :=
    hauthored action (List.mem_append_right _ (List.mem_singleton_self _))
  refine ⟨fun key tag hwrite => ?_, fun key tag htag => ?_⟩
  · obtain ⟨stored, hstored, hrewrites⟩ := h.rewrites_of_write hwrite
    exact ⟨stored, hstored, hrewrites.canMoveTo⟩
  · rw [play_concat]
    exact h.exists_tag_act haction htag

/-- A worker that failed to deploy takes its tag from building to failed. -/
theorem statuses_move_legally_interleaved :
    ∃ s₀ tag, Server.start twoWorkers (.authored tagTwice) = .ok s₀ ∧
      (s₀.play interleavedActions).write? (.move noCompiler (.work 0 .done .epoch)) =
        some (⟨"o", "g", "v1"⟩, tag) ∧
      tag.status = .failed ∧
      ∃ stored, (s₀.play interleavedActions).store.tag? ⟨"o", "g", "v1"⟩ = some stored ∧
        stored.status.canMoveTo tag.status := by
  have hstart : Server.start twoWorkers (Repository.authored tagTwice) = .ok _ := rfl
  have hauthored : ∀ a ∈ interleavedActions ++ [.move noCompiler (.work 0 .done .epoch)],
      a.IsAuthored :=
    List.forall_mem_append.mpr ⟨isAuthored_interleavedActions, by simp [Action.IsAuthored]⟩
  have hlegal := (statuses_move_legally hstart (by decide +kernel) hauthored).1
  let failed : Tag := {
    name := "v1", createdAt := .epoch, status := .failed, builtAt := some .epoch
    issues := [BuildError.toIssue (.repository "read-only")] }
  refine ⟨_, failed, hstart, ?_, rfl, hlegal _ _ ?_⟩
  · decide +kernel
  · decide +kernel

end RouteCompiler.Server
