import RouteCompiler.Proofs.Build.Storing
import Mathlib.Data.List.Induction

/-!
# Authoring

Those who design groups put endpoints, policies and resources into the working copies of a
store, and tag them.  They do so while builds run.  This module shows that builds need not
care: a tag that is there stays as it is, with its record and its snapshot, and one that
comes starts anew.

Main definitions:

- `Edit`: an operation of those who design groups.
- `Edit.IsOfMaster`: an edit of a working copy.
- `Repository.Grows`: what was tagged is as it was, and all other tags are new.
- `Repository.authored`: the store that some edits make.

Main results:

- Theorem `Repository.tagged_apply`: editing a working copy keeps all tags.
- Theorem `Repository.grows_apply`: every edit makes a store grow.
- Theorem `Repository.isNew_of_authored`: where only edits were made, all tags are new.
-/

namespace RouteCompiler

/-- An operation of those who design groups. -/
inductive Edit where
  | putGroup (org : String) (s : Snapshot)
  | putEndpoint (key : TagKey) (e : Endpoint)
  | putPolicy (key : TagKey) (p : Policy) (definition : String)
  | putContent (key : TagKey) (policy resource content : String)
  | createTag (key : GroupKey) (tag : Tag)

/-- The store after an edit, which changes nothing if it is refused. -/
def Edit.apply (edit : Edit) (r : Repository) : Repository :=
  match edit with
  | putGroup org s => r.putGroup org s
  | putEndpoint key e => (r.putEndpoint key e).toOption.getD r
  | putPolicy key p definition => (r.putPolicy key p definition).toOption.getD r
  | putContent key policy resource content =>
      (r.putContent key policy resource content).toOption.getD r
  | createTag key tag => ((r.createTag key tag).map Prod.snd).toOption.getD r

/-- An edit of a working copy. -/
def Edit.IsOfMaster : Edit → Prop
  | putGroup .. | putEndpoint .. | putPolicy .. | putContent .. => True
  | createTag .. => False

/-- A snapshot was tagged under a key, and not built yet. -/
structure TaggedSnapshot.IsNew (key : TagKey) (t : TaggedSnapshot) : Prop where
  name_eq : t.tag.name = key.tag
  ne_master : key.tag ≠ masterTag
  status_eq : t.tag.status = .created
  issues_eq : t.tag.issues = []

namespace Repository

variable {r r' : Repository} {key : TagKey}

/-- What was tagged is as it was, and all other tags are new. -/
def Grows (r r' : Repository) : Prop :=
  ∀ key, r'.tagged? key = r.tagged? key ∨
    r.tagged? key = none ∧ ∃ t, r'.tagged? key = some t ∧ t.IsNew key

theorem Grows.refl (r : Repository) : r.Grows r :=
  fun _ => .inl rfl

/-- Setting a working copy keeps all tags. -/
theorem tagged_putGroup (r : Repository) (org : String) (s : Snapshot) (key : TagKey) :
    (r.putGroup org s).tagged? key = r.tagged? key := by
  rw [putGroup, tagged_insert]
  split
  · next hgroup =>
    rw [tagged?, hgroup]
    split
    · next g hg =>
      rw [hg]
      rfl
    · next hg =>
      rw [hg]
      rfl
  · rfl

/-- Changing a working copy keeps all tags. -/
theorem tagged_modifyMaster {master : TagKey} {f : Snapshot → Snapshot}
    (h : r.modifyMaster master f = .ok r') (key : TagKey) : r'.tagged? key = r.tagged? key := by
  rw [modifyMaster] at h
  split at h
  · cases h
  · obtain ⟨g, hg, h⟩ := Outcome.of_bind_eq_ok h
    rw [← Except.ok.inj h, tagged_insert]
    split
    · next hgroup => rw [tagged?, hgroup, find_of_group hg, Option.bind_some]
    · rfl

/-- Making a tag adds one that is new. -/
theorem grows_createTag {group : GroupKey} {tag tag' : Tag}
    (h : r.createTag group tag = .ok (tag', r')) : r.Grows r' := by
  obtain ⟨g, hname, -⟩ := of_createTag_eq_ok h
  obtain ⟨master, -, habsent, htagged⟩ := tagged_createTag h
  intro key
  rw [htagged]
  split
  · next heq =>
    rw [heq]
    exact .inr ⟨habsent, _, rfl, rfl, hname, rfl, rfl⟩
  · exact .inl rfl

/-- Editing a working copy keeps all tags. -/
theorem tagged_apply {edit : Edit} (h : edit.IsOfMaster) (r : Repository) (key : TagKey) :
    (edit.apply r).tagged? key = r.tagged? key := by
  have hmodify (master : TagKey) (f : Snapshot → Snapshot) :
      ((r.modifyMaster master f).toOption.getD r).tagged? key = r.tagged? key := by
    cases hf : r.modifyMaster master f with
    | ok r' => exact tagged_modifyMaster hf key
    | error e => rfl
  cases edit with
  | putGroup org s => exact r.tagged_putGroup org s key
  | putEndpoint | putPolicy | putContent => exact hmodify _ _
  | createTag => cases h

/-- Every edit makes a store grow. -/
theorem grows_apply (r : Repository) (edit : Edit) : r.Grows (edit.apply r) := by
  cases edit with
  | putGroup | putEndpoint | putPolicy | putContent =>
      exact fun key => .inl (tagged_apply (by trivial) r key)
  | createTag group tag =>
      cases h : r.createTag group tag with
      | ok made =>
          have happly : (Edit.createTag group tag).apply r = made.2 := by
            rw [Edit.apply, h]
            rfl
          rw [happly]
          exact grows_createTag h
      | error e =>
          have happly : (Edit.createTag group tag).apply r = r := by
            rw [Edit.apply, h]
            rfl
          rw [happly]
          exact .refl r

/-- The store that some edits make of an empty one. -/
def authored (setup : List Edit) : Repository :=
  setup.foldl (fun r edit => edit.apply r) empty

/-- All tags of a store that edits have made are new. -/
theorem isNew_of_authored {setup : List Edit} {t : TaggedSnapshot}
    (h : (authored setup).tagged? key = some t) : t.IsNew key := by
  induction setup using List.reverseRecOn generalizing t with
  | nil => cases h
  | append_singleton setup edit ih =>
      rw [authored, List.foldl_append] at h
      rcases grows_apply (authored setup) edit key with hsame | ⟨-, t', ht', hnew⟩
      · exact ih (hsame ▸ h)
      · obtain rfl := Option.some.inj (ht'.symm.trans h)
        exact hnew

end Repository

end RouteCompiler
