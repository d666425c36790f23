import RouteCompiler.Proofs.Build.Settlement

/-!
# Tagged snapshots stay

Who tags a group wants what the working copy is at that moment, and wants to find it again
whatever happens to the group later.  This module looks at everything that can be done to a
store, in any order: editing, which may be refused, and writing the records of tags.

Main definitions:

- `Edit.outcome`: what an edit answers.
- `Repository.Operation`: whatever can be done to a store.
- `Repository.performAll`: the store after some operations.

Main results:

- Lemma `Tagged.performAll`: a snapshot that is tagged stays so under all operations.
- Lemma `tagged_of_createTag`: what is tagged is the working copy.
- Lemma `Operation.perform_of_refused`: an operation that is refused changes nothing.
- Theorem `snapshot_of_tagged_master`: whoever asks for a tag is given what the working copy
  was when the tag was made.
-/

namespace RouteCompiler

/-! ## Operations -/

/-- What an edit makes of a store, or why it is refused. -/
def Edit.outcome (edit : Edit) (r : Repository) : Except BuildError Repository :=
  match edit with
  | putGroup org s => .ok (r.putGroup org s)
  | putEndpoint key e => r.putEndpoint key e
  | putPolicy key p definition => r.putPolicy key p definition
  | putContent key policy resource content => r.putContent key policy resource content
  | createTag key tag => (r.createTag key tag).map Prod.snd

theorem Edit.apply_eq_of_outcome (edit : Edit) (r : Repository) :
    edit.apply r = (edit.outcome r).toOption.getD r := by
  cases edit <;> rfl

namespace Repository

/-- Whatever can be done to a store. -/
inductive Operation where
  /-- Those who design groups edit them. -/
  | author (edit : Edit)
  /-- A build writes the record of a tag. -/
  | updateTag (key : TagKey) (tag : Tag)

/-- What an operation answers, and the store after it. -/
def Operation.perform (operation : Operation) (r : Repository) :
    Except BuildError Unit × Repository :=
  match operation with
  | author edit =>
      match edit.outcome r with
      | .ok r' => (.ok (), r')
      | .error e => (.error e, r)
  | updateTag key tag => Store.updateTag key tag r

/-- The store after some operations, of which some may be refused. -/
def performAll (r : Repository) (operations : List Operation) : Repository :=
  operations.foldl (fun r operation => (operation.perform r).2) r

variable {r : Repository} {key : TagKey} {snapshot : Snapshot}

theorem performAll_append (r : Repository) (before later : List Operation) :
    r.performAll (before ++ later) = (r.performAll before).performAll later :=
  List.foldl_append ..

theorem performAll_cons (r : Repository) (operation : Operation) (later : List Operation) :
    r.performAll (operation :: later) = (operation.perform r).2.performAll later :=
  rfl

/-- Editing does to the store what the edit does. -/
theorem Operation.perform_author (edit : Edit) (r : Repository) :
    ((author edit).perform r).2 = edit.apply r := by
  rw [perform, edit.apply_eq_of_outcome]
  cases edit.outcome r <;> rfl

/-- Writing the record of a tag does to the store what a build does. -/
theorem Operation.perform_updateTag (key : TagKey) (tag : Tag) (r : Repository) :
    ((updateTag key tag).perform r).2 = r.write (some (key, tag)) :=
  rfl

/-- An operation that is refused changes nothing. -/
theorem Operation.perform_of_refused {operation : Operation} {e : BuildError}
    (h : (operation.perform r).1 = .error e) : (operation.perform r).2 = r := by
  cases operation with
  | author edit =>
      rw [perform] at h ⊢
      cases houtcome : edit.outcome r with
      | ok r' =>
          rw [houtcome] at h
          cases h
      | error e => rfl
  | updateTag key tag =>
      simp only [perform, Store.updateTag] at h ⊢
      cases hwrite : r.updateTag key tag with
      | ok r' =>
          rw [hwrite] at h
          cases h
      | error e => rfl

/-! ## Keeping what is tagged -/

/-- A snapshot that is tagged stays so under every operation. -/
theorem Tagged.perform (h : r.Tagged key snapshot) (operation : Operation) :
    (operation.perform r).2.Tagged key snapshot := by
  cases operation with
  | author edit =>
      rw [Operation.perform_author]
      exact h.grows (grows_apply r edit)
  | updateTag key tag =>
      rw [Operation.perform_updateTag]
      exact h.write _

/-- A snapshot that is tagged stays so under all operations. -/
theorem Tagged.performAll (h : r.Tagged key snapshot) (operations : List Operation) :
    (r.performAll operations).Tagged key snapshot := by
  induction operations generalizing r with
  | nil => exact h
  | cons operation later ih => exact ih (h.perform operation)

/-- In a store of which anything was done, every record bears the name under which it is
kept. -/
theorem isNamed_performAll (operations : List Operation) :
    (empty.performAll operations).IsNamed := by
  induction operations using List.reverseRecOn with
  | nil =>
      intro key tag htag
      cases htag
  | append_singleton operations operation ih =>
      rw [performAll_append, performAll_cons]
      cases operation with
      | author edit =>
          rw [Operation.perform_author]
          exact ih.grows (grows_apply _ edit)
      | updateTag key tag =>
          rw [Operation.perform_updateTag]
          exact ih.write (some (key, tag))

/-- What is tagged under another name than that of working copies is stored. -/
theorem Tagged.stored (h : r.Tagged key snapshot) (hkey : key.tag ≠ masterTag) :
    r.stored? key = some snapshot := by
  rw [stored?, if_neg hkey]
  exact h

/-- Who asks for what is stored is given it, or is told what is wrong with its resources. -/
theorem snapshot_of_stored (h : r.stored? key = some snapshot) :
    r.snapshot? key =
      (snapshot.validateResources.mapError BuildError.model).map fun _ => some snapshot := by
  rw [snapshot?, h]

/-- What is tagged is the working copy. -/
theorem tagged_of_createTag {group : GroupKey} {tag : Tag}
    (h : ((Operation.author (.createTag group tag)).perform r).1 = .ok ()) :
    ∃ master, tag.name ≠ masterTag ∧ r.master? group = some master ∧
      ((Operation.author (.createTag group tag)).perform r).2.Tagged
        (group.withTag tag.name) master := by
  rw [Operation.perform_author, Edit.apply]
  cases hmade : r.createTag group tag with
  | error e =>
      rw [Operation.perform, Edit.outcome, hmade] at h
      cases h
  | ok made =>
      obtain ⟨g, hname, -⟩ := of_createTag_eq_ok hmade
      obtain ⟨master, hmaster, -, htagged⟩ := tagged_createTag hmade
      refine ⟨master, hname, hmaster, ?_⟩
      show (made.2.tagged? _).map _ = some master
      rw [htagged, if_pos rfl]
      rfl

/-- Tagged snapshots are immutable.  Once a tag is made, whatever is done to the store
afterwards, under the key of the tag is stored what the working copy was at that moment; who
asks for it is given it, or is told what is wrong with its resources.  And an operation that
is refused changes nothing at all. -/
theorem snapshot_of_tagged_master (operations : List Operation) :
    (∀ before group tag later,
      operations = before ++ .author (.createTag group tag) :: later →
      ((Operation.author (.createTag group tag)).perform (empty.performAll before)).1 = .ok () →
      ∃ master, (empty.performAll before).master? group = some master ∧
        (empty.performAll operations).stored? (group.withTag tag.name) = some master ∧
        (Store.getSnapshot (group.withTag tag.name) (empty.performAll operations)).1 =
          match master.validateResources with
          | .ok _ => .ok (some master)
          | .error e => .error (.model e)) ∧
    ∀ (operation : Operation) (e : BuildError),
      (operation.perform (empty.performAll operations)).1 = .error e →
      (operation.perform (empty.performAll operations)).2 = empty.performAll operations := by
  refine ⟨?_, fun operation e h => Operation.perform_of_refused h⟩
  rintro before group tag later rfl hmade
  obtain ⟨master, hname, hmaster, htagged⟩ := tagged_of_createTag hmade
  have hstored : (empty.performAll (before ++ .author (.createTag group tag) :: later)).stored?
      (group.withTag tag.name) = some master := by
    rw [performAll_append, performAll_cons]
    exact (htagged.performAll later).stored hname
  refine ⟨master, hmaster, hstored, ?_⟩
  show Repository.snapshot? _ _ = _
  rw [snapshot_of_stored hstored]
  cases master.validateResources <;> rfl

/-- A policy that comes to a group after it was tagged is not found under the tag, where it
cannot be put either. -/
theorem snapshot_of_tagged_master_edited :
    let policy (tag : String) : Operation :=
      .author (.putPolicy ⟨"o", "g", tag⟩ { name := "p" } "<a/>")
    let r := empty.performAll [.author (.putGroup "o" { group := { name := "g" } }),
      .author (.createTag ⟨"o", "g"⟩ { name := "v1", createdAt := .epoch }),
      policy masterTag, .updateTag ⟨"o", "g", "v1"⟩ { name := "v2", createdAt := .epoch }]
    (Store.getSnapshot ⟨"o", "g", "v1"⟩ r).1 = .ok (some { group := { name := "g" } }) ∧
      (r.master? ⟨"o", "g"⟩).map (fun s => s.policies.map Policy.name) = some ["p"] ∧
      ((policy "v1").perform r).1 = .error (.model (.immutableTag "v1")) ∧
      ((policy "v1").perform r).2 = r := by
  intro policy r
  obtain ⟨hkept, hrefused⟩ := snapshot_of_tagged_master
    [.author (.putGroup "o" { group := { name := "g" } }),
      .author (.createTag ⟨"o", "g"⟩ { name := "v1", createdAt := .epoch }),
      policy masterTag, .updateTag ⟨"o", "g", "v1"⟩ { name := "v2", createdAt := .epoch }]
  obtain ⟨master, hmaster, -, hsnapshot⟩ := hkept [_] _ _ _ rfl rfl
  obtain rfl := Option.some.inj hmaster
  exact ⟨hsnapshot, rfl, rfl, hrefused _ _ rfl⟩

end Repository

end RouteCompiler
