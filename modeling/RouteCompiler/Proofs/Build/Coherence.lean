import RouteCompiler.Proofs.Build.Immutability
import RouteCompiler.Proofs.Model.Validity

/-!
# Snapshots stay coherent

A store checks the resources of a snapshot when a build asks for it, but nothing else that
generation relies on: names must be unique, and every policy must have a definition.  This
module shows that nothing else has to be checked.  Whoever puts whole groups into a store puts
coherent ones; all other operations on the store, in any order, keep them so, and with them
every tag that is made.

Main definitions:

- `Repository.Operation.Puts`: an operation puts a group of which a property holds, or none.
- `Repository.Ensures`: a property holds of all that is stored.

Main results:

- Lemma `Snapshot.IsCoherent.putEndpoint`, `putPolicy` and `withContent`: editing keeps a
  snapshot coherent.
- Lemma `Repository.Ensures.perform`: what every edit keeps, every operation keeps.
- Theorem `Repository.stored_snapshots_coherent`: everything stored is coherent, and what a
  build is given passes the check of generation.
-/

namespace RouteCompiler

/-! ## Replacing by name -/

section Replacing

variable {α : Type} {name : α → String} {a b : α} {l : List α}

/-- A name is kept in its place, or comes last. -/
theorem map_replaceOrAppend (name : α → String) (a : α) (l : List α) :
    (replaceOrAppend (fun b => name b == name a) a l).map name =
      if name a ∈ l.map name then l.map name else l.map name ++ [name a] := by
  induction l with
  | nil => rfl
  | cons b l ih =>
      by_cases hname : name b = name a
      · simp [replaceOrAppend, hname]
      · have hother : name a ≠ name b := fun heq => hname heq.symm
        simp only [replaceOrAppend, beq_iff_eq, hname, if_false, List.map_cons, ih,
          List.mem_cons, hother, false_or]
        split <;> rfl

/-- Replacing by name keeps names unique. -/
theorem nodup_replaceOrAppend (h : (l.map name).Nodup) :
    ((replaceOrAppend (fun b => name b == name a) a l).map name).Nodup := by
  rw [map_replaceOrAppend]
  split
  · exact h
  · next hnew =>
    rw [List.nodup_append]
    refine ⟨h, List.nodup_singleton _, ?_⟩
    rintro key hkey _ hlast rfl
    exact hnew (List.mem_singleton.mp hlast ▸ hkey)

/-- What is listed afterwards is the new item, or was listed before. -/
theorem mem_replaceOrAppend {test : α → Bool} (h : b ∈ replaceOrAppend test a l) :
    b = a ∨ b ∈ l := by
  induction l with
  | nil => exact .inl (List.mem_singleton.mp h)
  | cons c l ih =>
      rw [replaceOrAppend] at h
      split at h
      · exact (List.mem_cons.mp h).imp_right (List.mem_cons_of_mem c)
      · rcases List.mem_cons.mp h with rfl | h
        · exact .inr List.mem_cons_self
        · exact (ih h).imp_right (List.mem_cons_of_mem c)

end Replacing

/-! ## Editing a snapshot -/

namespace Snapshot.IsCoherent

variable {s : Snapshot}

/-- Putting an endpoint keeps a snapshot coherent. -/
theorem putEndpoint (h : s.IsCoherent) (e : Endpoint) : (s.putEndpoint e).IsCoherent where
  endpointNames := nodup_replaceOrAppend h.endpointNames
  policyNames := h.policyNames
  definitions := h.definitions

/-- Putting a policy with its definition keeps a snapshot coherent. -/
theorem putPolicy (h : s.IsCoherent) (p : Policy) (definition : String) :
    (s.putPolicy p definition).IsCoherent where
  endpointNames := h.endpointNames
  policyNames := nodup_replaceOrAppend h.policyNames
  definitions := by
    intro q hq
    show ((s.definitions.insert p.name definition).find? q.name).isSome
    rw [SortedMap.find_insert]
    split
    · rfl
    · next hname =>
      rcases mem_replaceOrAppend hq with rfl | hq
      · exact absurd rfl hname
      · exact h.definitions q hq

/-- Setting the content of a resource keeps a snapshot coherent. -/
theorem withContent (h : s.IsCoherent) (policy resource content : String) :
    (s.withContent policy resource content).IsCoherent where
  endpointNames := h.endpointNames
  policyNames := h.policyNames
  definitions := h.definitions

end Snapshot.IsCoherent

namespace Repository

variable {P : Snapshot → Prop} {r r' : Repository} {key : TagKey}

/-- A property holds of all that is stored. -/
structure Ensures (P : Snapshot → Prop) (r : Repository) : Prop where
  master : ∀ group s, r.master? group = some s → P s
  tagged : ∀ key t, r.tagged? key = some t → P t.snapshot

/-- An operation puts a group of which a property holds, or none. -/
def Operation.Puts (P : Snapshot → Prop) : Operation → Prop
  | author (.putGroup _ s) => P s
  | _ => True

/-! ## Operations on a store -/

/-- Another entry for a group changes the working copy of that group only. -/
theorem master_insert (r : Repository) (group : GroupKey) (g : StoredGroup) (other : GroupKey) :
    (⟨r.groups.insert group g⟩ : Repository).master? other =
      if other = group then some g.master else r.master? other := by
  rw [master?, SortedMap.find_insert]
  split <;> rfl

/-- Writing the record of a tag changes no working copy. -/
theorem master_updateTag {tag : Tag} (h : r.updateTag key tag = .ok r') (group : GroupKey) :
    r'.master? group = r.master? group := by
  obtain ⟨g, t, hg, -, rfl⟩ := of_updateTag_eq_ok h
  rw [master_insert]
  split
  · next heq => rw [heq, master?, hg, Option.map_some]
  · rfl

namespace Ensures

theorem empty : Repository.empty.Ensures P where
  master _ _ h := nomatch h
  tagged _ _ h := nomatch h

theorem putGroup (h : r.Ensures P) (org : String) {s : Snapshot} (hs : P s) :
    (r.putGroup org s).Ensures P where
  master group s' hs' := by
    rw [Repository.putGroup, master_insert] at hs'
    split at hs'
    · exact Option.some.inj hs' ▸ hs
    · exact h.master group s' hs'
  tagged key t ht := h.tagged key t (r.tagged_putGroup org s key ▸ ht)

theorem modifyMaster (h : r.Ensures P) {f : Snapshot → Snapshot} (hf : ∀ s, P s → P (f s))
    (hr : r.modifyMaster key f = .ok r') : r'.Ensures P where
  master group s hs := by
    rw [Repository.modifyMaster] at hr
    split at hr
    · cases hr
    · obtain ⟨g, hg, hr⟩ := Outcome.of_bind_eq_ok hr
      rw [← Except.ok.inj hr, master_insert] at hs
      split at hs
      · have hmaster : r.master? key.groupKey = some g.master := by
          rw [master?, find_of_group hg, Option.map_some]
        exact Option.some.inj hs ▸ hf _ (h.master _ _ hmaster)
      · exact h.master group s hs
  tagged key t ht := h.tagged key t (tagged_modifyMaster hr key ▸ ht)

theorem createTag (h : r.Ensures P) {group : GroupKey} {tag made : Tag}
    (hr : r.createTag group tag = .ok (made, r')) : r'.Ensures P where
  master other s hs := h.master other s (master_createTag hr other ▸ hs)
  tagged key t ht := by
    obtain ⟨master, hmaster, -, htagged⟩ := tagged_createTag hr
    rw [htagged] at ht
    split at ht
    · exact Option.some.inj ht ▸ h.master group master hmaster
    · exact h.tagged key t ht

theorem updateTag (h : r.Ensures P) {tag : Tag} (hr : r.updateTag key tag = .ok r') :
    r'.Ensures P where
  master group s hs := h.master group s (master_updateTag hr group ▸ hs)
  tagged other t ht := by
    rw [tagged_updateTag hr] at ht
    split at ht
    · obtain ⟨t', ht', rfl⟩ := Option.map_eq_some_iff.mp ht
      exact h.tagged key t' ht'
    · exact h.tagged other t ht

/-- What every edit of a snapshot keeps, every operation on a store keeps. -/
theorem perform (h : r.Ensures Snapshot.IsCoherent) {operation : Operation}
    (hputs : operation.Puts Snapshot.IsCoherent) :
    (operation.perform r).2.Ensures Snapshot.IsCoherent := by
  cases operation with
  | updateTag key tag =>
      simp only [Operation.perform, Store.updateTag]
      cases hr : r.updateTag key tag with
      | ok r' => exact h.updateTag hr
      | error e => exact h
  | author edit =>
      rw [Operation.perform]
      cases hr : edit.outcome r with
      | error e => exact h
      | ok r' =>
          cases edit with
          | putGroup org s => exact Except.ok.inj hr ▸ h.putGroup org hputs
          | putEndpoint key e => exact h.modifyMaster (fun s hs => hs.putEndpoint e) hr
          | putPolicy key p definition =>
              exact h.modifyMaster (fun s hs => hs.putPolicy p definition) hr
          | putContent key policy resource content =>
              exact h.modifyMaster (fun s hs => hs.withContent policy resource content) hr
          | createTag group tag =>
              rw [Edit.outcome] at hr
              cases hmade : r.createTag group tag with
              | error e =>
                  rw [hmade] at hr
                  cases hr
              | ok made =>
                  rw [hmade] at hr
                  exact Except.ok.inj hr ▸ h.createTag hmade

/-- Operations of which those that put groups put coherent ones keep all that is stored
coherent. -/
theorem performAll (h : r.Ensures Snapshot.IsCoherent) {operations : List Operation}
    (hputs : ∀ operation ∈ operations, operation.Puts Snapshot.IsCoherent) :
    (r.performAll operations).Ensures Snapshot.IsCoherent := by
  induction operations generalizing r with
  | nil => exact h
  | cons operation later ih =>
      rw [performAll_cons]
      exact ih (h.perform (hputs operation List.mem_cons_self))
        fun other hother => hputs other (List.mem_cons_of_mem operation hother)

end Ensures

/-- Of all that is stored some key tells. -/
theorem Ensures.stored (h : r.Ensures P) {s : Snapshot} (hs : r.stored? key = some s) : P s := by
  rw [stored?] at hs
  split at hs
  · exact h.master _ _ hs
  · obtain ⟨t, ht, rfl⟩ := Option.map_eq_some_iff.mp hs
    exact h.tagged key t ht

/-! ## What builds are given -/

/-- What is stored in a store stays coherent, whatever is done to it, as long as coherent
groups are put into it: every working copy and every tagged snapshot has unique endpoint
names, unique policy names and a definition for every policy.  And a build is given exactly
those stored snapshots that pass the check of generation. -/
theorem stored_snapshots_coherent (operations : List Operation)
    (hputs : ∀ operation ∈ operations, operation.Puts Snapshot.IsCoherent) :
    let r := Repository.empty.performAll operations
    (∀ group master, r.master? group = some master → master.IsCoherent) ∧
    (∀ key t, r.tagged? key = some t → t.snapshot.IsCoherent) ∧
    ∀ key s, (Store.getSnapshot key r).1 = .ok (some s) ↔
      r.stored? key = some s ∧ s.checkConsistency = .ok () := by
  intro r
  have hall : r.Ensures Snapshot.IsCoherent := Ensures.empty.performAll hputs
  refine ⟨hall.master, hall.tagged, fun key s => ?_⟩
  show r.snapshot? key = .ok (some s) ↔ _
  constructor
  · intro hgiven
    have hstored := stored_of_snapshot hgiven
    refine ⟨hstored, ?_⟩
    rw [snapshot_of_stored hstored] at hgiven
    rw [(hall.stored hstored).checkConsistency_eq]
    cases hvalid : s.validateResources with
    | ok _ => rfl
    | error e =>
        rw [hvalid] at hgiven
        cases hgiven
  · rintro ⟨hstored, hchecked⟩
    rw [(hall.stored hstored).checkConsistency_eq] at hchecked
    rw [snapshot_of_stored hstored, hchecked]
    rfl

/-- A group with one endpoint. -/
def smallGroup (uri : String) : Group :=
  { name := "g", endpoints := [{ name := "e", uri }] }

/-- A policy and an endpoint are put once before a tag is made, and once after it. -/
def editsAroundTag : List Operation :=
  let master : TagKey := ⟨"o", "g", masterTag⟩
  [.author (.putGroup "o" { group := smallGroup "jms:a" }),
    .author (.putPolicy master { name := "p", resources := [{ name := "r" }] } "<a/>"),
    .author (.putContent master "p" "r" "text"),
    .author (.createTag ⟨"o", "g"⟩ { name := "v1", createdAt := .epoch }),
    .author (.putEndpoint master { name := "e", uri := "jms:b" }),
    .author (.putPolicy master { name := "p" } "<b/>")]

/-- Names are still unique after an endpoint and a policy were put a second time, and the tag
that was made before is given to a build as it was then. -/
theorem stored_snapshots_coherent_edited :
    let r := Repository.empty.performAll editsAroundTag
    let tagged : Snapshot := {
      group := smallGroup "jms:a"
      policies := [{ name := "p", resources := [{ name := "r" }] }]
      definitions := .ofList [("p", "<a/>")]
      resources := .ofList [("p", .ofList [("r", "text")])] }
    (∀ operation ∈ editsAroundTag, operation.Puts Snapshot.IsCoherent) ∧
      (∀ master, r.master? ⟨"o", "g"⟩ = some master → master.IsCoherent) ∧
      (r.master? ⟨"o", "g"⟩).map Snapshot.group = some (smallGroup "jms:b") ∧
      (Store.getSnapshot ⟨"o", "g", "v1"⟩ r).1 = .ok (some tagged) ∧
      tagged.checkConsistency = .ok () := by
  intro r tagged
  have hputs : ∀ operation ∈ editsAroundTag, operation.Puts Snapshot.IsCoherent := by
    simp only [editsAroundTag, List.forall_mem_cons]
    exact ⟨⟨by decide, List.nodup_nil, nofun⟩, trivial, trivial, trivial, trivial, trivial, by simp⟩
  obtain ⟨hmaster, -, hgiven⟩ := stored_snapshots_coherent editsAroundTag hputs
  have htagged : (Store.getSnapshot ⟨"o", "g", "v1"⟩ r).1 = .ok (some tagged) :=
    Outcome.of_toOption_eq_some (by decide +kernel)
  exact ⟨hputs, hmaster _, by decide +kernel, htagged, ((hgiven _ _).mp htagged).2⟩

end Repository

end RouteCompiler
