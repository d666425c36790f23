import RouteCompiler.Build.Repository
import RouteCompiler.Proofs.Outcome

/-!
# Snapshots in store

A build looks a snapshot up under the key of its tag, and writes the record of the tag
several times.  This module shows that what is stored as a snapshot stays as it is, and
that a tag of a single stored group leads to the snapshot of that group.

Main results:

- Theorem `stored_updateTag`: writing the record of a tag changes no stored snapshot.
- Theorem `tagged_updateTag`: it changes the record of that tag only.
- Theorem `tagged_createTag`: making a tag puts the working copy under the key of the tag, and
  changes no other tag.
- Theorem `exists_stored_of_createTag`: a tag holds the snapshot that it was made of.
-/

namespace RouteCompiler

/-- The key of a tag of a group. -/
def GroupKey.withTag (group : GroupKey) (name : String) : TagKey :=
  ⟨group.org, group.group, name⟩

theorem TagKey.eq_withTag_iff {key : TagKey} {group : GroupKey} {name : String} :
    key = group.withTag name ↔ key.groupKey = group ∧ key.tag = name := by
  obtain ⟨org, groupName, tag⟩ := key
  obtain ⟨org', groupName'⟩ := group
  simp [GroupKey.withTag, groupKey, and_assoc]

namespace Repository

variable {r r' : Repository} {key : TagKey} {tag : Tag} {s : Snapshot}

/-! ## Looking up -/

/-- What is found under the keys of a group depends on that group only. -/
theorem stored_congr (other : TagKey)
    (h : (r'.groups.find? other.groupKey).map StoredGroup.master =
      (r.groups.find? other.groupKey).map StoredGroup.master)
    (htagged : (r'.tagged? other).map TaggedSnapshot.snapshot =
      (r.tagged? other).map TaggedSnapshot.snapshot) : r'.stored? other = r.stored? other := by
  rw [stored?, stored?, master?, master?, h, htagged]

/-- Another entry for a group changes what is tagged in that group only. -/
theorem tagged_insert (r : Repository) (group : GroupKey) (g : StoredGroup) (key : TagKey) :
    (⟨r.groups.insert group g⟩ : Repository).tagged? key =
      if key.groupKey = group then g.tags.find? key.tag else r.tagged? key := by
  by_cases hgroup : key.groupKey = group
  · rw [if_pos hgroup, tagged?, hgroup, SortedMap.find_insert_self, Option.bind_some]
  · rw [if_neg hgroup, tagged?, SortedMap.find_insert_of_ne _ _ hgroup, tagged?]

/-- What is tagged in a group that is found. -/
theorem tagged_of_find {g : StoredGroup} (h : r.groups.find? key.groupKey = some g) :
    r.tagged? key = g.tags.find? key.tag := by
  rw [tagged?, h, Option.bind_some]

/-- A tag that is there has a record. -/
theorem tag_of_tagged {t : TaggedSnapshot} (h : r.tagged? key = some t) :
    r.tag? key = some t.tag := by
  rw [tag?, h, Option.map_some]

/-- What is stored under the name of working copies is the working copy. -/
theorem stored_master (r : Repository) (group : GroupKey) :
    r.stored? (group.withTag masterTag) = r.master? group :=
  if_pos rfl

/-- A build is given what is stored. -/
theorem stored_of_snapshot (h : r.snapshot? key = .ok (some s)) : r.stored? key = some s := by
  rw [snapshot?] at h
  split at h
  · cases h
  · next s' hstored =>
    rw [hstored]
    cases hvalid : (s'.validateResources.mapError BuildError.model) with
    | error e =>
        rw [hvalid] at h
        cases h
    | ok a =>
        rw [hvalid] at h
        exact Except.ok.inj h

/-- A group that must be there is found. -/
theorem find_of_group {group : GroupKey} {g : StoredGroup} (h : r.group group = .ok g) :
    r.groups.find? group = some g := by
  rw [Repository.group] at h
  split at h
  · next hfound => rw [hfound, Except.ok.inj h]
  · cases h

/-! ## Writing records -/

/-- Writing the record of a tag puts another record beside its snapshot. -/
theorem of_updateTag_eq_ok (h : r.updateTag key tag = .ok r') :
    ∃ g t, r.groups.find? key.groupKey = some g ∧ g.tags.find? key.tag = some t ∧
      r' = ⟨r.groups.insert key.groupKey { g with
        tags := g.tags.insert key.tag { t with tag := { tag with name := key.tag } } }⟩ := by
  rw [updateTag] at h
  split at h
  · cases h
  · next g hg =>
    split at h
    · cases h
    · next t ht => exact ⟨g, t, hg, ht, (Except.ok.inj h).symm⟩

/-- Writing the record of a tag changes no stored snapshot. -/
theorem stored_updateTag (h : r.updateTag key tag = .ok r') (other : TagKey) :
    r'.stored? other = r.stored? other := by
  obtain ⟨g, t, hg, ht, rfl⟩ := of_updateTag_eq_ok h
  by_cases hgroup : other.groupKey = key.groupKey
  · refine stored_congr other ?_ ?_
    · simp only [hgroup, SortedMap.find_insert_self, hg, Option.map_some]
    · simp only [tagged?, hgroup, SortedMap.find_insert_self, hg, Option.bind_some]
      by_cases htag : other.tag = key.tag
      · simp only [htag, SortedMap.find_insert_self, ht, Option.map_some]
      · rw [SortedMap.find_insert_of_ne _ _ htag]
  · refine stored_congr other ?_ ?_
    · simp only [SortedMap.find_insert_of_ne _ _ hgroup]
    · simp only [tagged?, SortedMap.find_insert_of_ne _ _ hgroup]

/-- Writing the record of a tag changes that record only. -/
theorem tagged_updateTag (h : r.updateTag key tag = .ok r') (other : TagKey) :
    r'.tagged? other = if other = key then
      (r.tagged? key).map fun t => { t with tag := { tag with name := key.tag } }
    else r.tagged? other := by
  obtain ⟨g, t, hg, ht, rfl⟩ := of_updateTag_eq_ok h
  by_cases hkey : other = key
  · simp [hkey, tagged?, hg, ht]
  · rw [if_neg hkey]
    by_cases hgroup : other.groupKey = key.groupKey
    · have htag : other.tag ≠ key.tag := by
        intro htag
        apply hkey
        obtain ⟨org, group, tag⟩ := other
        obtain ⟨horg, hname⟩ := GroupKey.mk.inj hgroup
        simp only at horg hname htag
        rw [horg, hname, htag]
      simp [tagged?, hgroup, hg, SortedMap.find_insert_of_ne _ _ htag]
    · rw [tagged?, tagged?, SortedMap.find_insert_of_ne _ _ hgroup]

/-- The record of a tag that is there can be written. -/
theorem exists_updateTag {t : TaggedSnapshot} (h : r.tagged? key = some t) (tag : Tag) :
    ∃ r', r.updateTag key tag = .ok r' := by
  obtain ⟨g, hg, ht⟩ := Option.bind_eq_some_iff.mp h
  rw [updateTag, hg]
  dsimp only
  rw [ht]
  exact ⟨_, rfl⟩

/-- For a build no stored snapshot changes, whether the record could be written or not. -/
theorem stored_store_updateTag (r : Repository) (key : TagKey) (tag : Tag) (other : TagKey) :
    (Store.updateTag key tag r).2.stored? other = r.stored? other := by
  cases h : r.updateTag key tag with
  | ok r' =>
      have hstore : (Store.updateTag key tag r).2 = r' := by simp only [Store.updateTag, h]
      rw [hstore, stored_updateTag h]
  | error e =>
      have hstore : (Store.updateTag key tag r).2 = r := by simp only [Store.updateTag, h]
      rw [hstore]

/-! ## Making tags -/

/-- In a store with one group and no tags, nothing but that group is to be found. -/
theorem eq_of_stored_putGroup {org : String} {s' : Snapshot}
    (h : (empty.putGroup org s).stored? key = some s') : s' = s := by
  have hgroups (group : GroupKey) : (empty.putGroup org s).groups.find? group =
      if group = ⟨org, s.group.name⟩ then some ⟨s, .empty⟩ else none := by
    split
    · next heq => rw [heq, putGroup, SortedMap.find_insert_self]; rfl
    · next hne => rw [putGroup, SortedMap.find_insert_of_ne _ _ hne]; rfl
  rw [stored?, master?, tagged?, hgroups] at h
  split at h <;> split at h
  · exact (Option.some.inj h).symm
  · cases h
  · cases h
  · cases h

/-- The record of a tag that has just been made. -/
def newRecord (tag : Tag) : Tag :=
  { tag with status := .created, issues := [], builtAt := none }

/-- A tag is made of the working copy of a group that has no tag of that name. -/
theorem of_createTag_eq_ok {group : GroupKey} {made : Tag}
    (h : r.createTag group tag = .ok (made, r')) :
    ∃ g, tag.name ≠ masterTag ∧ r.groups.find? group = some g ∧
      g.tags.find? tag.name = none ∧ made = newRecord tag ∧
      r' = ⟨r.groups.insert group { g with
        tags := g.tags.insert tag.name ⟨newRecord tag, g.master⟩ }⟩ := by
  rw [createTag] at h
  split at h
  · cases h
  next hname =>
  obtain ⟨g, hg, h⟩ := Outcome.of_bind_eq_ok h
  dsimp only at h
  split at h
  · cases h
  next habsent =>
  obtain ⟨hmade, hr'⟩ := Prod.mk.inj (Except.ok.inj h)
  exact ⟨g, hname, find_of_group hg, by simpa using habsent, hmade.symm, hr'.symm⟩

/-- Making a tag puts the working copy under the key of the tag, where nothing was. -/
theorem tagged_createTag {group : GroupKey} {made : Tag}
    (h : r.createTag group tag = .ok (made, r')) :
    ∃ master, r.master? group = some master ∧ r.tagged? (group.withTag tag.name) = none ∧
      ∀ key, r'.tagged? key =
        if key = group.withTag tag.name then some ⟨newRecord tag, master⟩ else r.tagged? key := by
  obtain ⟨g, -, hg, habsent, -, rfl⟩ := of_createTag_eq_ok h
  have hbefore : r.tagged? (group.withTag tag.name) = g.tags.find? tag.name := tagged_of_find hg
  refine ⟨g.master, by rw [master?, hg, Option.map_some], hbefore.trans habsent, fun key => ?_⟩
  rw [tagged_insert]
  by_cases hgroup : key.groupKey = group
  · rw [if_pos hgroup, tagged_of_find (hgroup ▸ hg)]
    by_cases hname : key.tag = tag.name
    · rw [if_pos (TagKey.eq_withTag_iff.mpr ⟨hgroup, hname⟩), hname, SortedMap.find_insert_self]
    · rw [if_neg fun heq => hname (TagKey.eq_withTag_iff.mp heq).2,
        SortedMap.find_insert_of_ne _ _ hname]
  · rw [if_neg hgroup, if_neg fun heq => hgroup (TagKey.eq_withTag_iff.mp heq).1]

/-- Making a tag changes no working copy. -/
theorem master_createTag {group : GroupKey} {made : Tag}
    (h : r.createTag group tag = .ok (made, r')) (other : GroupKey) :
    r'.master? other = r.master? other := by
  obtain ⟨g, -, hg, -, -, rfl⟩ := of_createTag_eq_ok h
  rw [master?, master?]
  by_cases hother : other = group
  · rw [hother, SortedMap.find_insert_self, hg]
    rfl
  · rw [SortedMap.find_insert_of_ne _ _ hother]

/-- A tag holds the snapshot that it was made of. -/
theorem exists_stored_of_createTag {group : GroupKey} {tag' : Tag}
    (h : r.createTag group tag = .ok (tag', r')) (hstored : r'.stored? key = some s) :
    ∃ key', r.stored? key' = some s := by
  obtain ⟨master, hmaster, -, htagged⟩ := tagged_createTag h
  rw [stored?, master_createTag h, htagged] at hstored
  by_cases hkey : key = group.withTag tag.name
  · refine ⟨group.withTag masterTag, ?_⟩
    obtain ⟨g, hname, -⟩ := of_createTag_eq_ok h
    rw [if_neg (hkey ▸ hname), if_pos hkey] at hstored
    rw [stored_master, hmaster, ← hstored]
    rfl
  · refine ⟨key, ?_⟩
    rw [if_neg hkey] at hstored
    exact hstored

end Repository

end RouteCompiler
