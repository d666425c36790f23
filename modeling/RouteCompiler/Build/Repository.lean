import RouteCompiler.Build.Error
import RouteCompiler.Model.Snapshot

/-!
# Stored snapshots

A store holds the working copy of each group and the tags made of it.  Only the
working copy can be changed; a tag keeps the snapshot it was made of, and only
the record of the tag changes.

A build needs three operations of a store.  Any type that has them can serve.
-/

namespace RouteCompiler

/-- A group of an organization. -/
structure GroupKey where
  org : String
  group : String
  deriving DecidableEq, Repr

namespace GroupKey

instance : Ord GroupKey :=
  ⟨fun k l => (compare k.org l.org).then (compare k.group l.group)⟩

instance : Std.TransOrd GroupKey :=
  inferInstanceAs (Std.TransCmp (compareLex (compareOn org) (compareOn group)))

instance : Std.LawfulEqOrd GroupKey where
  eq_of_compare {k l} h := by
    simp only [compare, Ordering.then_eq_eq] at h
    cases k
    cases l
    simp only [mk.injEq]
    exact ⟨Std.LawfulEqOrd.eq_of_compare h.1, Std.LawfulEqOrd.eq_of_compare h.2⟩

/-- The text of a key. -/
def toText (k : GroupKey) : String :=
  s!"{k.org}/{k.group}"

end GroupKey

/-- The group that a tag belongs to. -/
def TagKey.groupKey (k : TagKey) : GroupKey :=
  ⟨k.org, k.group⟩

/-- A tag with the snapshot it was made of. -/
structure TaggedSnapshot where
  tag : Tag
  snapshot : Snapshot

/-- The working copy of a group, and its tags by name. -/
structure StoredGroup where
  master : Snapshot
  tags : SortedMap String TaggedSnapshot

/-- Stored groups. -/
structure Repository where
  groups : SortedMap GroupKey StoredGroup

/-- Replace the first item on which a test holds, or append an item. -/
def replaceOrAppend {α : Type} (test : α → Bool) (a : α) : List α → List α
  | [] => [a]
  | b :: rest => if test b then a :: rest else b :: replaceOrAppend test a rest

namespace Snapshot

/-- Put an endpoint in place of the one of its name, or add it. -/
def putEndpoint (s : Snapshot) (e : Endpoint) : Snapshot :=
  { s with group := { s.group with
      endpoints := replaceOrAppend (fun other => other.name == e.name) e s.group.endpoints } }

/-- Put a policy in place of the one of its name, or add it, and set its
definition. -/
def putPolicy (s : Snapshot) (p : Policy) (definition : String) : Snapshot :=
  { s with
    policies := replaceOrAppend (fun other => other.name == p.name) p s.policies
    definitions := s.definitions.insert p.name definition }

end Snapshot

namespace Repository

/-- A store without groups. -/
def empty : Repository :=
  ⟨.empty⟩

/-- A group that must be there. -/
def group (r : Repository) (key : GroupKey) : Except BuildError StoredGroup :=
  match r.groups.find? key with
  | some g => .ok g
  | none => .error (.model (.invalidInput s!"group '{key.toText}' not found"))

/-! ## The working copy -/

/-- The working copy of a group. -/
def master? (r : Repository) (key : GroupKey) : Option Snapshot :=
  (r.groups.find? key).map StoredGroup.master

/-- Set the working copy of the group of a snapshot.  Its tags are kept. -/
def putGroup (r : Repository) (org : String) (s : Snapshot) : Repository :=
  let key : GroupKey := ⟨org, s.group.name⟩
  let tags := match r.groups.find? key with
    | some g => g.tags
    | none => .empty
  ⟨r.groups.insert key ⟨s, tags⟩⟩

/-- Change what is stored under a key, which must be that of a working copy. -/
def modifyMaster (r : Repository) (key : TagKey) (f : Snapshot → Snapshot) :
    Except BuildError Repository :=
  if key.tag ≠ masterTag then .error (.model (.immutableTag key.tag))
  else do
    let g ← r.group key.groupKey
    return ⟨r.groups.insert key.groupKey { g with master := f g.master }⟩

/-- Put an endpoint into the working copy. -/
def putEndpoint (r : Repository) (key : TagKey) (e : Endpoint) : Except BuildError Repository :=
  r.modifyMaster key fun s => s.putEndpoint e

/-- Put a policy with its definition into the working copy. -/
def putPolicy (r : Repository) (key : TagKey) (p : Policy) (definition : String) :
    Except BuildError Repository :=
  r.modifyMaster key fun s => s.putPolicy p definition

/-- Set the content of a resource of a policy in the working copy. -/
def putContent (r : Repository) (key : TagKey) (policy resource content : String) :
    Except BuildError Repository :=
  r.modifyMaster key fun s => s.withContent policy resource content

/-! ## Tags -/

/-- Make a tag of the working copy.  Its record starts anew, whatever it says of
builds. -/
def createTag (r : Repository) (key : GroupKey) (tag : Tag) :
    Except BuildError (Tag × Repository) :=
  if tag.name = masterTag then
    .error (.model (.invalidInput s!"'{masterTag}' cannot be used as a tag name"))
  else do
    let g ← r.group key
    if (g.tags.find? tag.name).isSome then
      .error (.model (.invalidInput s!"tag '{key.toText}/{tag.name}' already exists"))
    else
      let tag := { tag with status := .created, issues := [], builtAt := none }
      let tags := g.tags.insert tag.name ⟨tag, g.master⟩
      .ok (tag, ⟨r.groups.insert key { g with tags }⟩)

/-- A tag with its snapshot. -/
def tagged? (r : Repository) (key : TagKey) : Option TaggedSnapshot :=
  (r.groups.find? key.groupKey).bind fun g => g.tags.find? key.tag

/-- The record of a tag. -/
def tag? (r : Repository) (key : TagKey) : Option Tag :=
  (r.tagged? key).map TaggedSnapshot.tag

/-- What is stored under a key: a tag, or the working copy. -/
def stored? (r : Repository) (key : TagKey) : Option Snapshot :=
  if key.tag = masterTag then r.master? key.groupKey
  else (r.tagged? key).map TaggedSnapshot.snapshot

/-- The snapshot that is stored under a key, if its resources are consistent. -/
def snapshot? (r : Repository) (key : TagKey) : Except BuildError (Option Snapshot) :=
  match r.stored? key with
  | none => .ok none
  | some s => (s.validateResources.mapError .model).map fun _ => some s

/-- Set the record of a tag, which keeps its name. -/
def updateTag (r : Repository) (key : TagKey) (tag : Tag) : Except BuildError Repository :=
  let missing : BuildError := .model (.invalidInput s!"tag '{key.toText}' not found")
  match r.groups.find? key.groupKey with
  | none => .error missing
  | some g =>
      match g.tags.find? key.tag with
      | none => .error missing
      | some t =>
          let tags := g.tags.insert key.tag { t with tag := { tag with name := key.tag } }
          .ok ⟨r.groups.insert key.groupKey { g with tags }⟩

/-- The records of the tags of a group, by name. -/
def tags (r : Repository) (key : GroupKey) : List Tag :=
  match r.groups.find? key with
  | some g => g.tags.values.map TaggedSnapshot.tag
  | none => []

end Repository

/-- What a build needs of a store.  An operation may change the store even where
it only looks, or fails. -/
class Store (σ : Type) where
  /-- The record of a tag. -/
  getTag : TagKey → σ → Except BuildError (Option Tag) × σ
  /-- The snapshot of a tag. -/
  getSnapshot : TagKey → σ → Except BuildError (Option Snapshot) × σ
  /-- Set the record of a tag. -/
  updateTag : TagKey → Tag → σ → Except BuildError Unit × σ

instance : Store Repository where
  getTag key r := (.ok (r.tag? key), r)
  getSnapshot key r := (r.snapshot? key, r)
  updateTag key tag r :=
    match r.updateTag key tag with
    | .ok r => (.ok (), r)
    | .error e => (.error e, r)

end RouteCompiler
