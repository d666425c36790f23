import RouteCompiler.Model.Snapshot
import Mathlib.Data.List.Induction
import Mathlib.Data.List.Nodup
import Mathlib.Data.List.Perm.Basic

/-!
# Looking things up by name

A group lists its endpoints, and a snapshot its policies.  The first one of a name
is looked up; where names are unique, that is the one of that name, and the order
of the list does not matter.

Main results:

- Theorem `find_eq_some_iff`: where names are unique, exactly what is listed is found.
- Theorem `nodup_of_split`: names are unique where each differs from those before it.
- Theorem `find_perm`: where names are unique, the order of a list does not matter.
-/

namespace RouteCompiler.Names

variable {α : Type} {name : α → String} {l l' : List α} {key : String} {a : α}

/-- Where names are unique, exactly what is listed is found. -/
theorem find_eq_some_iff (h : (l.map name).Nodup) :
    l.find? (fun a => name a == key) = some a ↔ a ∈ l ∧ name a = key := by
  constructor
  · intro hfind
    exact ⟨List.mem_of_find?_eq_some hfind, by simpa using List.find?_some hfind⟩
  · rintro ⟨ha, rfl⟩
    cases hfind : l.find? (fun b => name b == name a) with
    | none => simpa using List.find?_eq_none.mp hfind a ha
    | some b =>
        have hname : name b = name a := by simpa using List.find?_some hfind
        rw [List.inj_on_of_nodup_map h (List.mem_of_find?_eq_some hfind) ha hname]

/-- Names are unique where no item has the name of one before it. -/
theorem nodup_of_split (h : ∀ before a behind, l = before ++ a :: behind →
    name a ∉ before.map name) : (l.map name).Nodup := by
  induction l using List.reverseRecOn with
  | nil => exact List.nodup_nil
  | append_singleton l a ih =>
      have hl : (l.map name).Nodup := ih fun before b behind hsplit =>
        h before b (behind ++ [a]) (by simp [hsplit])
      rw [List.map_append, List.map_singleton, List.nodup_append]
      refine ⟨hl, List.nodup_singleton _, ?_⟩
      rintro key hkey _ hlast rfl
      exact h l a [] rfl (List.mem_singleton.mp hlast ▸ hkey)

/-- Where names are unique, the order of a list does not matter. -/
theorem find_perm (h : (l.map name).Nodup) (hperm : l.Perm l') (key : String) :
    l.find? (fun a => name a == key) = l'.find? fun a => name a == key := by
  have h' : (l'.map name).Nodup := (hperm.map name).nodup_iff.mp h
  refine Option.ext fun a => ?_
  rw [find_eq_some_iff h, find_eq_some_iff h', hperm.mem_iff]

/-- What has another name may be left out. -/
theorem find_filter {p : α → Bool} (h : ∀ a, name a = key → p a = true) :
    (l.filter p).find? (fun a => name a == key) = l.find? fun a => name a == key := by
  rw [List.find?_filter]
  refine congrArg (fun q => l.find? q) (funext fun a => ?_)
  by_cases ha : name a = key
  · simp [ha, h a ha]
  · simp [ha]

end RouteCompiler.Names
