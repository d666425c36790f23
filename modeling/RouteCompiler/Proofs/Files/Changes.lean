import RouteCompiler.Files.Access
import RouteCompiler.Proofs.Files.Places
import RouteCompiler.Proofs.Outcome

/-!
# What operations change

Every operation that changes files changes what is at some places, and leaves what is at the
others.  This module says which these are, whether the operation succeeds or fails.  What is
written, removed or moved stays at or below the places that the paths lead to; only the
directories above a path are made elsewhere.

Main definitions:

- `FileSystem.Removal`: what removing a directory leaves.
- `FileSystem.Confined`: what two file systems differ in is in a region, but for directories
  that were made where nothing was.

Main results:

- Theorems `of_write`, `of_makeDirectory`, `of_rename`: what an operation that succeeds changes.
- Theorem `removal`: a directory is removed, or only emptied, or left as it is.
- Theorems `node?_move_elsewhere`, `node?_move_below`: what is where after a move.
- Theorems `confined_write`, `confined_makeDirectories`, `confined_removeTree`,
  `confined_rename`: what operations change at most.
- Theorems `IsTree.settle_write`, `IsTree.makeDirectories`, `IsTree.removeTree`: trees stay trees.
-/

namespace RouteCompiler.FileSystem

open RouteCompiler.Path RouteCompiler.Text

variable {fs fs' fs'' : FileSystem} {path newPath content : String} {place source target p : Place}
  {node : FileNode} {fault : FileFault} {outcome : Except FileFault Unit}

/-! ## One place -/

theorem node?_put (h : place ≠ []) :
    (fs.put place node).node? p = if p = place then some node else fs.node? p := by
  by_cases hp : p = []
  · rw [hp, if_neg h.symm]
    rfl
  · rw [node?_of_ne_nil hp, node?_of_ne_nil hp, put, SortedMap.find_insert]

theorem node?_keep {test : Place → Bool} (h : test [] = true) :
    (fs.keep test).node? p = if test p = true then fs.node? p else none := by
  by_cases hp : p = []
  · rw [hp, if_pos h]
    rfl
  rw [node?_of_ne_nil hp, node?_of_ne_nil hp, keep]
  refine Option.ext fun node => ?_
  rw [SortedMap.find_eq_some_iff, List.mem_filter, ← SortedMap.find_eq_some_iff]
  by_cases htest : test p = true <;> simp [htest]

theorem locate_eq_ok : fs.locate path = .ok place ↔
    checkPath path = .ok () ∧ fs.walk (fs.start path) (Path.pieces path) = .ok place := by
  rw [locate]
  cases checkPath path <;> simp [bind, Except.bind]

/-- A path is located at its place. -/
theorem eq_placeOf_of_locate (h : fs.locate path = .ok place) : place = fs.placeOf path :=
  eq_follow_of_walk (locate_eq_ok.mp h).2

/-- A file is written at the end of a path that leads to a directory. -/
theorem exists_locateParent_of_write (h : fs.write path content = .ok fs') :
    ∃ directory value, fs.locateParent path = .ok (directory, .name value false) ∧
      fs.node? (directory ++ [String.ofList value]) ≠ some .directory ∧
      fs' = fs.put (directory ++ [String.ofList value]) (.file content) := by
  rw [write] at h
  obtain ⟨located, hparent, h⟩ := Outcome.of_bind_eq_ok h
  split at h
  swap
  · cases h
  next directory value =>
  dsimp only at h
  split at h
  · cases h
  next hnode => exact ⟨directory, value, hparent, hnode, (Except.ok.inj h).symm⟩

/-- A write changes the place of its path, which is in a directory and is no directory. -/
theorem of_write (h : fs.write path content = .ok fs') :
    fs.placeOf path ≠ [] ∧ fs.node? (fs.placeOf path).dropLast = some .directory ∧
      fs.node? (fs.placeOf path) ≠ some .directory ∧
      fs' = fs.put (fs.placeOf path) (.file content) := by
  obtain ⟨directory, value, hparent, hnode, rfl⟩ := exists_locateParent_of_write h
  rw [placeOf_of_locateParent hparent, List.dropLast_concat]
  exact ⟨by simp, (locateParent_eq_ok.mp hparent).2.2.2.1, hnode, rfl⟩

/-- A directory that is made has a name, and is in a directory, and nothing was where it is. -/
theorem of_makeDirectory (h : fs.makeDirectory path = .ok fs') :
    (∃ before value, segments path = before ++ [value] ∧ isTrivial value = false ∧
        value ≠ ['.', '.']) ∧
      fs.placeOf path ≠ [] ∧
      fs.node? (fs.placeOf path).dropLast = some .directory ∧
      fs.node? (fs.placeOf path) = none ∧ fs' = fs.put (fs.placeOf path) .directory := by
  rw [makeDirectory] at h
  obtain ⟨located, hparent, h⟩ := Outcome.of_bind_eq_ok h
  split at h
  swap
  · cases h
  next directory value slash =>
  dsimp only at h
  split at h
  · cases h
  next hnode =>
  obtain rfl := Except.ok.inj h
  rw [placeOf_of_locateParent hparent, List.dropLast_concat]
  obtain ⟨-, -, hlast, hdirectory, -⟩ := locateParent_eq_ok.mp hparent
  exact ⟨⟨_, value, segments_of_splitLast (Prod.ext rfl hlast)⟩, by simp, hdirectory,
    by simpa using hnode, rfl⟩

/-! ## Removing -/

theorem isPrefixOf_eq_decide : place.isPrefixOf p = decide (place <+: p) := by
  rw [Bool.eq_iff_iff, List.isPrefixOf_iff_prefix, decide_eq_true_iff]

/-- What removing a directory leaves. -/
inductive Removal (fs : FileSystem) (path : String) (outcome : Except FileFault Unit)
    (fs' : FileSystem) : Prop
  /-- All, if the directory is not found, or is none. -/
  | untouched {fault : FileFault} (hfault : outcome = .error fault)
      (hcause : fs.locate path = .error fault ∨ fault = .notDirectory) (hsame : fs' = fs)
  /-- Nothing below it, if its path ends in dots. -/
  | emptied {fault : FileFault} (hfault : outcome = .error fault) (hcause : fault ≠ .notFound)
      (hlast : ∀ value slash, (splitLast path).2 ≠ .name value slash)
      (hlocate : fs.locate path = .ok (fs.placeOf path))
      (hdirectory : fs.node? (fs.placeOf path) = some .directory)
      (hstart : fs'.workingDirectory = fs.workingDirectory)
      (hnodes : ∀ p, fs'.node? p =
        if fs.placeOf path <+: p ∧ p ≠ fs.placeOf path then none else fs.node? p)
  /-- Neither it nor anything below it. -/
  | removed (hok : outcome = .ok ()) (hplace : fs.placeOf path ≠ [])
      (hlocate : fs.locate path = .ok (fs.placeOf path))
      (hdirectory : fs.node? (fs.placeOf path) = some .directory)
      (hstart : fs'.workingDirectory = fs.workingDirectory)
      (hnodes : ∀ p, fs'.node? p = if fs.placeOf path <+: p then none else fs.node? p)

theorem node?_emptied :
    (fs.keep fun p => p == place || !place.isPrefixOf p).node? p =
      if place <+: p ∧ p ≠ place then none else fs.node? p := by
  rw [node?_keep (by cases place <;> rfl), isPrefixOf_eq_decide]
  by_cases hbelow : place <+: p <;> by_cases hp : p = place <;> simp [hbelow, hp]

theorem removal (fs : FileSystem) (path : String) :
    Removal fs path (fs.removeTree path).1 (fs.removeTree path).2 := by
  rw [removeTree]
  cases hlocate : fs.locate path with
  | error fault => exact .untouched rfl (.inl hlocate) rfl
  | ok located =>
      obtain rfl := eq_placeOf_of_locate hlocate
      dsimp only
      split
      swap
      · exact .untouched rfl (.inr rfl) rfl
      next hdirectory =>
      split
      · next value slash hlast =>
        have hplace : fs.placeOf path ≠ [] := by
          rw [placeOf_of_splitLast (Prod.ext rfl hlast)]
          simp
        refine .removed rfl hplace hlocate hdirectory rfl fun p => ?_
        rw [node?_keep (by simpa using hplace.symm), node?_emptied]
        by_cases hp : p = fs.placeOf path <;> simp [hp]
      · next hlast =>
        refine .emptied rfl ?_ (fun _ _ hname => nomatch hlast.symm.trans hname) hlocate hdirectory
          rfl fun _ => node?_emptied
        split <;> simp
      · next hlast =>
        exact .emptied rfl (by simp) (fun _ _ hname => nomatch hlast.symm.trans hname) hlocate
          hdirectory rfl fun _ => node?_emptied

/-- What is there after a removal that succeeds. -/
theorem node?_removeTree_of_ok (h : (fs.removeTree path).1 = .ok ()) :
    (fs.removeTree path).2.node? p = if fs.placeOf path <+: p then none else fs.node? p := by
  cases removal fs path with
  | untouched hfault | emptied hfault => exact nomatch h.symm.trans hfault
  | removed hok hplace hlocate hdirectory hstart hnodes => exact hnodes p

/-- Removing a directory removes all files in it, or nothing. -/
theorem files_of_removeTree : (fs.removeTree path).2 = fs ∨
    NoFilesAt (fs.placeOf path) (fs.removeTree path).2 ∧
      SameFilesBut [fs.placeOf path] fs (fs.removeTree path).2 := by
  cases removal fs path with
  | untouched hfault hcause hsame => exact .inl hsame
  | emptied hfault hcause hlast hlocate hdirectory hstart hnodes =>
      refine .inr ⟨fun p hp => ?_, fun p hp => file?_congr ?_⟩
      · rw [file?, hnodes]
        by_cases heq : p = fs.placeOf path
        · rw [if_neg fun h => h.2 heq, heq, hdirectory]
        · rw [if_pos ⟨hp, heq⟩]
      · rw [hnodes, if_neg fun h => hp _ List.mem_cons_self h.1]
  | removed hok hplace hlocate hdirectory hstart hnodes =>
      refine .inr ⟨fun p hp => ?_, fun p hp => file?_congr ?_⟩
      · rw [file?, hnodes, if_pos hp]
      · rw [hnodes, if_neg (hp _ List.mem_cons_self)]

/-- A directory that is not found leads to nothing, or is not looked for. -/
theorem of_removeTree_notFound (hpath : path ≠ "")
    (h : (fs.removeTree path).1 = .error .notFound) : checkPath path = .ok () ∧
      fs.walk (fs.start path) (Path.pieces path) = .error .notFound ∧
      (fs.removeTree path).2 = fs := by
  have hlocate : fs.locate path = .error .notFound ∧ (fs.removeTree path).2 = fs := by
    cases removal fs path with
    | untouched hfault hcause hsame =>
        obtain rfl := Except.error.inj (h.symm.trans hfault)
        exact ⟨hcause.resolve_right (by simp), hsame⟩
    | emptied hfault hcause => exact absurd (Except.error.inj (hfault.symm.trans h)) hcause
    | removed hok => exact nomatch h.symm.trans hok
  obtain ⟨hlocate, hsame⟩ := hlocate
  rw [locate] at hlocate
  cases hcheck : checkPath path with
  | ok =>
      rw [hcheck] at hlocate
      exact ⟨rfl, hlocate, hsame⟩
  | error fault =>
      rw [hcheck] at hlocate
      obtain rfl : fault = .notFound := Except.error.inj hlocate
      rw [checkPath] at hcheck
      split at hcheck
      · cases hcheck
      rw [if_neg (by simpa using hpath)] at hcheck
      split at hcheck <;> cases hcheck

/-- A removal that succeeds, or does not find the directory, has looked for it. -/
theorem checkPath_of_removeTree (hpath : path ≠ "")
    (h : (fs.removeTree path).1 = .ok () ∨ (fs.removeTree path).1 = .error .notFound) :
    checkPath path = .ok () := by
  rcases h with hok | hmissing
  · cases removal fs path with
    | untouched hfault | emptied hfault => exact nomatch hok.symm.trans hfault
    | removed hok hplace hlocate => exact (locate_eq_ok.mp hlocate).1
  · exact (of_removeTree_notFound hpath hmissing).1

/-! ## Moving -/

theorem movedPlace_below (names : List String) :
    movedPlace source target (source ++ names) = target ++ names := by
  simp [movedPlace]

theorem movedPlace_elsewhere (h : ¬ source <+: p) : movedPlace source target p = p := by
  rw [movedPlace, isPrefixOf_eq_decide, if_neg (by simpa using h)]

/-- What is at a place after a move was at a place that has moved there. -/
theorem mem_entries_of_move (hp : p ≠ []) (h : (fs.move source target).node? p = some node) :
    ∃ q, movedPlace source target q = p ∧ (q, node) ∈ fs.nodes.entries := by
  rw [node?_of_ne_nil hp] at h
  obtain ⟨⟨q, moved⟩, hmem, heq⟩ := List.mem_map.mp (SortedMap.mem_of_find_ofList h)
  obtain ⟨hplace, rfl⟩ := Prod.mk.inj heq
  exact ⟨q, hplace, hmem⟩

/-- Where only one place has moved to a place, what was there is here. -/
theorem node?_move_of_unique {q : Place} (hp : p ≠ []) (hq : q ≠ [])
    (hmoved : movedPlace source target q = p)
    (hunique : ∀ r node, (r, node) ∈ fs.nodes.entries → movedPlace source target r = p → r = q) :
    (fs.move source target).node? p = fs.node? q := by
  rw [node?_of_ne_nil hq]
  refine Option.ext fun node => ?_
  constructor
  · intro h
    obtain ⟨r, hr, hmem⟩ := mem_entries_of_move hp h
    exact SortedMap.find_eq_some_iff.mpr (hunique r node hmem hr ▸ hmem)
  · intro h
    rw [node?_of_ne_nil hp]
    refine SortedMap.find_ofList_eq_some ?_ fun other hother => ?_
    · exact List.mem_map.mpr ⟨(q, node), SortedMap.find_eq_some_iff.mp h, by rw [hmoved]⟩
    · obtain ⟨⟨r, moved⟩, hmem, heq⟩ := List.mem_map.mp hother
      obtain ⟨hr, rfl⟩ := Prod.mk.inj heq
      rw [hunique r moved hmem hr, ← SortedMap.find_eq_some_iff, h] at hmem
      exact (Option.some.inj hmem).symm

/-- After a move, what is outside of its target was there before, and was not moved. -/
theorem node?_move_elsewhere (hsource : source ≠ []) (h : ¬ target <+: p) :
    (fs.move source target).node? p = if source <+: p then none else fs.node? p := by
  by_cases hp : p = []
  · subst hp
    rw [if_neg (by simpa using hsource)]
    rfl
  have hstays : ∀ q, movedPlace source target q = p → ¬ source <+: q := by
    rintro q hq ⟨names, rfl⟩
    rw [movedPlace_below] at hq
    exact h (hq ▸ List.prefix_append ..)
  split
  · next hbelow =>
    rw [Option.eq_none_iff_forall_ne_some]
    intro node hnode
    obtain ⟨q, hq, -⟩ := mem_entries_of_move hp hnode
    have hq' := hq
    rw [movedPlace_elsewhere (hstays q hq)] at hq'
    exact hstays q hq (hq' ▸ hbelow)
  · next helsewhere =>
    refine node?_move_of_unique hp hp (movedPlace_elsewhere helsewhere) fun r _ _ hr => ?_
    rwa [movedPlace_elsewhere (hstays r hr)] at hr

/-- After a move, what was below its source is below its target, if nothing was there. -/
theorem node?_move_below (hsource : source ≠ []) (htarget : target ≠ [])
    (hempty : ∀ q, target <+: q → fs.node? q = none) (names : List String) :
    (fs.move source target).node? (target ++ names) = fs.node? (source ++ names) := by
  refine node?_move_of_unique (by simp [htarget]) (by simp [hsource])
    (movedPlace_below names) fun r node hmem hr => ?_
  by_cases hbelow : source <+: r
  · obtain ⟨others, rfl⟩ := hbelow
    rw [movedPlace_below] at hr
    rw [List.append_cancel_left hr]
  · rw [movedPlace_elsewhere hbelow] at hr
    have hnone := hempty r (hr ▸ List.prefix_append ..)
    rw [node?_of_ne_nil (by simp [hr, htarget]), SortedMap.find_eq_some_iff.mpr hmem] at hnone
    cases hnone

/-- Both paths of a renaming that succeeds lead to directories and end in names. -/
theorem exists_locateParent_of_rename (h : fs.rename path newPath = .ok fs') :
    ∃ source value slash target newValue newSlash,
      fs.locateParent path = .ok (source, .name value slash) ∧
        fs.locateParent newPath = .ok (target, .name newValue newSlash) := by
  rw [rename] at h
  obtain ⟨located, hsource, h⟩ := Outcome.of_bind_eq_ok h
  obtain ⟨newLocated, htarget, h⟩ := Outcome.of_bind_eq_ok h
  split at h
  · exact ⟨_, _, _, _, _, _, hsource, htarget⟩
  · cases h

/-- What a renaming that succeeds changes. -/
theorem of_rename (h : fs.rename path newPath = .ok fs') :
    fs.node? (fs.placeOf path) ≠ none ∧ (fs.placeOf path = fs.placeOf newPath ∧ fs' = fs ∨
    fs.placeOf path ≠ [] ∧ fs.placeOf newPath ≠ [] ∧ ¬ fs.placeOf path <+: fs.placeOf newPath ∧
      fs' = (fs.keep (· != fs.placeOf newPath)).move (fs.placeOf path) (fs.placeOf newPath)) := by
  obtain ⟨source, value, slash, target, newValue, newSlash, hsource, htarget⟩ :=
    exists_locateParent_of_rename h
  rw [placeOf_of_locateParent hsource, placeOf_of_locateParent htarget]
  rw [rename] at h
  simp only [hsource, htarget, bind, Except.bind] at h
  split at h
  · cases h
  next node hnode =>
  refine ⟨by simp [hnode], ?_⟩
  split at h
  · cases h
  split at h
  · next heq => exact .inl ⟨heq, (Except.ok.inj h).symm⟩
  next hne =>
  split at h
  · cases h
  next houtside =>
  split at h
  · cases h
  obtain rfl := Except.ok.inj h
  refine .inr ⟨by simp, by simp, ?_, rfl⟩
  simpa [isPrefixOf_eq_decide] using houtside

/-- A renaming to a place that is not below the first moves what is there. -/
theorem of_rename_outside (h : fs.rename path newPath = .ok fs')
    (houtside : ¬ fs.placeOf path <+: fs.placeOf newPath) :
    fs.placeOf path ≠ [] ∧ fs.placeOf newPath ≠ [] ∧
      fs' = (fs.keep (· != fs.placeOf newPath)).move (fs.placeOf path) (fs.placeOf newPath) := by
  rcases (of_rename h).2 with ⟨heq, -⟩ | ⟨hsource, htarget, -, hmoved⟩
  · rw [heq] at houtside
    exact absurd List.prefix_rfl houtside
  · exact ⟨hsource, htarget, hmoved⟩

/-- A directory can be given a path at which nothing is. -/
theorem rename_eq_ok {sourceParent targetParent : Place} {value newValue : List Char}
    {slash newSlash : Bool}
    (hsource : fs.locateParent path = .ok (sourceParent, .name value slash))
    (htarget : fs.locateParent newPath = .ok (targetParent, .name newValue newSlash))
    (hdirectory : fs.node? (fs.placeOf path) = some .directory)
    (hfree : fs.node? (fs.placeOf newPath) = none)
    (houtside : ¬ fs.placeOf path <+: fs.placeOf newPath) :
    fs.rename path newPath =
      .ok ((fs.keep (· != fs.placeOf newPath)).move (fs.placeOf path) (fs.placeOf newPath)) := by
  rw [placeOf_of_locateParent hsource, placeOf_of_locateParent htarget] at *
  have hne : sourceParent ++ [String.ofList value] ≠ targetParent ++ [String.ofList newValue] :=
    fun heq => houtside (heq ▸ List.prefix_rfl)
  simp [rename, hsource, htarget, bind, Except.bind, hdirectory, isPrefixOf_eq_decide,
    checkTarget, hfree, houtside, hne]

/-! ## Confined changes -/

/-- Two file systems differ in a region only, but for directories that were made elsewhere, at
places where they may be made. -/
structure Confined (region allowed : Place → Prop) (fs fs' : FileSystem) : Prop where
  workingDirectory_eq : fs'.workingDirectory = fs.workingDirectory
  node?_eq : ∀ p, ¬ region p → fs'.node? p = fs.node? p ∨
    allowed p ∧ fs.node? p = none ∧ fs'.node? p = some .directory

namespace Confined

variable {region region' allowed allowed' : Place → Prop}

theorem refl : Confined region allowed fs fs :=
  ⟨rfl, fun _ _ => .inl rfl⟩

theorem trans (h : Confined region allowed fs fs') (h' : Confined region allowed fs' fs'') :
    Confined region allowed fs fs'' := by
  refine ⟨h'.workingDirectory_eq.trans h.workingDirectory_eq, fun p hp => ?_⟩
  rcases h'.node?_eq p hp with hlater | ⟨hallowed, hnone, hmade⟩
  · rw [hlater]
    exact h.node?_eq p hp
  · rcases h.node?_eq p hp with hearlier | ⟨-, -, hearlier⟩
    · exact .inr ⟨hallowed, hearlier ▸ hnone, hmade⟩
    · rw [hearlier] at hnone
      cases hnone

theorem mono (h : Confined region allowed fs fs') (hregion : ∀ p, region p → region' p)
    (hallowed : ∀ p, allowed p → region' p ∨ allowed' p) : Confined region' allowed' fs fs' := by
  refine ⟨h.workingDirectory_eq, fun p hp => ?_⟩
  rcases h.node?_eq p (mt (hregion p) hp) with hsame | ⟨hmay, hmade⟩
  · exact .inl hsame
  · exact .inr ⟨(hallowed p hmay).resolve_left hp, hmade⟩

/-- Outside of the region files stay as they are. -/
theorem file?_eq (h : Confined region allowed fs fs') (hp : ¬ region p) :
    fs'.file? p = fs.file? p := by
  rcases h.node?_eq p hp with hsame | ⟨-, hnone, hmade⟩
  · exact file?_congr hsame
  · rw [file?, file?, hnone, hmade]

theorem sameFilesBut {places : List Place} (h : Confined region allowed fs fs')
    (hregion : ∀ p, region p → ∃ place ∈ places, place <+: p) : SameFilesBut places fs fs' := by
  refine fun p hp => h.file?_eq fun hin => ?_
  obtain ⟨place, hplace, hbelow⟩ := hregion p hin
  exact hp place hplace hbelow

/-- Where no directory may be made, all outside of the region stays as it is. -/
theorem node?_eq_of_not_allowed (h : Confined region allowed fs fs') (hp : ¬ region p)
    (hallowed : ¬ allowed p) : fs'.node? p = fs.node? p :=
  (h.node?_eq p hp).resolve_right fun hmade => hallowed hmade.1

theorem isGrown (h : Confined region allowed fs fs') (hp : ¬ region p) : IsGrown fs fs' p :=
  (h.node?_eq p hp).imp_right fun hmade => hmade.2

/-- A path descends from the same place still, if it does not lead through the region. -/
theorem descendsFrom (h : Confined region allowed fs fs') (hpath : fs.DescendsFrom path place)
    (houtside : ∀ p, region p → ¬ fs.Crosses path p) : fs'.DescendsFrom path place := by
  obtain ⟨before, rest, hsegments, hdots, hwalk⟩ := hpath
  refine ⟨before, rest, hsegments, hdots, ?_⟩
  rw [start_congr h.workingDirectory_eq]
  refine walk_of_kept hwalk fun front hfront hnode => (h.isGrown fun hin => ?_).eq hnode
  refine houtside _ hin ⟨front, ?_, List.prefix_rfl⟩
  rw [hsegments]
  exact hfront.trans (List.prefix_append ..)

end Confined

theorem confined_put (hplace : place ≠ []) :
    Confined (· = place) (fun _ => False) fs (fs.put place node) := by
  refine ⟨rfl, fun p hp => .inl ?_⟩
  rw [node?_put hplace, if_neg hp]

/-- A write changes the place of its path. -/
theorem confined_write :
    Confined (· = fs.placeOf path) (fun _ => False) fs (fs.settle (fs.write path content)).2 := by
  cases hwrite : fs.write path content with
  | error fault => exact .refl
  | ok fs' =>
      obtain ⟨hplace, -, -, rfl⟩ := of_write hwrite
      exact confined_put hplace

/-- Making directories is making one after another, each at a path above the next. -/
theorem makeDirectories_induct {R : FileSystem → FileSystem → Prop} {P : String → Prop}
    (hrefl : ∀ fs, R fs fs) (htrans : ∀ fs fs' fs'', R fs fs' → R fs' fs'' → R fs fs'')
    (hmake : ∀ fs fs' path, P path → fs.makeDirectory path = .ok fs' → R fs fs')
    (hparent : ∀ path above, P path → parent? path = some above → P above)
    (hpath : P path) : R fs (fs.makeDirectories path).2 := by
  rw [makeDirectories]
  generalize (Path.pieces path).length = steps
  fun_induction makeDirectoriesWithin steps fs path with
  | case1 | case6 | case7 => exact hrefl _
  | case2 _ fs path _ fs' hmade => exact hmake fs fs' path hpath hmade
  | case3 fs path _ _ steps above habove fault fs' hrest ih =>
      simpa only [hrest] using ih (hparent path above hpath habove)
  | case5 fs path _ _ steps above habove fs' hrest _ _ ih =>
      simpa only [hrest] using ih (hparent path above hpath habove)
  | case4 fs path _ _ steps above habove fs₁ hrest fs₂ hmade ih =>
      have hfirst : R fs fs₁ := by
        simpa only [hrest] using ih (hparent path above hpath habove)
      exact htrans fs fs₁ fs₂ hfirst (hmake fs₁ fs₂ path hpath hmade)

/-- Where the directories above a path may be made: if the path descends from a place, on the
way from there. -/
def Above (fs : FileSystem) (path : String) (p : Place) : Prop :=
  ∀ place, fs.DescendsFrom path place → p <+: fs.placeOf path ∧ ¬ p <+: place

/-- A directory that is made for a path is on the way from where the path descends: what is met
before is there. -/
theorem above_of_makeDirectory {above : String}
    (hgrown : Confined (fun _ => False) (fs.Above path) fs fs')
    (hmade : fs'.makeDirectory above = .ok fs'') (hbegin : isAbsolute above = isAbsolute path)
    (habove : segments above <+: segments path) : fs.Above path (fs'.placeOf above) := by
  rintro place ⟨before, rest, hsegments, hdots, hwalk⟩
  obtain ⟨⟨front, value, hlast, htrivial, hname⟩, -, -, hnone, -⟩ := of_makeDirectory hmade
  have hstart : fs'.start above = fs.start path := by
    rw [start, start, hbegin, hgrown.workingDirectory_eq]
  rw [placeOf_eq_follow_segments, hstart] at hnone ⊢
  have hnew : ¬ segments above <+: before := by
    rintro ⟨others, rfl⟩
    rw [hlast, walk_append_eq_ok] at hwalk
    obtain ⟨middle, hmiddle, -⟩ := hwalk
    obtain ⟨directory, hfront, hstep⟩ := walk_append_eq_ok.mp hmiddle
    obtain ⟨⟨-, hnext⟩, -⟩ := walk_cons_eq_ok.mp hstep
    obtain ⟨-, hnode⟩ := hnext htrivial hname
    have hstepped (place : Place) : step place value = follow place [value] := rfl
    rw [eq_follow_of_walk hfront, hstepped, ← follow_append, ← hlast] at hnode
    rw [(hgrown.isGrown not_false).eq (Option.isSome_iff_ne_none.mp hnode)] at hnone
    simp [hnone] at hnode
  rw [hsegments] at habove
  obtain ⟨more, hmore⟩ :=
    (List.prefix_or_prefix_of_prefix habove (List.prefix_append ..)).resolve_left hnew
  rw [← hmore, List.prefix_append_right_inj] at habove
  have hmoreDots : ['.', '.'] ∉ more := fun hmem => hdots (habove.subset hmem)
  rw [← hmore, follow_append, ← eq_follow_of_walk hwalk, placeOf_eq_follow_segments, hsegments,
    follow_append, ← eq_follow_of_walk hwalk, follow_of_descends hmoreDots,
    follow_of_descends hdots, List.prefix_append_right_inj]
  refine ⟨(habove.filter _).map _, fun hshort => hnew ?_⟩
  have hnames : more.filter (fun piece => !isTrivial piece) = more := by
    refine List.filter_eq_self.mpr fun piece hpiece => ?_
    simp [(mem_segments.mp (hmore ▸ List.mem_append_right before hpiece)).2]
  have hlength := hshort.length_le
  rw [hnames, List.length_append, List.length_map] at hlength
  obtain rfl := List.eq_nil_of_length_eq_zero (by omega : more.length = 0)
  have hsame : segments above = before := by rw [← hmore, List.append_nil]
  exact hsame ▸ List.prefix_rfl

/-- Directories are made where nothing was, on the way to the place of a path. -/
theorem confined_makeDirectories (fs : FileSystem) (path : String) :
    Confined (fun _ => False) (fs.Above path) fs (fs.makeDirectories path).2 := by
  refine makeDirectories_induct
    (R := fun fs₁ fs₂ => Confined (fun _ => False) (fs.Above path) fs fs₁ →
      Confined (fun _ => False) (fs.Above path) fs fs₂)
    (P := fun q => isAbsolute q = isAbsolute path ∧ segments q <+: segments path)
    (fun _ => id) (fun _ _ _ h h' => h' ∘ h) (fun fs₁ fs₂ q hq hmade hgrown => ?_)
    (fun q above hq habove => ?_) ⟨rfl, List.prefix_rfl⟩ .refl
  · have hallowed := above_of_makeDirectory hgrown hmade hq.1 hq.2
    obtain ⟨-, hplace, -, hnone, rfl⟩ := of_makeDirectory hmade
    refine hgrown.trans ⟨rfl, fun p _ => ?_⟩
    rw [node?_put hplace]
    split
    · next hp =>
      subst hp
      exact .inr ⟨hallowed, hnone, rfl⟩
    · exact .inl rfl
  · obtain ⟨hsegments, hbegin⟩ := segments_parent habove
    exact ⟨hbegin.trans hq.1, hsegments ▸ (List.dropLast_prefix _).trans hq.2⟩

/-- Removing a directory changes nothing but it and what is below it. -/
theorem confined_removeTree (fs : FileSystem) (path : String) :
    Confined (fs.placeOf path <+: ·) (fun _ => False) fs (fs.removeTree path).2 := by
  cases removal fs path with
  | untouched hfault hcause hsame =>
      rw [hsame]
      exact .refl
  | emptied hfault hcause hlast hlocate hdirectory hstart hnodes =>
      refine ⟨hstart, fun p hp => .inl ?_⟩
      rw [hnodes, if_neg fun h => hp h.1]
  | removed hok hplace hlocate hdirectory hstart hnodes =>
      refine ⟨hstart, fun p hp => .inl ?_⟩
      rw [hnodes, if_neg hp]

/-- A renaming changes nothing but its two places and what is below them. -/
theorem confined_rename (h : fs.rename path newPath = .ok fs') :
    Confined (fun p => fs.placeOf path <+: p ∨ fs.placeOf newPath <+: p) (fun _ => False) fs
      fs' := by
  rcases (of_rename h).2 with ⟨-, rfl⟩ | ⟨hsource, htarget, -, rfl⟩
  · exact .refl
  refine ⟨rfl, fun p hp => .inl ?_⟩
  obtain ⟨hsource', htarget'⟩ := not_or.mp hp
  have hp : p ≠ fs.placeOf newPath := fun heq => htarget' (heq ▸ List.prefix_rfl)
  rw [node?_move_elsewhere hsource htarget', if_neg hsource',
    node?_keep (by simpa using htarget.symm), if_pos (by simpa using hp)]

/-! ## Trees -/

theorem IsTree.put (hfs : fs.IsTree) (hplace : place ≠ [])
    (hparent : fs.node? place.dropLast = some .directory)
    (hnode : node = .directory ∨ fs.node? place ≠ some .directory) :
    (fs.put place node).IsTree := by
  intro p other hp
  have hshorter : place ≠ place.dropLast := fun heq => by
    have hlength := congrArg List.length heq
    have hpos := List.length_pos_iff.mpr hplace
    rw [List.length_dropLast] at hlength
    omega
  rw [node?_put hplace] at hp ⊢
  by_cases habove : p.dropLast = place
  · rw [if_pos habove]
    rcases hnode with rfl | hnode
    · rfl
    · rw [if_neg fun heq => hshorter (habove.symm.trans (congrArg _ heq))] at hp
      exact absurd (habove ▸ hfs p other hp) hnode
  · rw [if_neg habove]
    split at hp
    · next heq => rw [heq, hparent]
    · exact hfs p other hp

theorem IsTree.settle_write (hfs : fs.IsTree) :
    (fs.settle (fs.write path content)).2.IsTree := by
  cases hwrite : fs.write path content with
  | error fault => exact hfs
  | ok fs' =>
      obtain ⟨hplace, hparent, hnode, rfl⟩ := of_write hwrite
      exact hfs.put hplace hparent (.inr hnode)

theorem IsTree.makeDirectories (hfs : fs.IsTree) : (fs.makeDirectories path).2.IsTree := by
  refine makeDirectories_induct (R := fun fs fs' => fs.IsTree → fs'.IsTree) (P := fun _ => True)
    (fun _ => id) (fun _ _ _ h h' => h' ∘ h) (fun fs fs' q _ hmade hfs => ?_)
    (fun _ _ _ _ => trivial) trivial hfs
  obtain ⟨-, hplace, hparent, -, rfl⟩ := of_makeDirectory hmade
  exact hfs.put hplace hparent (.inl rfl)

theorem IsTree.removeTree (hfs : fs.IsTree) : (fs.removeTree path).2.IsTree := by
  cases removal fs path with
  | untouched hfault hcause hsame => rwa [hsame]
  | emptied hfault hcause hlast hlocate hdirectory hstart hnodes =>
      intro p node hp
      rw [hnodes] at hp ⊢
      split at hp
      · cases hp
      next hkept =>
      rw [if_neg, hfs p node hp]
      rintro ⟨habove, hne⟩
      have hp : p = fs.placeOf path := by
        by_contra hother
        exact hkept ⟨habove.trans (List.dropLast_prefix p), hother⟩
      rw [← hp] at habove hne
      exact hne (habove.eq_of_length_le (by simp)).symm
  | removed hok hplace hlocate hdirectory hstart hnodes =>
      intro p node hp
      rw [hnodes] at hp ⊢
      split at hp
      · cases hp
      next hkept =>
      rw [if_neg fun habove => hkept (habove.trans (List.dropLast_prefix p)), hfs p node hp]

/-- What is read at a path in a tree stays the same where the path does not lead through the
region of the changes, and the directories that were made lead only a part of the way. -/
theorem IsTree.read_of_confined {region allowed : Place → Prop} (hfs : fs.IsTree)
    (hconfined : Confined region allowed fs fs') (hpath : fs.DescendsFrom path place)
    (hlength : ∀ piece ∈ Path.pieces path, byteLength piece ≤ maxNameLength)
    (houtside : ∀ p, region p → ¬ fs.Crosses path p) (hplace : ¬ allowed place)
    (hend : ¬ allowed (fs.placeOf path)) : fs'.read path = fs.read path := by
  obtain ⟨before, rest, hsegments, hdots, hwalk⟩ := hpath
  have hfree (front) (hfront : front <+: segments path) :
      ¬ region (follow (fs.start path) front) :=
    fun hin => houtside _ hin ⟨front, hfront, List.prefix_rfl⟩
  have hbefore : before <+: segments path := by
    rw [hsegments]
    exact List.prefix_append ..
  have hkept : fs'.node? (fs.placeOf path) = fs.node? (fs.placeOf path) := by
    refine hconfined.node?_eq_of_not_allowed ?_ hend
    rw [placeOf_eq_follow_segments]
    exact hfree _ List.prefix_rfl
  have hmiddle : fs'.node? place = fs.node? place := by
    refine hconfined.node?_eq_of_not_allowed ?_ hplace
    rw [eq_follow_of_walk hwalk]
    exact hfree _ hbefore
  have hsame : fs'.walk (fs.start path) (Path.pieces path) =
      fs.walk (fs.start path) (Path.pieces path) := by
    refine hfs.walk_of_grown_behind hsegments hdots hwalk hlength hmiddle hkept
      fun front hfront => hconfined.isGrown ?_
    rw [← follow_filter]
    exact hfree _ (hfront.filter _)
  have hlocate : fs'.locate path = fs.locate path := by
    rw [locate, locate, start_congr hconfined.workingDirectory_eq, hsame]
  rw [read, read, hlocate]
  cases hfound : fs.locate path with
  | error fault => rfl
  | ok place =>
      obtain rfl := eq_placeOf_of_locate hfound
      simp only [bind, Except.bind, hkept]

/-- In a tree nothing is left of a directory whose removal succeeded, or did not find it, if its
path descends from a place that it comes to. -/
theorem IsTree.node?_removeTree (hfs : fs.IsTree) (hdescends : fs.DescendsFrom path place)
    (hpath : path ≠ "")
    (h : (fs.removeTree path).1 = .ok () ∨ (fs.removeTree path).1 = .error .notFound)
    (hp : fs.placeOf path <+: p) : (fs.removeTree path).2.node? p = none := by
  rcases h with hok | hmissing
  · rw [node?_removeTree_of_ok hok, if_pos hp]
  · obtain ⟨-, hwalk, hsame⟩ := of_removeTree_notFound hpath hmissing
    rw [hsame]
    exact hfs.node?_below (hfs.node?_of_descendsFrom hdescends hwalk) hp

end RouteCompiler.FileSystem
