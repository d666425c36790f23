import RouteCompiler.Files.FileSystem
import RouteCompiler.Proofs.Files.Paths

/-!
# Where paths lead

A walk through a path looks at everything that it meets, so what a path leads to seems to
depend on all of it.  Only whether the walk arrives does.  The place can be read off the path:
this module does so, and says when the walk arrives there, in one file system or in another
that has kept the directories on the way.

Main definitions:

- `FileSystem.placeOf`: the place that a path leads to, if it can be walked through.
- `FileSystem.file?`: the content of the file at a place.
- `FileSystem.SameFilesBut`: two file systems have the same files, but for some places.
- `FileSystem.DescendsFrom`: a path comes to a place, and leads only downwards from there.
- `FileSystem.Crosses`: a walk through a path comes to a place, or below it.
- `FileSystem.IsTree`: whatever is at a place is in a directory.

Main results:

- Theorem `placeOf_join`: what is joined to a path leads on from its place.
- Theorem `eq_follow_of_walk`: a walk that arrives ends at the place read off its pieces.
- Theorem `walk_segments`: to reach a directory, pieces that separate nothing do not matter.
- Theorem `walk_of_kept`: a walk arrives again where everything that it meets is kept.
- Theorem `walk_of_grown`: where directories were made above a missing place, it is missing all
  the same.
- Theorem `placeOf_of_locateParent`: what is made at a path is made at its place.
-/

namespace RouteCompiler.FileSystem

open RouteCompiler.Path RouteCompiler.Text

variable {fs fs' : FileSystem} {path base above : String} {place target : Place}
  {piece value : List Char} {pieces before rest : List (List Char)}

/-! ## Places read off paths -/

/-- The place that a piece of a path leads to. -/
def step (place : Place) (piece : List Char) : Place :=
  if isTrivial piece then place
  else if piece = ['.', '.'] then place.dropLast
  else place ++ [String.ofList piece]

/-- The place that pieces lead to, one after another. -/
def follow (place : Place) (pieces : List (List Char)) : Place :=
  pieces.foldl step place

/-- The place that a path leads to, if it can be walked through. -/
def placeOf (fs : FileSystem) (path : String) : Place :=
  follow (fs.start path) (Path.pieces path)

@[simp] theorem follow_nil : follow place [] = place := rfl

@[simp] theorem follow_cons : follow place (piece :: rest) = follow (step place piece) rest := rfl

theorem follow_append : follow place (before ++ rest) = follow (follow place before) rest :=
  List.foldl_append

theorem step_of_isTrivial (h : isTrivial piece = true) : step place piece = place := by
  rw [step, if_pos h]

theorem step_of_name (h : isTrivial piece = false) (hdots : piece ≠ ['.', '.']) :
    step place piece = place ++ [String.ofList piece] := by
  rw [step, h, if_neg Bool.false_ne_true, if_neg hdots]

/-- Pieces that separate nothing lead nowhere. -/
theorem follow_filter :
    follow place (pieces.filter fun piece => !isTrivial piece) = follow place pieces := by
  induction pieces generalizing place with
  | nil => rfl
  | cons piece pieces ih =>
      by_cases hpiece : isTrivial piece = true
      · rw [List.filter_cons_of_neg (by simp [hpiece]), ih, follow_cons, step_of_isTrivial hpiece]
      · rw [List.filter_cons_of_pos (by simp [hpiece]), follow_cons, follow_cons, ih]

/-- Pieces that do not lead upwards lead to what they name. -/
theorem follow_of_descends (h : ['.', '.'] ∉ pieces) : follow place pieces =
    place ++ (pieces.filter fun piece => !isTrivial piece).map String.ofList := by
  induction pieces generalizing place with
  | nil => simp
  | cons piece pieces ih =>
      obtain ⟨hdots, hrest⟩ := not_or.mp (mt List.mem_cons.mpr h)
      rw [follow_cons, ih hrest]
      by_cases hpiece : isTrivial piece = true
      · rw [step_of_isTrivial hpiece, List.filter_cons_of_neg (by simp [hpiece])]
      · rw [step_of_name (by simpa using hpiece) (Ne.symm hdots),
          List.filter_cons_of_pos (by simp [hpiece]), List.map_cons, List.append_assoc,
          List.singleton_append]

theorem placeOf_eq_follow_segments :
    fs.placeOf path = follow (fs.start path) (segments path) :=
  follow_filter.symm

/-- A path that descends leads to what it names. -/
theorem placeOf_of_descends (h : Descends path) :
    fs.placeOf path = fs.start path ++ names path :=
  follow_of_descends h

theorem start_congr (h : fs'.workingDirectory = fs.workingDirectory) :
    fs'.start path = fs.start path := by
  rw [start, start, h]

/-- Where a path leads depends on nothing but where relative paths begin. -/
theorem placeOf_congr (h : fs'.workingDirectory = fs.workingDirectory) :
    fs'.placeOf path = fs.placeOf path := by
  rw [placeOf, placeOf, start_congr h]

/-- What is joined to a path leads on from its place. -/
theorem placeOf_join (habsolute : isAbsolute path = false) (h : Descends path) :
    fs.placeOf (join base path) = fs.placeOf base ++ names path := by
  have hstart : fs.start (join base path) = fs.start base := by
    rw [start, start, isAbsolute_join habsolute]
  have hdots : ['.', '.'] ∉ segments path := descends_iff.mp h
  rw [placeOf_eq_follow_segments, segments_join habsolute, follow_append, hstart,
    ← placeOf_eq_follow_segments, segments, follow_filter, follow_of_descends h]
  rfl

theorem start_of_extends (h : Extends base path) : fs.start path = fs.start base := by
  obtain ⟨-, -, -, habsolute⟩ := h
  rw [start, start, habsolute]

/-- What leads on from a path leads below its place. -/
theorem placeOf_of_extends (h : Extends base path) : fs.placeOf base <+: fs.placeOf path := by
  have hstart : fs.start path = fs.start base := start_of_extends h
  obtain ⟨rest, hsegments, hdots, -⟩ := h
  rw [placeOf_eq_follow_segments, placeOf_eq_follow_segments, hsegments, hstart, follow_append,
    follow_of_descends hdots]
  exact List.prefix_append ..

/-! ## Walking -/

/-- A walk can take a piece: there is a directory to look in, and what the piece names is
there. -/
def CanStep (fs : FileSystem) (place : Place) (piece : List Char) : Prop :=
  fs.node? place = some .directory ∧
    (isTrivial piece = false → piece ≠ ['.', '.'] →
      byteLength piece ≤ maxNameLength ∧ (fs.node? (step place piece)).isSome = true)

theorem walk_cons_eq_ok : fs.walk place (piece :: rest) = .ok target ↔
    fs.CanStep place piece ∧ fs.walk (step place piece) rest = .ok target := by
  rw [walk]
  by_cases hdirectory : fs.node? place = some .directory
  swap
  · simp [CanStep, hdirectory]
  rw [if_pos hdirectory]
  by_cases htrivial : isTrivial piece = true
  · rw [if_pos htrivial, step_of_isTrivial htrivial]
    simp [CanStep, hdirectory, htrivial]
  rw [if_neg htrivial]
  by_cases hdots : piece = ['.', '.']
  · rw [if_pos hdots]
    simp [CanStep, hdirectory, hdots, step, isTrivial]
  have hstep : step place piece = place ++ [String.ofList piece] :=
    step_of_name (by simpa using htrivial) hdots
  rw [if_neg hdots, hstep]
  by_cases hlength : maxNameLength < byteLength piece
  · simp [CanStep, htrivial, hdots, hlength, Nat.not_le.mpr hlength]
  rw [if_neg hlength]
  by_cases hnode : (fs.node? (place ++ [String.ofList piece])).isSome = true
  · simp [CanStep, hdirectory, hnode, hstep, Nat.not_lt.mp hlength]
  · simp [CanStep, htrivial, hdots, hnode, hstep]

theorem walk_append : fs.walk place (before ++ rest) =
    (fs.walk place before).bind fun middle => fs.walk middle rest := by
  induction before generalizing place with
  | nil => rfl
  | cons piece before ih =>
      simp only [List.cons_append, walk, ih]
      repeat' split
      all_goals rfl

theorem walk_append_eq_ok : fs.walk place (before ++ rest) = .ok target ↔
    ∃ middle, fs.walk place before = .ok middle ∧ fs.walk middle rest = .ok target := by
  rw [walk_append]
  cases fs.walk place before <;> simp [Except.bind]

/-- A walk that arrives ends at the place read off its pieces. -/
theorem eq_follow_of_walk (h : fs.walk place pieces = .ok target) :
    target = follow place pieces := by
  induction pieces generalizing place with
  | nil => exact (Except.ok.inj h).symm
  | cons piece pieces ih => exact ih (walk_cons_eq_ok.mp h).2

/-- A walk to a directory begins in one. -/
theorem node?_of_walk (h : fs.walk place pieces = .ok target)
    (htarget : fs.node? target = some .directory) : fs.node? place = some .directory := by
  cases pieces with
  | nil => exact Except.ok.inj h ▸ htarget
  | cons piece pieces => exact (walk_cons_eq_ok.mp h).1.1

/-- To reach a directory, pieces that separate nothing do not matter. -/
theorem walk_filter (htarget : fs.node? target = some .directory) :
    fs.walk place (pieces.filter fun piece => !isTrivial piece) = .ok target ↔
      fs.walk place pieces = .ok target := by
  induction pieces generalizing place with
  | nil => rfl
  | cons piece pieces ih =>
      by_cases hpiece : isTrivial piece = true
      · rw [List.filter_cons_of_neg (by simp [hpiece]), ih, walk_cons_eq_ok,
          step_of_isTrivial hpiece]
        refine ⟨fun h => ⟨⟨node?_of_walk h htarget, fun hnot => ?_⟩, h⟩, fun h => h.2⟩
        rw [hpiece] at hnot
        cases hnot
      · rw [List.filter_cons_of_pos (by simp [hpiece]), walk_cons_eq_ok, walk_cons_eq_ok, ih]

theorem walk_segments (htarget : fs.node? target = some .directory) :
    fs.walk place (segments path) = .ok target ↔
      fs.walk place (Path.pieces path) = .ok target :=
  walk_filter htarget

/-- Where a walk arrives after some of the pieces that separate something, it does so after
some of all pieces. -/
theorem exists_walk_front
    (hpieces : (pieces.filter fun piece => !isTrivial piece) = before ++ rest)
    (hwalk : fs.walk place before = .ok target) :
    ∃ front behind, pieces = front ++ behind ∧
      (behind.filter fun piece => !isTrivial piece) = rest ∧ fs.walk place front = .ok target := by
  induction pieces generalizing place before with
  | nil =>
      obtain ⟨rfl, rfl⟩ := List.append_eq_nil_iff.mp hpieces.symm
      exact ⟨[], [], rfl, rfl, hwalk⟩
  | cons piece pieces ih =>
      cases before with
      | nil => exact ⟨[], piece :: pieces, rfl, hpieces, hwalk⟩
      | cons first before =>
          obtain ⟨hcan, hwalks⟩ := walk_cons_eq_ok.mp hwalk
          by_cases htrivial : isTrivial piece = true
          · rw [List.filter_cons_of_neg (by simp [htrivial])] at hpieces
            obtain ⟨front, behind, rfl, hbehind, hfront⟩ := ih hpieces hwalk
            refine ⟨piece :: front, behind, rfl, hbehind, walk_cons_eq_ok.mpr ⟨⟨hcan.1, ?_⟩, ?_⟩⟩
            · intro hnot
              rw [htrivial] at hnot
              cases hnot
            · rw [step_of_isTrivial htrivial]
              exact hfront
          · rw [List.filter_cons_of_pos (by simp [htrivial])] at hpieces
            obtain ⟨rfl, hothers⟩ := List.cons.inj hpieces
            obtain ⟨front, behind, rfl, hbehind, hfront⟩ := ih hothers hwalks
            exact ⟨piece :: front, behind, rfl, hbehind, walk_cons_eq_ok.mpr ⟨hcan, hfront⟩⟩

/-- A walk through a joined path goes on where the first path leads. -/
theorem walk_join {name : String} (habsolute : isAbsolute name = false)
    (hwalk : fs.walk (fs.start base) (segments base) = .ok place)
    (hplace : fs.node? place = some .directory) :
    fs.walk (fs.start (join base name)) (Path.pieces (join base name)) =
      fs.walk place (Path.pieces name) := by
  obtain ⟨before, hpieces, hbefore⟩ := exists_pieces_join base habsolute
  have hstart : fs.start (join base name) = fs.start base := by
    rw [start, start, isAbsolute_join habsolute]
  rw [← hbefore, walk_filter hplace] at hwalk
  rw [hpieces, walk_append, hstart, hwalk, Except.bind]

/-- A walk takes a piece as before where that leads to what was there. -/
theorem walk_cons_congr (hplace : fs'.node? place = fs.node? place)
    (hnext : isTrivial piece = false → piece ≠ ['.', '.'] →
      fs'.node? (step place piece) = fs.node? (step place piece))
    (hrest : fs'.walk (step place piece) rest = fs.walk (step place piece) rest) :
    fs'.walk place (piece :: rest) = fs.walk place (piece :: rest) := by
  rw [walk, walk, hplace]
  by_cases htrivial : isTrivial piece = true
  · rw [step_of_isTrivial htrivial] at hrest
    rw [if_pos htrivial, if_pos htrivial, hrest]
  by_cases hdots : piece = ['.', '.']
  · rw [step, if_neg htrivial, if_pos hdots] at hrest
    rw [if_neg htrivial, if_neg htrivial, if_pos hdots, if_pos hdots, hrest]
  have hname : isTrivial piece = false := by simpa using htrivial
  have hnode := hnext hname hdots
  rw [step_of_name hname hdots] at hnode hrest
  simp only [hname, hdots, hnode, hrest, if_false, Bool.false_eq_true]

/-- A walk arrives again where everything that it meets is kept. -/
theorem walk_of_kept (h : fs.walk place pieces = .ok target)
    (hkept : ∀ before, before <+: pieces → fs.node? (follow place before) ≠ none →
      fs'.node? (follow place before) = fs.node? (follow place before)) :
    fs'.walk place pieces = .ok target := by
  induction pieces generalizing place with
  | nil => exact h
  | cons piece pieces ih =>
      obtain ⟨hcan, hwalk⟩ := walk_cons_eq_ok.mp h
      obtain ⟨hdirectory, hnext⟩ := hcan
      have hplace : fs'.node? place = fs.node? place :=
        hkept [] List.nil_prefix (by simp [hdirectory])
      refine walk_cons_eq_ok.mpr ⟨⟨hplace.trans hdirectory, fun htrivial hdots => ?_⟩,
        ih hwalk fun before hbefore =>
          hkept (piece :: before) (List.cons_prefix_cons.mpr ⟨rfl, hbefore⟩)⟩
      obtain ⟨hlength, hnode⟩ := hnext htrivial hdots
      have hsame : fs'.node? (step place piece) = fs.node? (step place piece) :=
        hkept [piece] ⟨pieces, rfl⟩ (Option.isSome_iff_ne_none.mp hnode)
      exact ⟨hlength, hsame ▸ hnode⟩

/-- Pieces that separate nothing do not matter either where something is not found. -/
theorem walk_filter_of_notFound (h : fs.walk place pieces = .error .notFound) :
    fs.walk place (pieces.filter fun piece => !isTrivial piece) = .error .notFound := by
  induction pieces generalizing place with
  | nil => cases h
  | cons piece pieces ih =>
      rw [walk] at h
      split at h
      swap
      · cases h
      next hdirectory =>
      by_cases htrivial : isTrivial piece = true
      · rw [if_pos htrivial] at h
        rw [List.filter_cons_of_neg (by simp [htrivial])]
        exact ih h
      rw [List.filter_cons_of_pos (by simp [htrivial]), walk, if_pos hdirectory, if_neg htrivial]
      rw [if_neg htrivial] at h
      split at h
      · next hdots =>
        rw [if_pos hdots]
        exact ih h
      next hdots =>
      rw [if_neg hdots]
      split at h
      · cases h
      next hlength =>
      rw [if_neg hlength]
      dsimp only at h ⊢
      split at h
      · next hnode =>
        rw [if_pos hnode]
        exact ih h
      · next hnode => rw [if_neg hnode]

/-- A walk arrives where nothing that it meets is missing. -/
theorem walk_mono (h : fs.walk place pieces = .ok target)
    (hdirectories : ∀ p, fs.node? p = some .directory → fs'.node? p = some .directory)
    (hnodes : ∀ p, (fs.node? p).isSome = true → (fs'.node? p).isSome = true) :
    fs'.walk place pieces = .ok target := by
  induction pieces generalizing place with
  | nil => exact h
  | cons piece pieces ih =>
      obtain ⟨⟨hplace, hnext⟩, hwalk⟩ := walk_cons_eq_ok.mp h
      refine walk_cons_eq_ok.mpr ⟨⟨hdirectories place hplace, fun htrivial hdots => ?_⟩, ih hwalk⟩
      exact ⟨(hnext htrivial hdots).1, hnodes _ (hnext htrivial hdots).2⟩

/-! ## Files -/

/-- The content of the file at a place. -/
def file? (fs : FileSystem) (place : Place) : Option String :=
  match fs.node? place with
  | some (.file content) => some content
  | _ => none

theorem file?_congr (h : fs'.node? place = fs.node? place) : fs'.file? place = fs.file? place := by
  rw [file?, file?, h]

/-! ## Ways -/

/-- A path comes to a place by a walk, and leads only downwards from there. -/
def DescendsFrom (fs : FileSystem) (path : String) (place : Place) : Prop :=
  ∃ before rest, segments path = before ++ rest ∧ ['.', '.'] ∉ rest ∧
    fs.walk (fs.start path) before = .ok place

/-- A walk through a path comes to a place, or below it. -/
def Crosses (fs : FileSystem) (path : String) (place : Place) : Prop :=
  ∃ before, before <+: segments path ∧ place <+: follow (fs.start path) before

/-- A path that descends does so from where it begins. -/
theorem descendsFrom_start (h : Descends path) : fs.DescendsFrom path (fs.start path) :=
  ⟨[], segments path, rfl, descends_iff.mp h, rfl⟩

/-- What leads on from a path descends from the same place. -/
theorem DescendsFrom.of_extends (h : fs.DescendsFrom base place) (hextends : Extends base path) :
    fs.DescendsFrom path place := by
  obtain ⟨before, rest, hbase, hdots, hwalk⟩ := h
  obtain ⟨more, hsegments, hmore, -⟩ := id hextends
  refine ⟨before, rest ++ more, ?_, ?_, start_of_extends hextends ▸ hwalk⟩
  · rw [hsegments, hbase, List.append_assoc]
  · rw [List.mem_append, not_or]
    exact ⟨hdots, hmore⟩

theorem crosses_congr (h : fs'.workingDirectory = fs.workingDirectory) :
    fs'.Crosses path place ↔ fs.Crosses path place := by
  rw [Crosses, Crosses, start_congr h]

theorem Crosses.mono {place' : Place} (h : fs.Crosses path place) (hplace : place' <+: place) :
    fs.Crosses path place' := by
  obtain ⟨before, hbefore, hbelow⟩ := h
  exact ⟨before, hbefore, hplace.trans hbelow⟩

/-- What a path leads through it leads through on the way to a path from which it leads on, or
to its own place. -/
theorem Crosses.of_extends (h : fs.Crosses path place) (hextends : Extends base path)
    (houtside : ¬ place <+: fs.placeOf path) : fs.Crosses base place := by
  obtain ⟨before, hbefore, hplace⟩ := h
  rw [start_of_extends hextends] at hplace
  obtain ⟨rest, hsegments, hdots, -⟩ := id hextends
  rw [hsegments] at hbefore
  rcases List.prefix_or_prefix_of_prefix hbefore (List.prefix_append ..) with hup | ⟨more, rfl⟩
  · exact ⟨before, hup, hplace⟩
  refine absurd (hplace.trans ?_) houtside
  obtain ⟨others, rfl⟩ := (List.prefix_append_right_inj _).mp hbefore
  rw [placeOf_eq_follow_segments, start_of_extends hextends, hsegments, ← List.append_assoc]
  generalize segments base ++ more = front
  rw [follow_append, follow_of_descends fun hmem => hdots (List.mem_append_right more hmem)]
  exact List.prefix_append ..

/-- A path that descends leads through nothing but what is above its place. -/
theorem Crosses.prefix_placeOf (h : fs.Crosses path place) (hdescends : Descends path) :
    place <+: fs.placeOf path := by
  obtain ⟨before, ⟨rest, hsegments⟩, hplace⟩ := h
  have hdots : ['.', '.'] ∉ rest := fun hmem =>
    descends_iff.mp hdescends (hsegments ▸ List.mem_append_right before hmem)
  rw [placeOf_eq_follow_segments, ← hsegments, follow_append, follow_of_descends hdots]
  exact hplace.trans (List.prefix_append ..)

/-! ## Trees -/

/-- Neither of two places is the other or above it. -/
def Separate (place other : Place) : Prop :=
  ¬ place <+: other ∧ ¬ other <+: place

/-- What is below one of two separate places is not below the other. -/
theorem Separate.not_prefix {other p : Place} (h : Separate place other) (hp : other <+: p) :
    ¬ place <+: p := fun hplace =>
  (List.prefix_or_prefix_of_prefix hplace hp).elim h.1 h.2

/-- Two file systems have the same files, but for those at or below some places. -/
def SameFilesBut (places : List Place) (fs fs' : FileSystem) : Prop :=
  ∀ p, (∀ place ∈ places, ¬ place <+: p) → fs'.file? p = fs.file? p

/-- No file is at a place or below it. -/
def NoFilesAt (place : Place) (fs : FileSystem) : Prop :=
  ∀ p, place <+: p → fs.file? p = none

theorem SameFilesBut.refl {places : List Place} : SameFilesBut places fs fs :=
  fun _ _ => rfl

/-- Whatever is at a place is in a directory. -/
def IsTree (fs : FileSystem) : Prop :=
  ∀ place node, fs.node? place = some node → fs.node? place.dropLast = some .directory

@[simp] theorem node?_nil : fs.node? [] = some .directory := rfl

theorem node?_of_ne_nil (h : place ≠ []) : fs.node? place = fs.nodes.find? place := by
  rw [node?, if_neg (by simpa using h)]

/-- To see that a file system is a tree its entries need to be looked at only. -/
theorem isTree_of_entries
    (h : ∀ entry ∈ fs.nodes.entries, fs.node? entry.1.dropLast = some .directory) :
    fs.IsTree := by
  intro place node hnode
  by_cases hplace : place = []
  · rw [hplace]
    rfl
  · rw [node?_of_ne_nil hplace] at hnode
    exact h _ (SortedMap.find_eq_some_iff.mp hnode)

/-- Below a place where nothing is, nothing is. -/
theorem IsTree.node?_below (hfs : fs.IsTree) (h : fs.node? place = none) {below : Place}
    (hbelow : place <+: below) : fs.node? below = none := by
  obtain ⟨names, rfl⟩ := hbelow
  induction names using List.reverseRecOn with
  | nil => simpa using h
  | append_singleton names name ih =>
      rw [Option.eq_none_iff_forall_ne_some]
      intro node hnode
      have hparent := hfs _ _ hnode
      rw [← List.append_assoc, List.dropLast_concat, ih] at hparent
      cases hparent

/-- Where a walk downwards finds something missing, its place is missing. -/
theorem IsTree.node?_of_notFound (hfs : fs.IsTree) (hdots : ['.', '.'] ∉ pieces)
    (h : fs.walk place pieces = .error .notFound) : fs.node? (follow place pieces) = none := by
  induction pieces generalizing place with
  | nil => cases h
  | cons piece pieces ih =>
      obtain ⟨hpiece, hrest⟩ := not_or.mp (mt List.mem_cons.mpr hdots)
      rw [walk] at h
      split at h
      swap
      · cases h
      rw [follow_cons]
      split at h
      · next htrivial =>
        rw [step_of_isTrivial htrivial]
        exact ih hrest h
      next htrivial =>
      rw [if_neg (Ne.symm hpiece)] at h
      rw [step_of_name (by simpa using htrivial) (Ne.symm hpiece)]
      split at h
      · cases h
      dsimp only at h
      split at h
      · exact ih hrest h
      · next hnode =>
        refine hfs.node?_below (by simpa using hnode) ?_
        rw [follow_of_descends hrest]
        exact List.prefix_append ..

/-- So it is where only the end of the walk leads downwards, from a place that it comes to. -/
theorem IsTree.node?_of_descendsFrom (hfs : fs.IsTree) (hpath : fs.DescendsFrom path place)
    (h : fs.walk (fs.start path) (Path.pieces path) = .error .notFound) :
    fs.node? (fs.placeOf path) = none := by
  obtain ⟨before, rest, hsegments, hdots, hwalk⟩ := hpath
  have hsegment : fs.walk (fs.start path) (segments path) = .error .notFound :=
    walk_filter_of_notFound h
  rw [hsegments, walk_append, hwalk] at hsegment
  rw [placeOf_eq_follow_segments, hsegments, follow_append, ← eq_follow_of_walk hwalk]
  exact hfs.node?_of_notFound hdots hsegment

/-- A walk downwards through directories does not find a place where nothing is. -/
theorem walk_of_missing (hdots : ['.', '.'] ∉ pieces)
    (hlength : ∀ piece ∈ pieces, byteLength piece ≤ maxNameLength)
    (hplace : fs.node? place = some .directory)
    (hmissing : fs.node? (follow place pieces) = none)
    (hway : ∀ before, before <+: pieces →
      fs.node? (follow place before) = none ∨ fs.node? (follow place before) = some .directory) :
    fs.walk place pieces = .error .notFound := by
  induction pieces generalizing place with
  | nil =>
      rw [follow_nil, hplace] at hmissing
      cases hmissing
  | cons piece pieces ih =>
      obtain ⟨hpiece, hrest⟩ := not_or.mp (mt List.mem_cons.mpr hdots)
      have hlengths : ∀ piece ∈ pieces, byteLength piece ≤ maxNameLength :=
        fun piece h => hlength piece (List.mem_cons_of_mem _ h)
      have hnext := hway [piece] ⟨pieces, rfl⟩
      have hways : ∀ before, before <+: pieces →
          fs.node? (follow (step place piece) before) = none ∨
            fs.node? (follow (step place piece) before) = some .directory :=
        fun before hbefore => hway (piece :: before) (List.cons_prefix_cons.mpr ⟨rfl, hbefore⟩)
      rw [follow_cons] at hmissing hnext
      rw [walk, if_pos hplace]
      by_cases htrivial : isTrivial piece = true
      · rw [if_pos htrivial]
        rw [step_of_isTrivial htrivial] at hmissing hways
        exact ih hrest hlengths hplace hmissing hways
      rw [step_of_name (by simpa using htrivial) (Ne.symm hpiece)] at hmissing hnext hways
      rw [if_neg htrivial, if_neg (Ne.symm hpiece),
        if_neg (Nat.not_lt.mpr (hlength piece List.mem_cons_self))]
      dsimp only
      rcases hnext with hnone | hdirectory
      · rw [follow_nil] at hnone
        rw [hnone, if_neg (by simp)]
      · rw [follow_nil] at hdirectory
        rw [hdirectory, if_pos Option.isSome_some]
        exact ih hrest hlengths hdirectory hmissing hways

section Grown

/-- What is at a place is the same, or a directory was made there. -/
def IsGrown (fs fs' : FileSystem) (p : Place) : Prop :=
  fs'.node? p = fs.node? p ∨ fs.node? p = none ∧ fs'.node? p = some .directory

theorem IsGrown.eq (h : IsGrown fs fs' place) (hnode : fs.node? place ≠ none) :
    fs'.node? place = fs.node? place :=
  h.resolve_right fun hmade => hnode hmade.1

/-- Where directories were made on the way to a place that is kept, a walk downwards ends as
before. -/
theorem IsTree.walk_of_grown (hfs : fs.IsTree) (hdots : ['.', '.'] ∉ pieces)
    (hlength : ∀ piece ∈ pieces, byteLength piece ≤ maxNameLength)
    (hplace : fs'.node? place = fs.node? place)
    (hkept : fs'.node? (follow place pieces) = fs.node? (follow place pieces))
    (hgrown : ∀ before, before <+: pieces → IsGrown fs fs' (follow place before)) :
    fs'.walk place pieces = fs.walk place pieces := by
  induction pieces generalizing place with
  | nil => rfl
  | cons piece pieces ih =>
      have hrest : ['.', '.'] ∉ pieces := fun h => hdots (List.mem_cons_of_mem _ h)
      have hrests (hkeeps : fs'.node? (step place piece) = fs.node? (step place piece)) :
          fs'.walk (step place piece) pieces = fs.walk (step place piece) pieces :=
        ih hrest (fun piece h => hlength piece (List.mem_cons_of_mem _ h)) hkeeps hkept
          fun before hbefore => hgrown (piece :: before) (List.cons_prefix_cons.mpr ⟨rfl, hbefore⟩)
      rcases hgrown [piece] ⟨pieces, rfl⟩ with hkeeps | ⟨hnone, -⟩
      · exact walk_cons_congr hplace (fun _ _ => hkeeps) (hrests hkeeps)
      -- A directory was made where the walk found nothing.  It goes on to where there is
      -- still nothing, since the end of the walk is kept.
      by_cases hdirectory : fs.node? place = some .directory
      swap
      · simp [walk, hplace, hdirectory]
      have hbelow (before) (hbefore : before <+: pieces) :
          fs.node? (follow place (piece :: before)) = none := by
        refine hfs.node?_below hnone ?_
        rw [follow_cons, follow_cons, follow_nil,
          follow_of_descends fun hmem => hrest (hbefore.subset hmem)]
        exact List.prefix_append ..
      have hway (before) (hbefore : before <+: piece :: pieces) :
          fs.node? (follow place before) = none ∨
            fs.node? (follow place before) = some .directory := by
        rcases List.prefix_cons_iff.mp hbefore with rfl | ⟨others, rfl, hothers⟩
        · exact .inr hdirectory
        · exact .inl (hbelow others hothers)
      have hmissing := hbelow pieces List.prefix_rfl
      rw [walk_of_missing hdots hlength hdirectory hmissing hway]
      refine walk_of_missing hdots hlength (hplace.trans hdirectory) (hkept.trans hmissing) ?_
      intro before hbefore
      rcases hgrown before hbefore with hkeeps | ⟨-, hmade⟩
      · rw [hkeeps]
        exact hway before hbefore
      · exact .inr hmade

/-- So ends a walk of which only the end leads downwards. -/
theorem IsTree.walk_of_grown_behind (hfs : fs.IsTree) {middle : Place}
    (hpieces : (pieces.filter fun piece => !isTrivial piece) = before ++ rest)
    (hdots : ['.', '.'] ∉ rest) (hwalk : fs.walk place before = .ok middle)
    (hlength : ∀ piece ∈ pieces, byteLength piece ≤ maxNameLength)
    (hmiddle : fs'.node? middle = fs.node? middle)
    (hkept : fs'.node? (follow place pieces) = fs.node? (follow place pieces))
    (hgrown : ∀ front, front <+: pieces → IsGrown fs fs' (follow place front)) :
    fs'.walk place pieces = fs.walk place pieces := by
  obtain ⟨front, behind, rfl, hbehind, hfront⟩ := exists_walk_front hpieces hwalk
  have hfront' : fs'.walk place front = .ok middle := walk_of_kept hfront fun before hbefore =>
    (hgrown before (hbefore.trans (List.prefix_append ..))).eq
  have hdescends : ['.', '.'] ∉ behind := fun hmem =>
    hdots (hbehind ▸ List.mem_filter.mpr ⟨hmem, rfl⟩)
  have hfollow (more) : follow place (front ++ more) = follow middle more := by
    rw [follow_append, ← eq_follow_of_walk hfront]
  rw [hfollow] at hkept
  rw [walk_append, walk_append, hfront, hfront']
  refine hfs.walk_of_grown hdescends (fun piece h => hlength piece (List.mem_append_right _ h))
    hmiddle hkept fun before hbefore => ?_
  rw [← hfollow]
  exact hgrown _ ((List.prefix_append_right_inj front).mpr hbefore)

end Grown

/-! ## The last piece -/

/-- Behind the last piece that is not blank all pieces are blank. -/
theorem exists_blank_end {last : List Char}
    (h : pieces.reverse.dropWhile (· == []) = last :: before) :
    last ≠ [] ∧ ∃ rest, pieces = before.reverse ++ last :: rest ∧ ∀ piece ∈ rest, piece = [] := by
  constructor
  · have hhead := List.head?_dropWhile_not (· == []) pieces.reverse
    rw [h] at hhead
    simpa using hhead
  · refine ⟨(pieces.reverse.takeWhile (· == [])).reverse, ?_, fun piece hpiece => ?_⟩
    · have hsplit := List.takeWhile_append_dropWhile (p := (· == [])) (l := pieces.reverse)
      rw [h] at hsplit
      simpa using (congrArg List.reverse hsplit).symm
    · rw [List.mem_reverse] at hpiece
      simpa using List.mem_takeWhile_imp hpiece

/-- What a path that ends in a name is made of. -/
theorem of_splitLast {slash : Bool} (h : splitLast path = (before, .name value slash)) :
    isTrivial value = false ∧ value ≠ ['.', '.'] ∧
      ∃ rest, Path.pieces path = before ++ value :: rest ∧ (∀ piece ∈ rest, piece = []) ∧
        (slash = false → rest = []) := by
  rw [splitLast] at h
  dsimp only at h
  split at h
  · cases h
  next last kept hdrop =>
  obtain ⟨hbefore, hlast⟩ := Prod.mk.inj h
  split at hlast
  · cases hlast
  next hdot =>
  split at hlast
  · cases hlast
  next hdots =>
  obtain ⟨rfl, hslash⟩ := Last.name.inj hlast
  obtain ⟨hne, rest, hpieces, hrest⟩ := exists_blank_end hdrop
  refine ⟨by simp [isTrivial, hne, hdot], hdots, rest, hbefore ▸ hpieces, hrest, ?_⟩
  rintro rfl
  rcases List.eq_nil_or_concat rest with rfl | ⟨others, blank, rfl⟩
  · rfl
  · have hblank : blank = [] := hrest blank (by simp)
    simp [hpieces, hblank] at hslash

/-- A path whose last piece is a name ends in it. -/
theorem splitLast_of_pieces (h : Path.pieces path = before ++ [value])
    (htrivial : isTrivial value = false) (hdots : value ≠ ['.', '.']) :
    splitLast path = (before, .name value false) := by
  have hne : value ≠ [] := by
    rintro rfl
    cases htrivial
  have hdot : value ≠ ['.'] := by
    rintro rfl
    cases htrivial
  simp [splitLast, h, hne, hdot, hdots]

/-- Where a walk reaches the directory that holds what a path ends in. -/
theorem locateParent_eq_ok {directory : Place} {slash : Bool} :
    fs.locateParent path = .ok (directory, .name value slash) ↔
      checkPath path = .ok () ∧ fs.walk (fs.start path) (splitLast path).1 = .ok directory ∧
        (splitLast path).2 = .name value slash ∧ fs.node? directory = some .directory ∧
        byteLength value ≤ maxNameLength := by
  rw [locateParent]
  cases checkPath path with
  | error fault => simp [bind, Except.bind]
  | ok =>
      obtain ⟨before, last⟩ := splitLast path
      cases hwalk : fs.walk (fs.start path) before with
      | error fault => simp [bind, Except.bind, hwalk]
      | ok reached =>
          simp only [bind, Except.bind, hwalk]
          cases last with
          | name text slashes =>
              dsimp only
              constructor
              · intro h
                split at h
                swap
                · cases h
                split at h
                · cases h
                next hdirectory hlength =>
                obtain ⟨rfl, hlast⟩ := Prod.mk.inj (Except.ok.inj h)
                obtain ⟨rfl, rfl⟩ := Last.name.inj hlast
                exact ⟨trivial, rfl, rfl, hdirectory, Nat.not_lt.mp hlength⟩
              · rintro ⟨-, hreached, hlast, hdirectory, hlength⟩
                obtain rfl := Except.ok.inj hreached
                obtain ⟨rfl, rfl⟩ := Last.name.inj hlast
                rw [if_pos hdirectory, if_neg (Nat.not_lt.mpr hlength)]
          | dot => simp
          | dots => simp

/-- The last segment of a path that ends in a name is that name. -/
theorem segments_of_splitLast {slash : Bool} (h : splitLast path = (before, .name value slash)) :
    segments path = (before.filter fun piece => !isTrivial piece) ++ [value] ∧
      isTrivial value = false ∧ value ≠ ['.', '.'] := by
  obtain ⟨htrivial, hdots, rest, hpieces, hrest, -⟩ := of_splitLast h
  have hblank : rest.filter (fun piece => !isTrivial piece) = [] := by
    refine List.filter_eq_nil_iff.mpr fun piece hpiece => ?_
    simp [hrest piece hpiece, isTrivial]
  refine ⟨?_, htrivial, hdots⟩
  rw [segments, hpieces, List.filter_append, List.filter_cons_of_pos (by simp [htrivial]), hblank]

/-- A path that ends in a name leads to something of that name. -/
theorem placeOf_of_splitLast {slash : Bool} (h : splitLast path = (before, .name value slash)) :
    fs.placeOf path = follow (fs.start path) before ++ [String.ofList value] := by
  obtain ⟨hsegments, htrivial, hdots⟩ := segments_of_splitLast h
  rw [placeOf_eq_follow_segments, hsegments, follow_append, follow_filter, follow_cons,
    step_of_name htrivial hdots, follow_nil]

/-- What is made at a path is made at its place. -/
theorem placeOf_of_locateParent {directory : Place} {slash : Bool}
    (h : fs.locateParent path = .ok (directory, .name value slash)) :
    fs.placeOf path = directory ++ [String.ofList value] := by
  obtain ⟨-, hwalk, hlast, -⟩ := locateParent_eq_ok.mp h
  rw [placeOf_of_splitLast (Prod.ext rfl hlast), ← eq_follow_of_walk hwalk]

/-- Something can be made at a name joined to a path if that path leads to a directory. -/
theorem locateParent_join_eq_ok (base : String) {directory : Place} {name : String}
    (hslash : '/' ∉ name.toList) (htrivial : isTrivial name.toList = false)
    (hdots : name.toList ≠ ['.', '.']) :
    fs.locateParent (join base name) = .ok (directory, .name name.toList false) ↔
      checkPath (join base name) = .ok () ∧
        fs.walk (fs.start base) (segments base) = .ok directory ∧
        fs.node? directory = some .directory ∧ byteLength name.toList ≤ maxNameLength := by
  have hname : Path.pieces name = [name.toList] := splitOn_of_not_mem hslash
  have habsolute : isAbsolute name = false := by
    rw [Bool.eq_false_iff]
    intro habsolute
    obtain ⟨rest, hrest, hpieces⟩ := isAbsolute_iff.mp habsolute
    exact hrest (List.cons.inj (hname.symm.trans hpieces)).2.symm
  obtain ⟨before, hpieces, hbefore⟩ := exists_pieces_join base habsolute
  rw [hname] at hpieces
  have hstart : fs.start (join base name) = fs.start base := by
    rw [start, start, isAbsolute_join habsolute]
  rw [locateParent_eq_ok, splitLast_of_pieces hpieces htrivial hdots, hstart, ← hbefore]
  constructor
  · rintro ⟨hcheck, hwalk, -, hdirectory, hlength⟩
    exact ⟨hcheck, (walk_filter hdirectory).mpr hwalk, hdirectory, hlength⟩
  · rintro ⟨hcheck, hwalk, hdirectory, hlength⟩
    exact ⟨hcheck, (walk_filter hdirectory).mp hwalk, rfl, hdirectory, hlength⟩

end RouteCompiler.FileSystem
