import RouteCompiler.Proofs.Build.Isolation
import RouteCompiler.Proofs.Files.Texts
import RouteCompiler.Proofs.Json.RoundTrip
import RouteCompiler.Proofs.Time.RoundTrip

/-!
# Reading a manifest back

A deployment writes its manifest to the staging directory, and moves that directory into place.
Afterwards the manifest is looked for at a path that was never used before: the directories on the
way were found once, but from elsewhere, and the text is that of another path.  This module says
when the walk arrives, and that what is found there is read as the manifest that was written.

Main results:

- Theorem `Manifest.ofText_toText`: nothing of a manifest is lost in its text.
- Theorem `locate_join_eq_ok`: when a name in a directory is found.
- Theorem `walk_tagDirectory_iff`: when the directory of a tag is found that was deployed.
- Theorem `deployed_manifest`: when the manifest of a deployment is read back.
-/

namespace RouteCompiler

open Datum

/-! ## Texts of manifests -/

instance : LawfulCodec DeployedPolicy where
  isPrintable_encode p := isPrintable_ofMembers (by simp [isPrintable_encode])
  decode_encode p := bind_fields_ofMembers rfl (by decide) (by simp)

instance : LawfulCodec Manifest where
  isPrintable_encode m := isPrintable_ofMembers (by simp [isPrintable_encode])
  decode_encode m := bind_fields_ofMembers rfl (by decide) (by simp)

/-- Nothing of a manifest is lost in its text. -/
theorem Manifest.ofText_toText (m : Manifest) : ofText m.toText = .ok m := by
  rw [ofText, toText, Json.parse_pretty (isPrintable_encode m), Option.bind_some, decode_encode]

namespace FileSystem

open RouteCompiler.Path RouteCompiler.Text

variable {fs fs' : FileSystem} {base name text : String} {place : Place}

/-! ## Files in directories -/

/-- A name in a directory is found if the directory is, and something of that name is in it. -/
theorem locate_join_eq_ok (hname : isSingleName name = true) (hslash : '/' ∉ name.toList) :
    fs.locate (join base name) = .ok place ↔
      checkPath (join base name) = .ok () ∧
        fs.walk (fs.start base) (segments base) = .ok (fs.placeOf base) ∧
        fs.CanStep (fs.placeOf base) name.toList ∧ place = fs.placeOf base ++ [name] := by
  obtain ⟨hpieces, htrivial, hdots⟩ := pieces_of_isSingleName hname hslash
  obtain ⟨habsolute, -⟩ := descends_of_isSingleName hname
  obtain ⟨before, hjoin, hbefore⟩ := exists_pieces_join base habsolute
  have hstart : fs.start (join base name) = fs.start base := by
    rw [start, start, isAbsolute_join habsolute]
  have hstep : step (fs.placeOf base) name.toList = fs.placeOf base ++ [name] := by
    rw [step_of_name htrivial hdots, String.ofList_toList]
  have hfollow : follow (fs.start base) before = fs.placeOf base := by
    rw [← follow_filter, hbefore, placeOf_eq_follow_segments]
  rw [locate_eq_ok, hstart, hjoin, hpieces, walk_append_eq_ok, ← hbefore]
  constructor
  · rintro ⟨hcheck, middle, hwalk, hlast⟩
    obtain ⟨hcan, hend⟩ := walk_cons_eq_ok.mp hlast
    obtain rfl : middle = fs.placeOf base := (eq_follow_of_walk hwalk).trans hfollow
    exact ⟨hcheck, (walk_filter hcan.1).mpr hwalk, hcan, (eq_follow_of_walk hend).trans hstep⟩
  · rintro ⟨hcheck, hwalk, hcan, rfl⟩
    exact ⟨hcheck, _, (walk_filter hcan.1).mp hwalk, walk_cons_eq_ok.mpr ⟨hcan, by rw [hstep]; rfl⟩⟩

/-- So is the content of a file there. -/
theorem read_join_eq_ok (hname : isSingleName name = true) (hslash : '/' ∉ name.toList) :
    fs.read (join base name) = .ok text ↔
      checkPath (join base name) = .ok () ∧
        fs.walk (fs.start base) (segments base) = .ok (fs.placeOf base) ∧
        fs.node? (fs.placeOf base) = some .directory ∧
        byteLength name.toList ≤ maxNameLength ∧
        fs.node? (fs.placeOf base ++ [name]) = some (.file text) := by
  have hread : fs.read (join base name) = .ok text ↔
      ∃ place, fs.locate (join base name) = .ok place ∧ fs.node? place = some (.file text) := by
    rw [read]
    cases hlocate : fs.locate (join base name) with
    | error fault => simp [bind, Except.bind]
    | ok place =>
        simp only [bind, Except.bind, Except.ok.injEq, exists_eq_left']
        cases fs.node? place with
        | none => simp
        | some node => cases node <;> simp
  obtain ⟨-, htrivial, hdots⟩ := pieces_of_isSingleName hname hslash
  rw [hread]
  constructor
  · rintro ⟨place, hlocate, hnode⟩
    obtain ⟨hcheck, hwalk, ⟨hdirectory, hnext⟩, rfl⟩ :=
      (locate_join_eq_ok hname hslash).mp hlocate
    exact ⟨hcheck, hwalk, hdirectory, (hnext htrivial hdots).1, hnode⟩
  · rintro ⟨hcheck, hwalk, hdirectory, hlength, hnode⟩
    refine ⟨_, (locate_join_eq_ok hname hslash).mpr ⟨hcheck, hwalk, ⟨hdirectory, fun _ _ => ?_⟩,
      rfl⟩, hnode⟩
    rw [step_of_name htrivial hdots, String.ofList_toList, hnode]
    exact ⟨hlength, rfl⟩

theorem checkPath_eq_ok {path : String} : checkPath path = .ok () ↔
    '\x00' ∉ path.toList ∧ path ≠ "" ∧ path.utf8ByteSize ≤ maxPathLength := by
  rw [checkPath]
  split
  · next hnul => simpa using fun h => absurd (by simpa using hnul) h
  next hnul =>
  split
  · next hempty => simpa using fun _ h => absurd (by simpa using hempty) h
  next hempty =>
  split
  · next hlong =>
    simp
    omega
  next hshort =>
  simp only [true_iff]
  exact ⟨by simpa using hnul, by simpa using hempty, Nat.not_lt.mp hshort⟩

end FileSystem

namespace Deployment

open RouteCompiler.Path FileSystem

variable {fs fs' fs₁ fs₂ fs₃ : FileSystem} {root : String} {key : TagKey} {build : BuildId}
  {now : Instant} {policies : List GeneratedPolicy} {m : Manifest} {p : Place}

/-! ## What was moved -/

/-- The manifest is the last file that is written to the staging directory. -/
theorem manifest_of_stage
    (hstage : runIn fs (stage root key build now policies) = (.ok (), fs₁)) :
    checkPath (join (stagingDirectory root key) manifestFile) = .ok () ∧
      fs₁.node? (fs₁.placeOf (stagingDirectory root key) ++ [manifestFile]) =
        some (.file (Manifest.ofGenerated key build now policies).toText) := by
  obtain ⟨⟨⟩, fs₂, -, h⟩ := runIn_bind_eq_ok.mp hstage
  obtain ⟨⟨⟩, fs₃, -, h⟩ := runIn_bind_eq_ok.mp h
  obtain ⟨⟨⟩, fs₄, -, h⟩ := runIn_bind_eq_ok.mp h
  have hwrite := of_runIn_writeFile h
  obtain ⟨directory, value, hparent, -⟩ := exists_locateParent_of_write hwrite
  refine ⟨(locateParent_eq_ok.mp hparent).1, ?_⟩
  obtain ⟨hplace, -, -, rfl⟩ := of_write hwrite
  have hmanifest (fs : FileSystem) : fs.placeOf (join (stagingDirectory root key) manifestFile) =
      fs.placeOf (stagingDirectory root key) ++ [manifestFile] :=
    placeOf_join (by decide) (by decide)
  rw [hmanifest] at hplace ⊢
  rw [node?_put hplace, if_pos]
  exact congrArg (· ++ [manifestFile]) (placeOf_congr rfl)

/-- Where nothing is, a directory is found as it was once it has been moved there, and nothing is
left where it was. -/
theorem node?_moved (hseparate : Separate (fs₂.placeOf (tagDirectory root key))
      (fs₂.placeOf (stagingDirectory root key)))
    (hempty : ∀ p, fs₂.placeOf (tagDirectory root key) <+: p → fs₂.node? p = none)
    (hmove : fs₂.rename (stagingDirectory root key) (tagDirectory root key) = .ok fs₃) :
    (∀ below, fs₃.node? (fs₂.placeOf (tagDirectory root key) ++ below) =
      fs₂.node? (fs₂.placeOf (stagingDirectory root key) ++ below)) ∧
    ∀ p, ¬ fs₂.placeOf (tagDirectory root key) <+: p → fs₃.node? p =
      if fs₂.placeOf (stagingDirectory root key) <+: p then none else fs₂.node? p := by
  obtain ⟨hsource, htarget, hmoved⟩ := of_rename_outside hmove hseparate.2
  subst hmoved
  have hkeep (p : Place) : (fs₂.keep (· != fs₂.placeOf (tagDirectory root key))).node? p =
      fs₂.node? p := by
    rw [node?_keep (by simpa using htarget.symm)]
    by_cases hp : p = fs₂.placeOf (tagDirectory root key)
    · rw [hp, hempty _ List.prefix_rfl]
      simp
    · simp [hp]
  constructor
  · intro below
    rw [node?_move_below hsource htarget (fun q hq => (hkeep q).trans (hempty q hq)), hkeep]
  · intro p hp
    rw [node?_move_elsewhere hsource hp, hkeep]

/-- The path of a tag without separators ends in it. -/
theorem exists_pieces_tagDirectory (root : String) (htag : isSingleName key.tag = true)
    (hslash : '/' ∉ key.tag.toList) :
    ∃ before, pieces (tagDirectory root key) = before ++ [key.tag.toList] := by
  obtain ⟨hpieces, -⟩ := pieces_of_isSingleName htag hslash
  obtain ⟨before, hjoin, -⟩ := exists_pieces_join (groupDirectory root key.org key.group)
    (descends_of_isSingleName htag).1
  exact ⟨before, hpieces ▸ hjoin⟩

/-- When the directory was moved, the directory of the group was found. -/
theorem walk_groupDirectory_of_moved (hnames : checkNames key policies = .ok ())
    (hslash : '/' ∉ key.tag.toList)
    (hmove : fs₂.rename (stagingDirectory root key) (tagDirectory root key) = .ok fs₃) :
    fs₂.walk (fs₂.start (groupDirectory root key.org key.group))
        (segments (groupDirectory root key.org key.group)) =
      .ok (fs₂.placeOf (groupDirectory root key.org key.group)) ∧
    fs₂.node? (fs₂.placeOf (groupDirectory root key.org key.group)) = some .directory ∧
    Text.byteLength key.tag.toList ≤ maxNameLength := by
  obtain ⟨-, -, htag, -⟩ := of_checkNames hnames
  obtain ⟨-, htrivial, hdots⟩ := pieces_of_isSingleName htag hslash
  obtain ⟨before, hpieces⟩ := exists_pieces_tagDirectory root htag hslash
  obtain ⟨-, -, -, directory, value, slash, -, hparent⟩ := exists_locateParent_of_rename hmove
  obtain ⟨-, -, hlast, -⟩ := locateParent_eq_ok.mp hparent
  rw [splitLast_of_pieces hpieces htrivial hdots] at hlast
  obtain ⟨rfl, rfl⟩ := Last.name.inj hlast
  obtain ⟨-, hwalk, hdirectory, hlength⟩ :=
    (locateParent_join_eq_ok _ hslash htrivial hdots).mp hparent
  obtain rfl : directory = fs₂.placeOf (groupDirectory root key.org key.group) := by
    rw [eq_follow_of_walk hwalk, placeOf_eq_follow_segments]
  exact ⟨hwalk, hdirectory, hlength⟩

/-- What is known of two file systems of which one is left by the last step of a deployment that
began in the other. -/
structure Moved (root : String) (key : TagKey) (text : String) (fs fs' : FileSystem) : Prop where
  isSingleName : isSingleName key.org = true ∧ isSingleName key.group = true ∧
    isSingleName key.tag = true ∧ '/' ∉ key.tag.toList
  workingDirectory_eq : fs'.workingDirectory = fs.workingDirectory
  separate : Separate (fs.placeOf (tagDirectory root key)) (fs.placeOf (stagingDirectory root key))
  /-- Nothing was where the directory is moved. -/
  empty : ∀ p, fs.placeOf (tagDirectory root key) <+: p → fs.node? p = none
  below : ∀ below, fs'.node? (fs.placeOf (tagDirectory root key) ++ below) =
    fs.node? (fs.placeOf (stagingDirectory root key) ++ below)
  elsewhere : ∀ p, ¬ fs.placeOf (tagDirectory root key) <+: p → fs'.node? p =
    if fs.placeOf (stagingDirectory root key) <+: p then none else fs.node? p
  /-- The directory of the group was found. -/
  walk : fs.walk (fs.start (groupDirectory root key.org key.group))
    (segments (groupDirectory root key.org key.group)) =
      .ok (fs.placeOf (groupDirectory root key.org key.group))
  directory : fs.node? (fs.placeOf (groupDirectory root key.org key.group)) = some .directory
  length_le : Text.byteLength key.tag.toList ≤ maxNameLength
  checkPath : checkPath (tagDirectory root key) = .ok ()
  /-- The staging directory was there, with the manifest in it. -/
  staged : fs.node? (fs.placeOf (stagingDirectory root key)) = some .directory
  manifest : fs.node? (fs.placeOf (stagingDirectory root key) ++ [manifestFile]) =
    some (.file text)

/-- So a deployment ends, if it succeeds in a tree. -/
theorem moved_of_deployed (hfs : fs.IsTree) (hnames : checkNames key policies = .ok ())
    (hstage : runIn fs (stage root key build now policies) = (.ok (), fs₁))
    (hremove : runIn fs₁ (removeDirectory (tagDirectory root key)) = (.ok (), fs₂))
    (hmove : fs₂.rename (stagingDirectory root key) (tagDirectory root key) = .ok fs₃) :
    Moved root key (Manifest.ofGenerated key build now policies).toText fs₂ fs₃ := by
  have hslash : '/' ∉ key.tag.toList := fun hslash =>
    not_rename_of_slash hnames hslash hstage hremove hmove
  obtain ⟨horg, hgroup, htag, -⟩ := of_checkNames hnames
  obtain ⟨hwalk, hdirectory, hlength⟩ := walk_groupDirectory_of_moved hnames hslash hmove
  have hseparate := separate_of_rename hnames hstage hremove hmove fs₂
  have hnone := node?_tagDirectory_of_removed hnames hslash hstage hremove
  obtain ⟨-, hmanifest⟩ := manifest_of_stage hstage
  obtain ⟨-, -, hstaged⟩ := of_stage hnames hstage
  have hgone := (of_runIn_removeDirectory hremove).2.mpr rfl
  have hcheck := checkPath_of_removeTree (tagDirectory_ne_empty htag) hgone
  have htree : (fs₁.removeTree (tagDirectory root key)).2.IsTree :=
    (isTree_stage hnames hstage hfs).removeTree
  have hconfined := confined_removeTree fs₁ (tagDirectory root key)
  rw [← (of_runIn_removeDirectory hremove).1] at htree hconfined
  have hstart := hconfined.workingDirectory_eq
  have hkept (below : Place) : fs₂.node? (fs₂.placeOf (stagingDirectory root key) ++ below) =
      fs₁.node? (fs₁.placeOf (stagingDirectory root key) ++ below) := by
    rw [← placeOf_congr hstart]
    refine hconfined.node?_eq_of_not_allowed ?_ not_false
    rw [← placeOf_congr hstart]
    exact hseparate.not_prefix (List.prefix_append ..)
  have hempty (p : Place) (hp : fs₂.placeOf (tagDirectory root key) <+: p) :
      fs₂.node? p = none := by
    rw [placeOf_congr hstart] at hp
    exact htree.node?_below hnone hp
  obtain ⟨hbelow, helsewhere⟩ := node?_moved hseparate hempty hmove
  refine ⟨⟨horg, hgroup, htag, hslash⟩, (confined_rename hmove).workingDirectory_eq, hseparate,
    hempty, hbelow, helsewhere, hwalk, hdirectory, hlength, hcheck, ?_, ?_⟩
  · have hstaging := hkept []
    rw [List.append_nil, List.append_nil] at hstaging
    rw [hstaging, hstaged]
  · rw [hkept, hmanifest]

/-! ## The way to what was moved -/

namespace Moved

variable {text : String} (h : Moved root key text fs fs')

include h

theorem placeOf_tagDirectory_eq : fs.placeOf (tagDirectory root key) =
    fs.placeOf (groupDirectory root key.org key.group) ++ [key.tag] := by
  obtain ⟨-, -, htag, hslash⟩ := h.isSingleName
  rw [placeOf_tagDirectory htag, (names_of_plain htag hslash).1]

/-- The place of the group is above those of the tag and of its staging directory. -/
theorem not_prefix_groupDirectory :
    ¬ fs.placeOf (tagDirectory root key) <+: fs.placeOf (groupDirectory root key.org key.group) ∧
      ¬ fs.placeOf (stagingDirectory root key) <+:
        fs.placeOf (groupDirectory root key.org key.group) := by
  obtain ⟨-, -, htag, hslash⟩ := h.isSingleName
  obtain ⟨hname, hstaging⟩ := names_of_plain htag hslash
  have hup (name : String) : ¬ fs.placeOf (groupDirectory root key.org key.group) ++ [name] <+:
      fs.placeOf (groupDirectory root key.org key.group) :=
    fun hprefix => absurd hprefix.length_le (by simp)
  rw [placeOf_tagDirectory htag, placeOf_stagingDirectory htag, hname, hstaging]
  exact ⟨hup _, hup _⟩

/-- The directory of the group is still there. -/
theorem node?_groupDirectory :
    fs'.node? (fs.placeOf (groupDirectory root key.org key.group)) = some .directory := by
  obtain ⟨htag, hstaging⟩ := h.not_prefix_groupDirectory
  rw [h.elsewhere _ htag, if_neg hstaging, h.directory]

/-- The way to the directory of the group leads through the staging directory only if that to the
root does. -/
theorem crosses_groupDirectory_iff :
    fs.Crosses (groupDirectory root key.org key.group) (fs.placeOf (stagingDirectory root key)) ↔
      fs.Crosses root (fs.placeOf (stagingDirectory root key)) := by
  obtain ⟨horg, hgroup, -⟩ := h.isSingleName
  have hextends : Extends root (groupDirectory root key.org key.group) := extends_group horg hgroup
  constructor
  · exact fun hcrosses => hcrosses.of_extends hextends h.not_prefix_groupDirectory.2
  · rintro ⟨before, hbefore, hbelow⟩
    obtain ⟨rest, hsegments, -⟩ := id hextends
    refine ⟨before, ?_, ?_⟩
    · rw [hsegments]
      exact hbefore.trans (List.prefix_append ..)
    · rwa [start_of_extends hextends]

/-- The directory of the group is found again if and only if its path does not lead through the
staging directory, which is gone. -/
theorem walk_groupDirectory_iff :
    fs'.walk (fs'.start (groupDirectory root key.org key.group))
        (segments (groupDirectory root key.org key.group)) =
      .ok (fs.placeOf (groupDirectory root key.org key.group)) ↔
    ¬ fs.Crosses root (fs.placeOf (stagingDirectory root key)) := by
  rw [← h.crosses_groupDirectory_iff, start_congr h.workingDirectory_eq]
  constructor
  · rintro hwalk ⟨before, ⟨rest, hrest⟩, hbelow⟩
    rw [← hrest] at hwalk
    obtain ⟨middle, hmiddle, hend⟩ := walk_append_eq_ok.mp hwalk
    have hthere := node?_of_walk hend h.node?_groupDirectory
    rw [eq_follow_of_walk hmiddle, h.elsewhere _ (h.separate.not_prefix hbelow),
      if_pos hbelow] at hthere
    cases hthere
  · intro houtside
    refine walk_of_kept h.walk fun before hbefore hnode => ?_
    rw [h.elsewhere _ fun hbelow => hnode (h.empty _ hbelow),
      if_neg fun hbelow => houtside ⟨before, hbefore, hbelow⟩]

theorem node?_tagDirectory :
    fs'.node? (fs'.placeOf (tagDirectory root key)) = some .directory := by
  have hmoved := h.below []
  rw [List.append_nil, List.append_nil, h.staged] at hmoved
  rw [placeOf_congr h.workingDirectory_eq, hmoved]

/-- So is the directory of the tag. -/
theorem walk_tagDirectory_iff :
    fs'.walk (fs'.start (tagDirectory root key)) (segments (tagDirectory root key)) =
      .ok (fs'.placeOf (tagDirectory root key)) ↔
    ¬ fs.Crosses root (fs.placeOf (stagingDirectory root key)) := by
  obtain ⟨-, -, htag, hslash⟩ := h.isSingleName
  obtain ⟨-, htrivial, hdots⟩ := pieces_of_isSingleName htag hslash
  have hplace : fs'.placeOf (tagDirectory root key) =
      fs.placeOf (groupDirectory root key.org key.group) ++ [key.tag] := by
    rw [placeOf_congr h.workingDirectory_eq, h.placeOf_tagDirectory_eq]
  have hstep : step (fs.placeOf (groupDirectory root key.org key.group)) key.tag.toList =
      fs'.placeOf (tagDirectory root key) := by
    rw [step_of_name htrivial hdots, String.ofList_toList, hplace]
  rw [← h.walk_groupDirectory_iff, segments_tagDirectory htag, (segments_of_plain htag hslash).1,
    start_tagDirectory htag, walk_append_eq_ok]
  constructor
  · rintro ⟨middle, hwalk, -⟩
    rw [hwalk, eq_follow_of_walk hwalk, ← placeOf_eq_follow_segments,
      placeOf_congr h.workingDirectory_eq]
  · intro hwalk
    refine ⟨_, hwalk, walk_cons_eq_ok.mpr ⟨⟨h.node?_groupDirectory, fun _ _ => ?_⟩, ?_⟩⟩
    · rw [hstep, h.node?_tagDirectory]
      exact ⟨h.length_le, rfl⟩
    · rw [hstep]
      rfl

/-- The text of the manifest is read if the path of the file is short enough, and the root does
not lead through the staging directory. -/
theorem read_manifest_iff (text' : String) :
    fs'.read (join (tagDirectory root key) manifestFile) = .ok text' ↔
      (join (tagDirectory root key) manifestFile).utf8ByteSize ≤ maxPathLength ∧
        ¬ fs.Crosses root (fs.placeOf (stagingDirectory root key)) ∧ text' = text := by
  obtain ⟨-, -, htag, hslash⟩ := h.isSingleName
  obtain ⟨-, htrivial, -⟩ := pieces_of_isSingleName htag hslash
  obtain ⟨before, hpieces⟩ := exists_pieces_tagDirectory root htag hslash
  obtain ⟨hnul, -, -⟩ := checkPath_eq_ok.mp h.checkPath
  have hcheck : FileSystem.checkPath (join (tagDirectory root key) manifestFile) = .ok () ↔
      (join (tagDirectory root key) manifestFile).utf8ByteSize ≤ maxPathLength := by
    have hnul' : '\x00' ∉ (join (tagDirectory root key) manifestFile).toList := by
      rw [join_of_last hpieces htrivial (by decide)]
      simpa using ⟨hnul, by decide⟩
    rw [checkPath_eq_ok, and_iff_right hnul', and_iff_right (join_ne_empty (by decide))]
  have hmanifest : fs'.node? (fs'.placeOf (tagDirectory root key) ++ [manifestFile]) =
      some (.file text) := by
    rw [placeOf_congr h.workingDirectory_eq, h.below, h.manifest]
  rw [read_join_eq_ok (by decide) (by decide), hcheck, h.walk_tagDirectory_iff,
    h.node?_tagDirectory, hmanifest]
  have hlength : Text.byteLength manifestFile.toList ≤ maxNameLength := by decide
  simp [hlength, eq_comm]

end Moved

/-! ## Lengths of paths -/

/-- Where the name of the group has no separators the two directories of a tag are written alike. -/
theorem directories_eq_append (root : String) (hgroup : isSingleName key.group = true)
    (hgroupSlash : '/' ∉ key.group.toList) (htag : isSingleName key.tag = true)
    (hslash : '/' ∉ key.tag.toList) :
    tagDirectory root key = groupDirectory root key.org key.group ++ "/" ++ key.tag ∧
      stagingDirectory root key =
        groupDirectory root key.org key.group ++ "/" ++ (key.tag ++ stagingSuffix) := by
  obtain ⟨hgroupPieces, hgroupTrivial, -⟩ := pieces_of_isSingleName hgroup hgroupSlash
  obtain ⟨before, hjoin, -⟩ := exists_pieces_join (join root key.org)
    (descends_of_isSingleName hgroup).1
  rw [hgroupPieces] at hjoin
  obtain ⟨hpieces, htrivial, hdots⟩ := pieces_of_isSingleName htag hslash
  obtain ⟨habsolute, -⟩ := descends_of_isSingleName htag
  have hlast : segments (tagDirectory root key) =
      segments (groupDirectory root key.org key.group) ++ [key.tag.toList] := by
    rw [segments_tagDirectory htag, (segments_of_plain htag hslash).1]
  have hparent : parent? (tagDirectory root key) = some (groupDirectory root key.org key.group) :=
    parent_join hjoin hgroupTrivial habsolute hpieces htrivial
  refine ⟨join_of_last hjoin hgroupTrivial habsolute, ?_⟩
  rw [stagingDirectory, withFileName, fileName_eq_some hlast hdots, hparent]
  exact join_of_last hjoin hgroupTrivial (descends_staging htag).1

/-- Then the path of the manifest is shorter than it was in the staging directory. -/
theorem utf8ByteSize_manifest_le (root : String) (hgroup : isSingleName key.group = true)
    (hgroupSlash : '/' ∉ key.group.toList) (htag : isSingleName key.tag = true)
    (hslash : '/' ∉ key.tag.toList) :
    (join (tagDirectory root key) manifestFile).utf8ByteSize ≤
      (join (stagingDirectory root key) manifestFile).utf8ByteSize := by
  obtain ⟨htarget, hstaging⟩ := directories_eq_append root hgroup hgroupSlash htag hslash
  obtain ⟨-, htrivial, -⟩ := pieces_of_isSingleName htag hslash
  obtain ⟨before, hpieces⟩ := exists_pieces_tagDirectory root htag hslash
  have hlast : pieces (stagingDirectory root key) =
      pieces (groupDirectory root key.org key.group) ++
        [key.tag.toList ++ stagingSuffix.toList] := by
    have hname : '/' ∉ key.tag.toList ++ stagingSuffix.toList := by
      rw [List.mem_append, not_or]
      exact ⟨hslash, slash_not_mem_stagingSuffix⟩
    rw [hstaging, pieces, String.toList_append, String.toList_append, String.toList_append,
      List.append_assoc]
    exact (Text.splitOn_append_cons '/' _ _).trans
      (congrArg _ (Text.splitOn_of_not_mem hname))
  rw [join_of_last hpieces htrivial (by decide), join_of_last hlast (isName_of_staging _).1
    (by decide), htarget, hstaging]
  simp only [String.utf8ByteSize_append]
  omega

/-! ## Reading back -/

/-- After a success the manifest is at its place, and its text is that of the manifest that was
returned.  It is read back if and only if the path of the file is not too long, and the root does
not lead through the staging directory.  So it always is where the name of the group has no
separators and the root does not lead upwards. -/
theorem deployed_manifest (hfs : fs.IsTree)
    (h : runIn fs (deploy root key build now policies) = (.ok m, fs')) :
    fs'.file? (fs.placeOf (tagDirectory root key) ++ [manifestFile]) = some m.toText ∧
      Manifest.ofText m.toText = .ok m ∧
      ((runIn fs' (readManifest root key)).1 = .ok (some m) ↔
        (join (tagDirectory root key) manifestFile).utf8ByteSize ≤ maxPathLength ∧
          ¬ fs.Crosses root (fs.placeOf (stagingDirectory root key))) ∧
      ('/' ∉ key.group.toList → Descends root →
        (runIn fs' (readManifest root key)).1 = .ok (some m)) := by
  cases course_of_runIn h with
  | @deployed fs₁ fs₂ _ hnames hstage hremove hmove =>
      have hmoved := moved_of_deployed hfs hnames hstage hremove hmove
      have hstart := (confined_removed hnames hstage hremove).workingDirectory_eq
      have hread := hmoved.read_manifest_iff
      rw [placeOf_congr hstart, crosses_congr hstart] at hread
      generalize hm : Manifest.ofGenerated key build now policies = m at *
      have hback : (runIn fs' (readManifest root key)).1 = .ok (some m) ↔
          (join (tagDirectory root key) manifestFile).utf8ByteSize ≤ maxPathLength ∧
            ¬ fs.Crosses root (fs.placeOf (stagingDirectory root key)) := by
        rw [runIn_readManifest]
        constructor
        · intro hsome
          split at hsome
          · next text htext =>
            obtain ⟨hlength, houtside, -⟩ := (hread text).mp htext
            exact ⟨hlength, houtside⟩
          · cases hsome
          · cases hsome
        · rintro ⟨hlength, houtside⟩
          rw [(hread m.toText).mpr ⟨hlength, houtside, rfl⟩]
          dsimp only
          rw [m.ofText_toText]
          rfl
      refine ⟨?_, m.ofText_toText, hback, fun hgroupSlash hroot =>
        hback.mpr ⟨?_, fun hcrosses => ?_⟩⟩
      · rw [← placeOf_congr hstart, file?, hmoved.below, hmoved.manifest]
      · obtain ⟨-, hgroup, htag, hslash⟩ := hmoved.isSingleName
        obtain ⟨-, -, hlength⟩ := checkPath_eq_ok.mp (manifest_of_stage hstage).1
        exact (utf8ByteSize_manifest_le root hgroup hgroupSlash htag hslash).trans hlength
      · obtain ⟨horg, hgroup, -⟩ := hmoved.isSingleName
        have habove := (hcrosses.prefix_placeOf hroot).trans
          (placeOf_of_extends (extends_group horg hgroup))
        rw [← placeOf_congr hstart, ← placeOf_congr hstart] at habove
        exact hmoved.not_prefix_groupDirectory.2 habove

theorem deployed_manifest_climbing :
    (∃ m fs', runIn deployedBefore (deploy "out" ⟨"acme", "g", "v1"⟩ "b1" .epoch
        (policyWith ["a"])) = (.ok m, fs') ∧
      (runIn fs' (readManifest "out" ⟨"acme", "g", "v1"⟩)).1 = .ok (some m)) ∧
    ∃ m fs', runIn FileSystem.empty
        (deploy "o/g/t.staging/../../.." ⟨"o", "g", "t"⟩ "b1" .epoch []) = (.ok m, fs') ∧
      fs'.file? ["o", "g", "t", "manifest.json"] = some m.toText ∧
      (runIn fs' (readManifest "o/g/t.staging/../../.." ⟨"o", "g", "t"⟩)).1 ≠ .ok (some m) := by
  constructor
  · obtain ⟨m, fs', hrun⟩ := exists_runIn_eq_ok (s := deployedBefore)
      (x := deploy "out" ⟨"acme", "g", "v1"⟩ "b1" .epoch (policyWith ["a"])) (by decide +kernel)
    obtain ⟨-, -, -, hread⟩ := deployed_manifest (isTree_of_entries (by decide +kernel)) hrun
    exact ⟨m, fs', hrun, hread (by decide) (by decide)⟩
  · have hplaces : FileSystem.empty.placeOf
          (tagDirectory "o/g/t.staging/../../.." ⟨"o", "g", "t"⟩) = ["o", "g", "t"] ∧
        FileSystem.empty.placeOf (stagingDirectory "o/g/t.staging/../../.." ⟨"o", "g", "t"⟩) =
          ["o", "g", "t.staging"] := by
      decide +kernel
    have hcrosses : FileSystem.empty.Crosses "o/g/t.staging/../../.." ["o", "g", "t.staging"] := by
      have hway : ["o".toList, "g".toList, "t.staging".toList] <+:
          segments "o/g/t.staging/../../.." := by
        decide +kernel
      refine ⟨_, hway, ?_⟩
      decide +kernel
    obtain ⟨m, fs', hrun⟩ := exists_runIn_eq_ok (s := FileSystem.empty)
      (x := deploy "o/g/t.staging/../../.." ⟨"o", "g", "t"⟩ "b1" .epoch []) (by decide +kernel)
    obtain ⟨hfile, -, hread, -⟩ := deployed_manifest (isTree_of_entries (by decide)) hrun
    rw [hplaces.1] at hfile
    rw [hplaces.2] at hread
    exact ⟨m, fs', hrun, hfile, fun hback => (hread.mp hback).2 hcrosses⟩

end Deployment

end RouteCompiler
