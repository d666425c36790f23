import RouteCompiler.Proofs.Build.Staging
import RouteCompiler.Time.Epoch

/-!
# What a failed deployment leaves

What was deployed before under a tag is removed last, just before the staging directory takes
its place.  Whether a failure can cost it depends on that one step: this module shows that the
step succeeds, unless the tag is written with separators behind it.  Then the staging directory
is inside of what is removed.

Main results:

- Theorem `not_rename_of_slash`: where the tag has separators the last step fails.
- Theorem `exists_rename_of_plain`: where it has none it succeeds, unless the root leads through
  the directory of the tag.
- Theorem `failure_keeps_files`: what a failed deployment leaves of the files that were there.
-/

namespace RouteCompiler.Deployment

open RouteCompiler.Path FileSystem

variable {fs fs' fs₁ fs₂ fs₃ : FileSystem} {root : String} {key : TagKey} {build : BuildId}
  {now : Instant} {policies : List GeneratedPolicy} {r : Except BuildError Manifest}

/-! ## Places -/

/-- A staging directory is not above what it replaces. -/
theorem staging_not_prefix_tag (htag : isSingleName key.tag = true) :
    ¬ fs.placeOf (stagingDirectory root key) <+: fs.placeOf (tagDirectory root key) := by
  rw [placeOf_stagingDirectory htag, placeOf_tagDirectory htag, List.prefix_append_right_inj]
  by_cases hslash : '/' ∈ key.tag.toList
  · obtain ⟨name, last, hname, hstaging⟩ := names_of_slash htag hslash
    rw [hname, hstaging]
    simp
  · obtain ⟨hname, hstaging⟩ := names_of_plain htag hslash
    rw [hname, hstaging]
    simpa using staging_ne key.tag

/-- Where the tag has separators the staging directory is inside of what it replaces. -/
theorem tag_prefix_staging (htag : isSingleName key.tag = true) (hslash : '/' ∈ key.tag.toList) :
    fs.placeOf (tagDirectory root key) <+: fs.placeOf (stagingDirectory root key) := by
  rw [placeOf_stagingDirectory htag, placeOf_tagDirectory htag, List.prefix_append_right_inj]
  obtain ⟨name, last, hname, hstaging⟩ := names_of_slash htag hslash
  rw [hname, hstaging]
  simp

/-- Where it has none it is beside. -/
theorem tag_not_prefix_staging (htag : isSingleName key.tag = true)
    (hslash : '/' ∉ key.tag.toList) :
    ¬ fs.placeOf (tagDirectory root key) <+: fs.placeOf (stagingDirectory root key) := by
  rw [placeOf_stagingDirectory htag, placeOf_tagDirectory htag, List.prefix_append_right_inj]
  obtain ⟨hname, hstaging⟩ := names_of_plain htag hslash
  rw [hname, hstaging]
  simpa using (staging_ne key.tag).symm

/-! ## The last step -/

theorem start_stagingDirectory (htag : isSingleName key.tag = true) :
    fs.start (stagingDirectory root key) = fs.start (groupDirectory root key.org key.group) :=
  start_of_extends (extends_stagingDirectory htag)

theorem start_tagDirectory (htag : isSingleName key.tag = true) :
    fs.start (tagDirectory root key) = fs.start (groupDirectory root key.org key.group) :=
  start_of_extends (extends_tagDirectory htag)

/-- The staging directory of a tag with separators is gone with what it should replace. -/
theorem not_rename_of_slash (hnames : checkNames key policies = .ok ())
    (hslash : '/' ∈ key.tag.toList)
    (hstage : runIn fs (stage root key build now policies) = (.ok (), fs₁))
    (hremove : runIn fs₁ (removeDirectory (tagDirectory root key)) = (.ok (), fs₂)) :
    fs₂.rename (stagingDirectory root key) (tagDirectory root key) ≠ .ok fs₃ := by
  intro hrename
  obtain ⟨-, -, htag, -⟩ := of_checkNames hnames
  obtain ⟨-, hwalk, -⟩ := of_stage hnames hstage
  obtain ⟨name, last, hname, hstaging⟩ := segments_of_slash htag hslash
  -- The walk to the staging directory leads through the directory of the tag.
  have hsegments : segments (stagingDirectory root key) =
      segments (tagDirectory root key) ++ [last ++ stagingSuffix.toList] := by
    rw [segments_stagingDirectory htag, segments_tagDirectory htag, hname, hstaging]
    simp
  rw [hsegments, walk_append_eq_ok, start_stagingDirectory htag, ← start_tagDirectory htag] at hwalk
  obtain ⟨middle, hmiddle, hnext⟩ := hwalk
  have hpieces := (walk_segments (walk_cons_eq_ok.mp hnext).1.1).mp hmiddle
  obtain ⟨hfs₂, hgone⟩ := of_runIn_removeDirectory hremove
  have hstart : fs₂.workingDirectory = fs₁.workingDirectory := by
    rw [hfs₂]
    exact (confined_removeTree ..).workingDirectory_eq
  have hmissing : fs₂.node? (fs₁.placeOf (stagingDirectory root key)) = none := by
    rcases hgone.mpr rfl with hok | hnotFound
    · rw [hfs₂, node?_removeTree_of_ok hok, if_pos (tag_prefix_staging htag hslash)]
    · obtain ⟨-, hwalk, -⟩ := of_removeTree_notFound (tagDirectory_ne_empty htag) hnotFound
      exact nomatch hwalk.symm.trans hpieces
  refine (of_rename hrename).1 ?_
  rw [placeOf_congr hstart, hmissing]

/-- So the two directories of a tag that could be deployed are beside each other. -/
theorem separate_of_rename (hnames : checkNames key policies = .ok ())
    (hstage : runIn fs (stage root key build now policies) = (.ok (), fs₁))
    (hremove : runIn fs₁ (removeDirectory (tagDirectory root key)) = (.ok (), fs₂))
    (hmove : fs₂.rename (stagingDirectory root key) (tagDirectory root key) = .ok fs₃)
    (fs' : FileSystem) :
    Separate (fs'.placeOf (tagDirectory root key)) (fs'.placeOf (stagingDirectory root key)) := by
  obtain ⟨-, -, htag, -⟩ := of_checkNames hnames
  have hslash : '/' ∉ key.tag.toList := fun hslash =>
    not_rename_of_slash hnames hslash hstage hremove hmove
  exact ⟨tag_not_prefix_staging htag hslash, staging_not_prefix_tag htag⟩

section Plain

variable (hnames : checkNames key policies = .ok ()) (hslash : '/' ∉ key.tag.toList)
  (hstage : runIn fs (stage root key build now policies) = (.ok (), fs₁))
  (hremove : runIn fs₁ (removeDirectory (tagDirectory root key)) = (.ok (), fs₂))

include hnames hslash hstage

/-- Once the staging directory is filled the directory of the group can be walked to. -/
theorem walk_groupDirectory :
    fs₁.walk (fs₁.start (groupDirectory root key.org key.group))
        (segments (groupDirectory root key.org key.group)) =
      .ok (fs₁.placeOf (groupDirectory root key.org key.group)) ∧
    fs₁.node? (fs₁.placeOf (groupDirectory root key.org key.group)) = some .directory ∧
    Text.byteLength (key.tag ++ stagingSuffix).toList ≤ maxNameLength := by
  obtain ⟨-, -, htag, -⟩ := of_checkNames hnames
  obtain ⟨-, hwalk, -⟩ := of_stage hnames hstage
  obtain ⟨-, hstaging⟩ := segments_of_plain htag hslash
  rw [segments_stagingDirectory htag, hstaging, walk_append_eq_ok, start_stagingDirectory htag]
    at hwalk
  obtain ⟨middle, hmiddle, hnext⟩ := hwalk
  obtain rfl : middle = fs₁.placeOf (groupDirectory root key.org key.group) := by
    rw [eq_follow_of_walk hmiddle, placeOf_eq_follow_segments]
  obtain ⟨⟨hdirectory, hnext⟩, -⟩ := walk_cons_eq_ok.mp hnext
  obtain ⟨hlength, -⟩ := hnext (isName_of_staging _).1 (isName_of_staging _).2
  rw [String.toList_append]
  exact ⟨hmiddle, hdirectory, hlength⟩

include hremove

/-- What was deployed before is gone before the staging directory is moved. -/
theorem node?_tagDirectory_of_removed : fs₂.node? (fs₁.placeOf (tagDirectory root key)) = none := by
  obtain ⟨-, -, htag, -⟩ := of_checkNames hnames
  obtain ⟨hwalk, hdirectory, hlength⟩ := walk_groupDirectory hnames hslash hstage
  obtain ⟨hremoved, hgone⟩ := of_runIn_removeDirectory hremove
  subst hremoved
  rcases hgone.mpr rfl with hok | hnotFound
  · rw [node?_removeTree_of_ok hok, if_pos List.prefix_rfl]
  · obtain ⟨-, hmissing, hsame⟩ := of_removeTree_notFound (tagDirectory_ne_empty htag) hnotFound
    obtain ⟨hpieces, htrivial, hdots⟩ := pieces_of_isSingleName htag hslash
    rw [tagDirectory, walk_join (descends_of_isSingleName htag).1 hwalk hdirectory, hpieces, walk,
      if_pos hdirectory, htrivial, if_neg Bool.false_ne_true, if_neg hdots,
      if_neg (by simp at hlength; omega)] at hmissing
    rw [hsame, placeOf_tagDirectory htag, (names_of_plain htag hslash).1]
    dsimp only at hmissing
    split at hmissing
    · cases hmissing
    · next hnone => simpa using hnone

section Outside

variable (houtside : ¬ fs₁.Crosses (groupDirectory root key.org key.group)
  (fs₁.placeOf (tagDirectory root key)))

include houtside

/-- The directory of the group can still be walked to, unless the way leads through what was
deployed before. -/
theorem walk_groupDirectory_of_removed :
    fs₂.walk (fs₂.start (groupDirectory root key.org key.group))
        (segments (groupDirectory root key.org key.group)) =
      .ok (fs₁.placeOf (groupDirectory root key.org key.group)) ∧
    fs₂.node? (fs₁.placeOf (groupDirectory root key.org key.group)) = some .directory ∧
    fs₂.workingDirectory = fs₁.workingDirectory := by
  obtain ⟨hwalk, hdirectory, -⟩ := walk_groupDirectory hnames hslash hstage
  have hconfined := confined_removeTree fs₁ (tagDirectory root key)
  rw [← (of_runIn_removeDirectory hremove).1] at hconfined
  have hstart := hconfined.workingDirectory_eq
  have hkept (before) (hbefore : before <+: segments (groupDirectory root key.org key.group)) :=
    hconfined.node?_eq_of_not_allowed (fun hbelow => houtside ⟨before, hbefore, hbelow⟩) not_false
  refine ⟨?_, ?_, hstart⟩
  · rw [start_congr hstart]
    exact walk_of_kept hwalk fun before hbefore _ => hkept before hbefore
  · have hplace := hkept _ List.prefix_rfl
    rwa [← placeOf_eq_follow_segments, hdirectory] at hplace

/-- The directory of the tag can be made in that of the group. -/
theorem locateParent_tagDirectory :
    fs₂.locateParent (tagDirectory root key) =
      .ok (fs₁.placeOf (groupDirectory root key.org key.group), .name key.tag.toList false) := by
  obtain ⟨-, -, htag, -⟩ := of_checkNames hnames
  obtain ⟨-, -, hlength⟩ := walk_groupDirectory hnames hslash hstage
  obtain ⟨hwalk, hdirectory, -⟩ :=
    walk_groupDirectory_of_removed hnames hslash hstage hremove houtside
  obtain ⟨-, htrivial, hdots⟩ := pieces_of_isSingleName htag hslash
  have hcheck := checkPath_of_removeTree (tagDirectory_ne_empty htag)
    ((of_runIn_removeDirectory hremove).2.mpr rfl)
  refine (locateParent_join_eq_ok _ hslash htrivial hdots).mpr ⟨hcheck, hwalk, hdirectory, ?_⟩
  simp at hlength
  omega

/-- The staging directory is found in that of the group. -/
theorem locateParent_stagingDirectory :
    fs₂.locateParent (stagingDirectory root key) =
      .ok (fs₁.placeOf (groupDirectory root key.org key.group),
        .name (key.tag ++ stagingSuffix).toList false) := by
  obtain ⟨-, -, htag, -⟩ := of_checkNames hnames
  obtain ⟨-, -, hlength⟩ := walk_groupDirectory hnames hslash hstage
  obtain ⟨hwalk, hdirectory, -⟩ :=
    walk_groupDirectory_of_removed hnames hslash hstage hremove houtside
  obtain ⟨hcheck, -⟩ := of_stage hnames hstage
  obtain ⟨above, hjoin, habove, hbegin⟩ := stagingDirectory_eq_join root htag
  have hstart : fs₂.start above = fs₂.start (groupDirectory root key.org key.group) := by
    rw [start, start, hbegin]
  rw [← hstart, ← habove] at hwalk
  have hname : '/' ∉ (key.tag ++ stagingSuffix).toList ∧
      isTrivial (key.tag ++ stagingSuffix).toList = false ∧
      (key.tag ++ stagingSuffix).toList ≠ ['.', '.'] := by
    rw [String.toList_append, List.mem_append, not_or]
    exact ⟨⟨hslash, slash_not_mem_stagingSuffix⟩, isName_of_staging _⟩
  rw [hjoin] at hcheck ⊢
  exact (locateParent_join_eq_ok above hname.1 hname.2.1 hname.2.2).mpr
    ⟨hcheck, hwalk, hdirectory, hlength⟩

/-- A staging directory beside what it replaces can take its place. -/
theorem exists_rename_of_plain :
    ∃ fs₃, fs₂.rename (stagingDirectory root key) (tagDirectory root key) = .ok fs₃ := by
  obtain ⟨-, -, htag, -⟩ := of_checkNames hnames
  obtain ⟨-, -, hstaging⟩ := of_stage hnames hstage
  obtain ⟨-, -, hstart⟩ := walk_groupDirectory_of_removed hnames hslash hstage hremove houtside
  have hfree := node?_tagDirectory_of_removed hnames hslash hstage hremove
  refine ⟨_, rename_eq_ok (locateParent_stagingDirectory hnames hslash hstage hremove houtside)
    (locateParent_tagDirectory hnames hslash hstage hremove houtside) ?_ ?_ ?_⟩
  · obtain ⟨hremoved, -⟩ := of_runIn_removeDirectory hremove
    subst hremoved
    rw [placeOf_congr hstart, (confined_removeTree ..).node?_eq_of_not_allowed _ not_false,
      hstaging]
    exact tag_not_prefix_staging htag hslash
  · rwa [placeOf_congr hstart]
  · rw [placeOf_congr hstart, placeOf_congr hstart]
    exact staging_not_prefix_tag htag

end Outside

end Plain

/-! ## Failures -/

/-- A directory of which only what is below it was removed has a path that ends in a dot, so its
tag has separators. -/
theorem slash_mem_of_emptied (htag : isSingleName key.tag = true)
    (hlast : ∀ value slash, (splitLast (tagDirectory root key)).2 ≠ .name value slash) :
    '/' ∈ key.tag.toList := by
  by_contra hslash
  obtain ⟨hpieces, htrivial, hdots⟩ := pieces_of_isSingleName htag hslash
  obtain ⟨before, hjoin, -⟩ := exists_pieces_join (groupDirectory root key.org key.group)
    (descends_of_isSingleName htag).1
  rw [hpieces] at hjoin
  refine hlast key.tag.toList false ?_
  rw [tagDirectory, splitLast_of_pieces hjoin htrivial hdots]

/-- Only files in the staging directory change before anything is removed. -/
theorem sameFilesBut_stage (hnames : checkNames key policies = .ok ())
    {outcome : Except BuildError Unit}
    (hstage : runIn fs (stage root key build now policies) = (outcome, fs₁)) :
    SameFilesBut [fs.placeOf (stagingDirectory root key)] fs fs₁ ∧
      fs₁.placeOf (tagDirectory root key) = fs.placeOf (tagDirectory root key) := by
  have hconfined := confined_stage hnames hstage
  exact ⟨hconfined.sameFilesBut fun p hp => ⟨_, List.mem_cons_self, hp⟩,
    placeOf_congr hconfined.workingDirectory_eq⟩

/-- The removal loses all files that were deployed before, or none. -/
theorem files_of_removed (hnames : checkNames key policies = .ok ())
    (hstage : runIn fs (stage root key build now policies) = (.ok (), fs₁))
    {outcome : Except BuildError Unit}
    (hremove : runIn fs₁ (removeDirectory (tagDirectory root key)) = (outcome, fs₂)) :
    SameFilesBut [fs.placeOf (stagingDirectory root key)] fs fs₂ ∨
      fs₂ ≠ fs₁ ∧ NoFilesAt (fs.placeOf (tagDirectory root key)) fs₂ ∧
        SameFilesBut [fs.placeOf (tagDirectory root key), fs.placeOf (stagingDirectory root key)]
          fs fs₂ := by
  obtain ⟨hkept, hplace⟩ := sameFilesBut_stage hnames hstage
  obtain ⟨hremoved, -⟩ := of_runIn_removeDirectory hremove
  subst hremoved
  by_cases hsame : (fs₁.removeTree (tagDirectory root key)).2 = fs₁
  · rw [hsame]
    exact .inl hkept
  obtain ⟨hgone, hothers⟩ := files_of_removeTree.resolve_left hsame
  rw [hplace] at hgone hothers
  refine .inr ⟨hsame, hgone, fun p hp => ?_⟩
  rw [List.forall_mem_cons] at hp
  exact (hothers p (by simpa using hp.1)).trans (hkept p hp.2)

/-- A root that leads through the place of a tag does so before the directory of the group. -/
theorem crosses_of_group (horg : isSingleName key.org = true)
    (hgroup : isSingleName key.group = true) (htag : isSingleName key.tag = true)
    (h : fs.Crosses (groupDirectory root key.org key.group) (fs.placeOf (tagDirectory root key))) :
    fs.Crosses root (fs.placeOf (tagDirectory root key)) := by
  refine h.of_extends (extends_group horg hgroup) fun hup => ?_
  have hlength := hup.length_le
  obtain ⟨name, hname⟩ := names_of_isSingleName htag
  rw [placeOf_tagDirectory htag, hname, List.length_append, List.length_singleton] at hlength
  omega

/-- After a failure either all files outside of the staging directory are as they were, or those
that were deployed before are gone: that is so only if the tag has separators, or the root leads
through its directory.  Where the tag has separators there is no success. -/
theorem failure_keeps_files (h : runIn fs (deploy root key build now policies) = (r, fs')) :
    (∀ e, r = .error e →
      SameFilesBut [fs.placeOf (stagingDirectory root key)] fs fs' ∨
        ('/' ∈ key.tag.toList ∨ fs.Crosses root (fs.placeOf (tagDirectory root key))) ∧
          NoFilesAt (fs.placeOf (tagDirectory root key)) fs' ∧
          SameFilesBut [fs.placeOf (tagDirectory root key),
            fs.placeOf (stagingDirectory root key)] fs fs') ∧
      ('/' ∈ key.tag.toList → ∀ m, r ≠ .ok m) := by
  cases course_of_runIn h with
  | refused => exact ⟨fun _ _ => .inl .refl, fun _ _ => nofun⟩
  | notStaged hnames hstage =>
      exact ⟨fun _ _ => .inl (sameFilesBut_stage hnames hstage).1, fun _ _ => nofun⟩
  | notRemoved hnames hstage hremove =>
      refine ⟨fun _ _ => ?_, fun _ _ => nofun⟩
      refine (files_of_removed hnames hstage hremove).imp_right fun ⟨hchanged, hfiles⟩ =>
        ⟨.inl ?_, hfiles⟩
      obtain ⟨hremoved, hgone⟩ := of_runIn_removeDirectory hremove
      subst hremoved
      cases removal _ (tagDirectory root key) with
      | untouched hfault hcause hsame => exact absurd hsame hchanged
      | emptied hfault hcause hlast => exact slash_mem_of_emptied (of_checkNames hnames).2.2.1 hlast
      | removed hok => exact nomatch hgone.mp (.inl hok)
  | notMoved hnames hstage hremove hmove =>
      refine ⟨fun _ _ => ?_, fun _ _ => nofun⟩
      refine (files_of_removed hnames hstage hremove).imp_right fun ⟨_, hfiles⟩ => ⟨?_, hfiles⟩
      by_contra hplain
      obtain ⟨hslash, houtside⟩ := not_or.mp hplain
      obtain ⟨horg, hgroup, htag, -⟩ := of_checkNames hnames
      have hstart := (confined_stage hnames hstage).workingDirectory_eq
      rw [← crosses_congr hstart, ← placeOf_congr hstart] at houtside
      have hgroupOutside := mt (crosses_of_group horg hgroup htag) houtside
      obtain ⟨moved, hmoved⟩ :=
        exists_rename_of_plain hnames hslash hstage hremove hgroupOutside
      exact nomatch hmove.symm.trans hmoved
  | deployed hnames hstage hremove hmove =>
      refine ⟨fun e he => (nomatch he), fun hslash _ _ => ?_⟩
      exact not_rename_of_slash hnames hslash hstage hremove hmove

/-- Files below a root: two tags of a group, with a staging directory that was left behind. -/
def deployedBefore : FileSystem where
  nodes := .ofList [(["out"], .directory), (["out", "acme"], .directory),
    (["out", "acme", "g"], .directory), (["out", "acme", "g", "v1.staging"], .directory),
    (["out", "acme", "g", "v1.staging", "old.txt"], .file "left"),
    (["out", "acme", "g", "v2"], .directory),
    (["out", "acme", "g", "v2", "manifest.json"], .file "kept")]
  workingDirectory := []

/-- One policy with resources of the given names. -/
def policyWith (names : List String) : List GeneratedPolicy :=
  [⟨"p", "<route/>", .empty, .ofList (names.map fun name => (name, "text")), []⟩]

theorem failure_keeps_files_clashing :
    (runIn deployedBefore (deploy "out" ⟨"acme", "g", "v2"⟩ "b1" .epoch
        (policyWith ["a", "a/b"]))).2.file? ["out", "acme", "g", "v2", "manifest.json"] =
      some "kept" ∧
    ∀ m, (runIn deployedBefore (deploy "out" ⟨"acme", "g", "v2/"⟩ "b1" .epoch
      (policyWith ["a"]))).1 ≠ .ok m := by
  constructor
  · have hfails : (runIn deployedBefore (deploy "out" ⟨"acme", "g", "v2"⟩ "b1" .epoch
        (policyWith ["a", "a/b"]))).1.isOk = false := by decide +kernel
    cases hrun : runIn deployedBefore (deploy "out" ⟨"acme", "g", "v2"⟩ "b1" .epoch
        (policyWith ["a", "a/b"])) with
    | mk r fs' =>
        rw [hrun] at hfails
        cases r with
        | ok m => cases hfails
        | error e =>
            rcases (failure_keeps_files hrun).1 e rfl with hsame | ⟨hcause, -⟩
            · rw [hsame _ (by decide +kernel)]
              decide +kernel
            · refine absurd hcause (not_or.mpr ⟨by decide, fun hcrosses => ?_⟩)
              exact absurd (hcrosses.prefix_placeOf (by decide)) (by decide +kernel)
  · exact (failure_keeps_files (Prod.eta _).symm).2 (by decide)

end RouteCompiler.Deployment
