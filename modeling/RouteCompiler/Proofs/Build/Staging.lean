import RouteCompiler.Build.Deployment
import RouteCompiler.Proofs.Files.Changes
import RouteCompiler.Proofs.Files.Runs
import RouteCompiler.Proofs.Outcome

/-!
# Making a deployment ready

What is deployed is first made in a staging directory, beside the directory of the tag, and then
moved to where it belongs.  The directories are joined from names that were checked as paths, not
as texts: a tag may be written with separators behind it, and then its staging directory is not
beside its own but inside of it.  This module says where the two are, and what is changed until
the staging directory is complete.

Main definitions:

- `stage`: what a deployment does before it puts its result into place.
- `Course`: how far a deployment comes, and what it leaves.
- `Approach`: where directories may be made on the way.

Main results:

- Theorems `names_of_plain` and `names_of_slash`: what a tag and its staging directory are named.
- Theorem `course_of_runIn`: the ways in which a deployment ends.
- Theorem `keeps_stage`: what every operation below the staging directory keeps is kept.
- Theorem `confined_stage`: only the staging directory changes, but for directories above it.
- Theorem `of_stage`: the staging directory can be walked to once it is complete.
-/

namespace RouteCompiler.Deployment

open RouteCompiler.Path FileSystem

variable {fs fs' : FileSystem} {root tag : String} {key : TagKey} {policies : List GeneratedPolicy}

/-! ## Names -/

/-- What ends in the suffix is a name. -/
theorem isName_of_staging (cs : List Char) : isTrivial (cs ++ stagingSuffix.toList) = false ∧
    cs ++ stagingSuffix.toList ≠ ['.', '.'] := by
  have hlength : 8 ≤ (cs ++ stagingSuffix.toList).length := by
    simp [stagingSuffix]
  constructor
  · rw [isTrivial, Bool.or_eq_false_iff, beq_eq_false_iff_ne, beq_eq_false_iff_ne]
    constructor <;> (intro heq; rw [heq] at hlength; simp at hlength)
  · intro heq
    rw [heq] at hlength
    simp at hlength

theorem slash_not_mem_stagingSuffix : '/' ∉ stagingSuffix.toList := by
  decide

theorem staging_ne (tag : String) : tag ++ stagingSuffix ≠ tag := by
  intro heq
  have hlength := congrArg (fun text => text.toList.length) heq
  simp [stagingSuffix] at hlength

/-- A tag without separators is a name, and so is that of its staging directory. -/
theorem segments_of_plain (htag : isSingleName tag = true) (hslash : '/' ∉ tag.toList) :
    segments tag = [tag.toList] ∧
      segments (tag ++ stagingSuffix) = [tag.toList ++ stagingSuffix.toList] := by
  obtain ⟨hpieces, hname, -⟩ := pieces_of_isSingleName htag hslash
  have hstaging : pieces (tag ++ stagingSuffix) = [tag.toList ++ stagingSuffix.toList] := by
    rw [pieces, String.toList_append]
    refine Text.splitOn_of_not_mem ?_
    rw [List.mem_append, not_or]
    exact ⟨hslash, slash_not_mem_stagingSuffix⟩
  constructor
  · rw [segments, hpieces, List.filter_cons_of_pos (by simp [hname]), List.filter_nil]
  · rw [segments, hstaging, List.filter_cons_of_pos (by simp [isName_of_staging]), List.filter_nil]

theorem names_of_plain (htag : isSingleName tag = true) (hslash : '/' ∉ tag.toList) :
    names tag = [tag] ∧ names (tag ++ stagingSuffix) = [tag ++ stagingSuffix] := by
  obtain ⟨hname, hstaging⟩ := segments_of_plain htag hslash
  rw [names, names, hname, hstaging, ← String.toList_append]
  simp

/-- A tag with separators names a directory, and a staging directory in it. -/
theorem segments_of_slash (htag : isSingleName tag = true) (hslash : '/' ∈ tag.toList) :
    ∃ name last, segments tag = [name] ∧
      segments (tag ++ stagingSuffix) = [name, last ++ stagingSuffix.toList] := by
  obtain ⟨name, rest, hpieces, hname, -, htrivial⟩ := of_isSingleName htag
  obtain ⟨front, back, hsplit⟩ := List.append_of_mem hslash
  obtain ⟨before, last, hback, hstaging⟩ :=
    Text.splitOn_append_of_not_mem back slash_not_mem_stagingSuffix
  obtain ⟨first, others, hfront⟩ := Text.exists_splitOn_eq_cons '/' front
  have htag : pieces tag = first :: others ++ (before ++ [last]) := by
    rw [pieces, hsplit, Text.splitOn_append_cons, hfront, hback]
  obtain ⟨rfl, rfl⟩ := List.cons.inj (htag.symm.trans hpieces)
  have htag' : pieces (tag ++ stagingSuffix) =
      first :: others ++ (before ++ [last ++ stagingSuffix.toList]) := by
    rw [pieces, String.toList_append, hsplit, List.append_assoc, List.cons_append,
      Text.splitOn_append_cons, hfront, hstaging]
  -- The suffix stands behind the last separator, on a piece of its own.
  have hfilter (ps : List (List Char)) (h : ∀ piece ∈ ps, isTrivial piece = true) :
      ps.filter (fun piece => !isTrivial piece) = [] :=
    List.filter_eq_nil_iff.mpr fun piece hpiece => by simp [h piece hpiece]
  refine ⟨first, last, ?_, ?_⟩
  · rw [segments, hpieces, List.filter_cons_of_pos (by simp [hname]), hfilter _ htrivial]
  · rw [segments, htag', List.cons_append, List.filter_cons_of_pos (by simp [hname]),
      ← List.append_assoc, List.filter_append,
      hfilter _ fun piece hpiece => htrivial piece (by simp at hpiece ⊢; tauto),
      List.nil_append, List.filter_cons_of_pos (by simp [isName_of_staging]), List.filter_nil]

theorem names_of_slash (htag : isSingleName tag = true) (hslash : '/' ∈ tag.toList) :
    ∃ name last, names tag = [name] ∧ names (tag ++ stagingSuffix) = [name, last] := by
  obtain ⟨name, last, hname, hstaging⟩ := segments_of_slash htag hslash
  exact ⟨_, _, congrArg _ hname, congrArg _ hstaging⟩

theorem ne_empty_of_isSingleName (htag : isSingleName tag = true) : tag ≠ "" := by
  rintro rfl
  exact absurd htag (by decide)

/-- Behind a single name the suffix leads downwards too. -/
theorem descends_staging (htag : isSingleName tag = true) :
    isAbsolute (tag ++ stagingSuffix) = false ∧ Descends (tag ++ stagingSuffix) := by
  obtain ⟨habsolute, hdescends, -⟩ := descends_of_isSingleName htag
  constructor
  · rw [isAbsolute_append (ne_empty_of_isSingleName htag), habsolute]
  · rw [descends_iff] at hdescends ⊢
    by_cases hslash : '/' ∈ tag.toList
    · obtain ⟨name, last, hname, hstaging⟩ := segments_of_slash htag hslash
      rw [hname] at hdescends
      rw [hstaging]
      simpa [(isName_of_staging last).2.symm] using hdescends
    · obtain ⟨-, hstaging⟩ := segments_of_plain htag hslash
      rw [hstaging]
      simpa using (isName_of_staging tag.toList).2.symm

/-! ## Directories -/

theorem segments_tagDirectory (htag : isSingleName key.tag = true) :
    segments (tagDirectory root key) =
      segments (groupDirectory root key.org key.group) ++ segments key.tag :=
  segments_join (descends_of_isSingleName htag).1

theorem placeOf_tagDirectory (htag : isSingleName key.tag = true) :
    fs.placeOf (tagDirectory root key) =
      fs.placeOf (groupDirectory root key.org key.group) ++ names key.tag := by
  obtain ⟨habsolute, hdescends, -⟩ := descends_of_isSingleName htag
  exact placeOf_join habsolute hdescends

/-- The staging directory is joined to the directory of the group, however that is written. -/
theorem stagingDirectory_eq_join (root : String) (htag : isSingleName key.tag = true) :
    ∃ above, stagingDirectory root key = join above (key.tag ++ stagingSuffix) ∧
      segments above = segments (groupDirectory root key.org key.group) ∧
      isAbsolute above = isAbsolute (groupDirectory root key.org key.group) := by
  obtain ⟨habsolute, -, name, hsegments, hname⟩ := descends_of_isSingleName htag
  have hlast : segments (tagDirectory root key) =
      segments (groupDirectory root key.org key.group) ++ [name] := by
    rw [segments_tagDirectory htag, hsegments]
  obtain ⟨above, hjoin, habove, hbegin⟩ := withFileName_eq_join hlast hname
  exact ⟨above, hjoin _, habove, hbegin.trans (isAbsolute_join habsolute)⟩

theorem segments_stagingDirectory (htag : isSingleName key.tag = true) :
    segments (stagingDirectory root key) =
      segments (groupDirectory root key.org key.group) ++ segments (key.tag ++ stagingSuffix) := by
  obtain ⟨above, hjoin, habove, -⟩ := stagingDirectory_eq_join root htag
  rw [hjoin, segments_join (descends_staging htag).1, habove]

theorem placeOf_stagingDirectory (htag : isSingleName key.tag = true) :
    fs.placeOf (stagingDirectory root key) =
      fs.placeOf (groupDirectory root key.org key.group) ++ names (key.tag ++ stagingSuffix) := by
  obtain ⟨above, hjoin, habove, hbegin⟩ := stagingDirectory_eq_join root htag
  obtain ⟨habsolute, hdescends⟩ := descends_staging htag
  have hstart : fs.start above = fs.start (groupDirectory root key.org key.group) := by
    rw [start, start, hbegin]
  rw [hjoin, placeOf_join habsolute hdescends, placeOf_eq_follow_segments, habove, hstart,
    ← placeOf_eq_follow_segments]

theorem of_checkDirectoryName {name : String} (h : checkDirectoryName key name = .ok ()) :
    isSingleName name = true := by
  rw [checkDirectoryName] at h
  split at h
  · assumption
  · cases h

theorem of_checkPolicy {g : GeneratedPolicy} (h : checkPolicy key g = .ok ()) :
    isSingleName g.policy = true ∧ ∀ name ∈ g.resources.keys, isRelative name = true := by
  rw [checkPolicy] at h
  split at h
  · cases h
  next hpolicy =>
  split at h
  · cases h
  next hnone =>
  refine ⟨by simpa using hpolicy, fun name hmem => ?_⟩
  simpa using List.find?_eq_none.mp hnone name hmem

/-- What a deployment is checked for before anything is written. -/
theorem of_checkNames (h : checkNames key policies = .ok ()) :
    isSingleName key.org = true ∧ isSingleName key.group = true ∧ isSingleName key.tag = true ∧
      ∀ g ∈ policies, isSingleName g.policy = true ∧
        ∀ name ∈ g.resources.keys, isRelative name = true := by
  rw [checkNames] at h
  obtain ⟨⟨⟩, horg, h⟩ := Outcome.of_bind_eq_ok h
  obtain ⟨⟨⟩, hgroup, h⟩ := Outcome.of_bind_eq_ok h
  obtain ⟨⟨⟩, htag, h⟩ := Outcome.of_bind_eq_ok h
  exact ⟨of_checkDirectoryName horg, of_checkDirectoryName hgroup, of_checkDirectoryName htag,
    fun g hg => of_checkPolicy (Outcome.of_forM_eq_ok h g hg)⟩

theorem extends_group (horg : isSingleName key.org = true)
    (hgroup : isSingleName key.group = true) :
    Extends root (groupDirectory root key.org key.group) := by
  obtain ⟨horgAbsolute, horg, -⟩ := descends_of_isSingleName horg
  obtain ⟨hgroupAbsolute, hgroup, -⟩ := descends_of_isSingleName hgroup
  exact (Extends.refl.join horgAbsolute horg).join hgroupAbsolute hgroup

theorem extends_tagDirectory (htag : isSingleName key.tag = true) :
    Extends (groupDirectory root key.org key.group) (tagDirectory root key) := by
  obtain ⟨habsolute, hdescends, -⟩ := descends_of_isSingleName htag
  exact Extends.refl.join habsolute hdescends

theorem extends_stagingDirectory (htag : isSingleName key.tag = true) :
    Extends (groupDirectory root key.org key.group) (stagingDirectory root key) := by
  obtain ⟨above, hjoin, habove, hbegin⟩ := stagingDirectory_eq_join root htag
  obtain ⟨habsolute, hdescends⟩ := descends_staging htag
  refine ⟨segments (key.tag ++ stagingSuffix), ?_, descends_iff.mp hdescends, ?_⟩
  · rw [hjoin, segments_join habsolute, habove]
  · rw [hjoin, isAbsolute_join habsolute, hbegin]

theorem tagDirectory_ne_empty (htag : isSingleName key.tag = true) : tagDirectory root key ≠ "" :=
  join_ne_empty (ne_empty_of_isSingleName htag)

theorem stagingDirectory_ne_empty (htag : isSingleName key.tag = true) :
    stagingDirectory root key ≠ "" := by
  obtain ⟨above, hjoin, -⟩ := stagingDirectory_eq_join root htag
  rw [hjoin]
  refine join_ne_empty fun hempty => ?_
  have htext := congrArg String.toList hempty
  simp [stagingSuffix] at htext

/-! ## Steps -/

section Steps

variable {path newPath text : String} {r : Except BuildError Unit} {e : BuildError}

/-- An operation on files is done, and a fault is reported with a path. -/
theorem runIn_attempt {α : Type} (action : StateM FileSystem (Except FileFault α)) :
    runIn fs (attempt path action) =
      ((action.run fs).1.mapError fun fault => .file path fault.message, (action.run fs).2) := by
  rw [attempt, runIn_bind, runIn_lift]
  obtain ⟨fault | a, fs'⟩ := action.run fs <;> rfl

theorem runIn_makeDirectory : runIn fs (makeDirectory path) =
    ((fs.makeDirectories path).1.mapError fun fault => .file path fault.message,
      (fs.makeDirectories path).2) :=
  runIn_attempt _

theorem runIn_writeFile : runIn fs (writeFile path text) =
    ((fs.settle (fs.write path text)).1.mapError fun fault => .file path fault.message,
      (fs.settle (fs.write path text)).2) :=
  runIn_attempt _

theorem of_runIn_writeFile (h : runIn fs (writeFile path text) = (.ok (), fs')) :
    fs.write path text = .ok fs' := by
  rw [runIn_writeFile] at h
  cases hwrite : fs.write path text with
  | error fault =>
      rw [hwrite] at h
      cases (Prod.mk.inj h).1
  | ok written =>
      rw [hwrite] at h
      exact congrArg Except.ok (Prod.mk.inj h).2

theorem runIn_moveInto : runIn fs (moveInto path newPath) =
    ((fs.settle (fs.rename path newPath)).1.mapError fun fault => .file newPath fault.message,
      (fs.settle (fs.rename path newPath)).2) :=
  runIn_attempt _

/-- A directory that is not there needs no removal. -/
theorem of_runIn_removeDirectory (h : runIn fs (removeDirectory path) = (r, fs')) :
    fs' = (fs.removeTree path).2 ∧
      ((fs.removeTree path).1 = .ok () ∨ (fs.removeTree path).1 = .error .notFound ↔
        r = .ok ()) := by
  have hrun : (Files.removeTree path : StateM FileSystem _).run fs = fs.removeTree path := rfl
  rw [removeDirectory, runIn_bind, runIn_lift, hrun] at h
  cases hremove : fs.removeTree path with
  | mk outcome fs₁ =>
      simp only [hremove] at h ⊢
      split at h <;> obtain ⟨rfl, rfl⟩ := Prod.mk.inj h
      · next a => exact ⟨rfl, fun _ => rfl, fun _ => .inl rfl⟩
      · exact ⟨rfl, fun _ => rfl, fun _ => .inr rfl⟩
      · next fault hne =>
        refine ⟨rfl, fun hgone => ?_, fun hok => nomatch hok⟩
        rcases hgone with hok | hmissing
        · exact nomatch hok
        · exact absurd (Except.error.inj hmissing) hne

variable {R : FileSystem → FileSystem → Prop}

theorem keeps_makeDirectory (h : ∀ fs, R fs (fs.makeDirectories path).2) :
    Keeps R (makeDirectory path) := fun fs => by
  rw [runIn_makeDirectory]
  exact h fs

theorem keeps_writeFile (h : ∀ fs, R fs (fs.settle (fs.write path text)).2) :
    Keeps R (writeFile path text) := fun fs => by
  rw [runIn_writeFile]
  exact h fs

theorem keeps_removeDirectory (h : ∀ fs, R fs (fs.removeTree path).2) :
    Keeps R (removeDirectory path) := fun fs => by
  rw [(of_runIn_removeDirectory (Prod.eta _).symm).1]
  exact h fs

end Steps

/-! ## Stages of a deployment -/

section Stages

variable {build : BuildId} {now : Instant} {r : Except BuildError Manifest}

/-- What a deployment does before it puts its result into place. -/
def stage (root : String) (key : TagKey) (id : BuildId) (now : Instant)
    (policies : List GeneratedPolicy) : ExceptT BuildError (StateM FileSystem) Unit := do
  removeDirectory (stagingDirectory root key)
  makeDirectory (stagingDirectory root key)
  policies.forM fun g => writePolicy (join (stagingDirectory root key) g.policy) g
  writeFile (join (stagingDirectory root key) manifestFile)
    (Manifest.ofGenerated key id now policies).toText

theorem deploy_eq : deploy root key build now policies = (do
    ExceptT.mk (pure (checkNames key policies))
    stage root key build now policies
    removeDirectory (tagDirectory root key)
    moveInto (stagingDirectory root key) (tagDirectory root key)
    return Manifest.ofGenerated key build now policies :
      ExceptT BuildError (StateM FileSystem) Manifest) := by
  simp only [deploy, stage, bind_assoc]

/-- How far a deployment comes, and what it leaves. -/
inductive Course (root : String) (key : TagKey) (build : BuildId) (now : Instant)
    (policies : List GeneratedPolicy) (fs : FileSystem) :
    Except BuildError Manifest → FileSystem → Prop
  /-- A name is refused. -/
  | refused {e : BuildError} (hnames : checkNames key policies = .error e) :
      Course root key build now policies fs (.error e) fs
  /-- The staging directory cannot be filled. -/
  | notStaged {e : BuildError} {fs₁ : FileSystem} (hnames : checkNames key policies = .ok ())
      (hstage : runIn fs (stage root key build now policies) = (.error e, fs₁)) :
      Course root key build now policies fs (.error e) fs₁
  /-- What was deployed before cannot be removed. -/
  | notRemoved {e : BuildError} {fs₁ fs₂ : FileSystem} (hnames : checkNames key policies = .ok ())
      (hstage : runIn fs (stage root key build now policies) = (.ok (), fs₁))
      (hremove : runIn fs₁ (removeDirectory (tagDirectory root key)) = (.error e, fs₂)) :
      Course root key build now policies fs (.error e) fs₂
  /-- The staging directory cannot be moved. -/
  | notMoved {e : BuildError} {fault : FileFault} {fs₁ fs₂ : FileSystem}
      (hnames : checkNames key policies = .ok ())
      (hstage : runIn fs (stage root key build now policies) = (.ok (), fs₁))
      (hremove : runIn fs₁ (removeDirectory (tagDirectory root key)) = (.ok (), fs₂))
      (hmove : fs₂.rename (stagingDirectory root key) (tagDirectory root key) = .error fault) :
      Course root key build now policies fs (.error e) fs₂
  /-- All is done. -/
  | deployed {fs₁ fs₂ fs₃ : FileSystem} (hnames : checkNames key policies = .ok ())
      (hstage : runIn fs (stage root key build now policies) = (.ok (), fs₁))
      (hremove : runIn fs₁ (removeDirectory (tagDirectory root key)) = (.ok (), fs₂))
      (hmove : fs₂.rename (stagingDirectory root key) (tagDirectory root key) = .ok fs₃) :
      Course root key build now policies fs (.ok (Manifest.ofGenerated key build now policies)) fs₃

theorem course_of_runIn (h : runIn fs (deploy root key build now policies) = (r, fs')) :
    Course root key build now policies fs r fs' := by
  have hmoving (fs₂ : FileSystem) :
      runIn fs₂ (moveInto (stagingDirectory root key) (tagDirectory root key)) = _ :=
    runIn_moveInto
  rw [deploy_eq] at h
  cases r with
  | error e =>
      rcases runIn_bind_eq_error.mp h with hnames | ⟨⟨⟩, fs₀, hnames, h⟩
      · obtain ⟨hchecked, rfl⟩ := Prod.mk.inj hnames
        exact .refused hchecked
      obtain ⟨hchecked, rfl⟩ := Prod.mk.inj hnames
      rcases runIn_bind_eq_error.mp h with hstage | ⟨⟨⟩, fs₁, hstage, h⟩
      · exact .notStaged hchecked hstage
      rcases runIn_bind_eq_error.mp h with hremove | ⟨⟨⟩, fs₂, hremove, h⟩
      · exact .notRemoved hchecked hstage hremove
      rcases runIn_bind_eq_error.mp h with hmove | ⟨⟨⟩, fs₃, -, h⟩
      swap
      · cases (Prod.mk.inj h).1
      cases hrename : fs₂.rename (stagingDirectory root key) (tagDirectory root key) with
      | ok fs₃ =>
          rw [hmoving, hrename] at hmove
          cases (Prod.mk.inj hmove).1
      | error fault =>
          rw [hmoving, hrename] at hmove
          obtain ⟨-, rfl⟩ := Prod.mk.inj hmove
          exact .notMoved hchecked hstage hremove hrename
  | ok m =>
      obtain ⟨⟨⟩, fs₀, hnames, h⟩ := runIn_bind_eq_ok.mp h
      obtain ⟨hchecked, rfl⟩ := Prod.mk.inj hnames
      obtain ⟨⟨⟩, fs₁, hstage, h⟩ := runIn_bind_eq_ok.mp h
      obtain ⟨⟨⟩, fs₂, hremove, h⟩ := runIn_bind_eq_ok.mp h
      obtain ⟨⟨⟩, fs₃, hmove, h⟩ := runIn_bind_eq_ok.mp h
      obtain ⟨hm, rfl⟩ := Prod.mk.inj h
      obtain rfl := Except.ok.inj hm
      cases hrename : fs₂.rename (stagingDirectory root key) (tagDirectory root key) with
      | ok fs₄ =>
          rw [hmoving, hrename] at hmove
          obtain ⟨-, rfl⟩ := Prod.mk.inj hmove
          exact .deployed hchecked hstage hremove hrename
      | error fault =>
          rw [hmoving, hrename] at hmove
          cases (Prod.mk.inj hmove).1

section Filling

/-- The files of a deployment have single names. -/
theorem isSingleName_files : isSingleName manifestFile = true ∧
    isSingleName definitionFile = true ∧ isSingleName dependenciesFile = true ∧
    isSingleName resourcesDirectory = true := by
  decide

theorem extends_join (directory : String) {name : String} (h : isSingleName name = true) :
    Extends directory (join directory name) := by
  obtain ⟨habsolute, hdescends, -⟩ := descends_of_isSingleName h
  exact Extends.refl.join habsolute hdescends

variable {R : FileSystem → FileSystem → Prop} {directory path : String} {g : GeneratedPolicy}

/-- What is written for a policy is written in its directory. -/
theorem keeps_writePolicy (hrefl : ∀ fs, R fs fs)
    (htrans : ∀ fs fs' fs'', R fs fs' → R fs' fs'' → R fs fs'')
    (hmake : ∀ fs path, Extends directory path → R fs (fs.makeDirectories path).2)
    (hwrite : ∀ fs path text, Extends directory path → R fs (fs.settle (fs.write path text)).2)
    (hnames : ∀ name ∈ g.resources.keys, isRelative name = true) :
    Keeps R (writePolicy directory g) := by
  obtain ⟨-, hdefinition, hdependencies, hresources⟩ := isSingleName_files
  refine Keeps.bind htrans (keeps_makeDirectory fun fs => hmake fs _ .refl) fun _ => ?_
  refine Keeps.bind htrans
    (keeps_writeFile fun fs => hwrite fs _ _ (extends_join _ hdefinition)) fun _ => ?_
  refine Keeps.bind htrans
    (keeps_writeFile fun fs => hwrite fs _ _ (extends_join _ hdependencies)) fun _ => ?_
  refine Keeps.forM hrefl htrans fun entry hentry => ?_
  obtain ⟨habsolute, hdescends⟩ :=
    descends_of_isRelative (hnames entry.1 (List.mem_map_of_mem hentry))
  have hpath := (extends_join directory hresources).join habsolute hdescends
  have hwrites : Keeps R (writeFile (join (join directory resourcesDirectory) entry.1) entry.2) :=
    keeps_writeFile fun fs => hwrite fs _ _ hpath
  unfold writeResource
  dsimp only
  split
  · next above habove =>
    refine Keeps.bind htrans (keeps_makeDirectory fun fs => ?_) fun _ => hwrites
    refine hmake fs above (hpath.parent ?_ habove)
    obtain ⟨hbegin, -, name, hname, -⟩ := descends_of_isSingleName hresources
    rw [segments_join habsolute, segments_join hbegin, hname, List.append_assoc]
    simp
  · exact hwrites

/-- All that is made before the result is put into place is made in the staging directory. -/
theorem keeps_stage (hrefl : ∀ fs, R fs fs)
    (htrans : ∀ fs fs' fs'', R fs fs' → R fs' fs'' → R fs fs'')
    (hnames : checkNames key policies = .ok ())
    (hremove : ∀ fs, R fs (fs.removeTree (stagingDirectory root key)).2)
    (hmake : ∀ fs path, Extends (stagingDirectory root key) path →
      R fs (fs.makeDirectories path).2)
    (hwrite : ∀ fs path text, Extends (stagingDirectory root key) path →
      R fs (fs.settle (fs.write path text)).2) :
    Keeps R (stage root key build now policies) := by
  obtain ⟨-, -, -, hpolicies⟩ := of_checkNames hnames
  refine Keeps.bind htrans (keeps_removeDirectory hremove) fun _ => ?_
  refine Keeps.bind htrans (keeps_makeDirectory fun fs => hmake fs _ .refl) fun _ => ?_
  refine Keeps.bind htrans (Keeps.forM hrefl htrans fun g hg => ?_) fun _ => ?_
  · obtain ⟨hpolicy, hresources⟩ := hpolicies g hg
    have hdirectory := extends_join (stagingDirectory root key) hpolicy
    exact keeps_writePolicy hrefl htrans (fun fs path h => hmake fs path (hdirectory.trans h))
      (fun fs path text h => hwrite fs path text (hdirectory.trans h)) hresources
  · exact keeps_writeFile fun fs => hwrite fs _ _ (extends_join _ isSingleName_files.1)

end Filling

/-- Where directories may be made on the way to a deployment: if the root descends from a place,
and does not lead through the staging directory, between the two. -/
def Approach (root : String) (key : TagKey) (fs : FileSystem) (p : Place) : Prop :=
  ∀ place, fs.DescendsFrom root place →
    ¬ fs.Crosses root (fs.placeOf (stagingDirectory root key)) →
    p <+: fs.placeOf (stagingDirectory root key) ∧ ¬ p <+: place

/-- Until the result is put into place only the staging directory changes, but for directories
on the way to it. -/
theorem confined_stage {outcome : Except BuildError Unit}
    (hnames : checkNames key policies = .ok ())
    (hstage : runIn fs (stage root key build now policies) = (outcome, fs')) :
    Confined (fs.placeOf (stagingDirectory root key) <+: ·) (Approach root key fs) fs fs' := by
  have hend : fs' = (runIn fs (stage root key build now policies)).2 := by rw [hstage]
  rw [hend]
  obtain ⟨horg, hgroup, htag, -⟩ := of_checkNames hnames
  have hstaging : Extends root (stagingDirectory root key) :=
    (extends_group horg hgroup).trans (extends_stagingDirectory htag)
  refine keeps_stage
    (R := fun fs₁ fs₂ =>
      Confined (fs.placeOf (stagingDirectory root key) <+: ·) (Approach root key fs) fs fs₁ →
      Confined (fs.placeOf (stagingDirectory root key) <+: ·) (Approach root key fs) fs fs₂)
    (fun _ => id) (fun _ _ _ h h' => h' ∘ h) hnames (fun fs₁ h => ?_)
    (fun fs₁ path hpath h => ?_) (fun fs₁ path text hpath h => ?_) fs .refl
  · have hremove := confined_removeTree fs₁ (stagingDirectory root key)
    rw [placeOf_congr h.workingDirectory_eq] at hremove
    exact h.trans (hremove.mono (fun _ => id) fun _ hfalse => hfalse.elim)
  · refine h.trans ((confined_makeDirectories fs₁ path).mono (fun _ hfalse => hfalse.elim)
      fun p hp => or_iff_not_imp_left.mpr fun hfree place hdescends houtside => ?_)
    have hroot := h.descendsFrom hdescends fun q hq hcrosses => houtside (hcrosses.mono hq)
    obtain ⟨hplace, hbegin⟩ := hp place (hroot.of_extends (hstaging.trans hpath))
    rw [placeOf_congr h.workingDirectory_eq] at hplace
    exact ⟨(List.prefix_or_prefix_of_prefix hplace (placeOf_of_extends hpath)).resolve_right hfree,
      hbegin⟩
  · refine h.trans (confined_write.mono (fun p hp => ?_) fun _ hfalse => hfalse.elim)
    rw [hp, placeOf_congr h.workingDirectory_eq]
    exact placeOf_of_extends hpath

theorem isTree_stage {outcome : Except BuildError Unit}
    (hnames : checkNames key policies = .ok ())
    (hstage : runIn fs (stage root key build now policies) = (outcome, fs')) (hfs : fs.IsTree) :
    fs'.IsTree := by
  have hend : fs' = (runIn fs (stage root key build now policies)).2 := by rw [hstage]
  rw [hend]
  exact keeps_stage (R := fun fs fs' => fs.IsTree → fs'.IsTree) (fun _ h => h)
    (fun _ _ _ h h' => h' ∘ h) hnames (fun _ => IsTree.removeTree)
    (fun _ _ _ => IsTree.makeDirectories) (fun _ _ _ _ => IsTree.settle_write) fs hfs

/-- Once the staging directory is filled it can be walked to, and it was looked for before. -/
theorem of_stage {fs₁ : FileSystem} (hnames : checkNames key policies = .ok ())
    (hstage : runIn fs (stage root key build now policies) = (.ok (), fs₁)) :
    checkPath (stagingDirectory root key) = .ok () ∧
      fs₁.walk (fs₁.start (stagingDirectory root key)) (segments (stagingDirectory root key)) =
        .ok (fs₁.placeOf (stagingDirectory root key)) ∧
      fs₁.node? (fs₁.placeOf (stagingDirectory root key)) = some .directory := by
  obtain ⟨-, -, htag, -⟩ := of_checkNames hnames
  obtain ⟨⟨⟩, fs₂, hremove, h⟩ := runIn_bind_eq_ok.mp hstage
  obtain ⟨⟨⟩, fs₃, -, h⟩ := runIn_bind_eq_ok.mp h
  obtain ⟨⟨⟩, fs₄, -, h⟩ := runIn_bind_eq_ok.mp h
  refine ⟨checkPath_of_removeTree (stagingDirectory_ne_empty htag)
    ((of_runIn_removeDirectory hremove).2.mpr rfl), ?_⟩
  obtain ⟨directory, value, hparent, hnode, rfl⟩ :=
    exists_locateParent_of_write (of_runIn_writeFile h)
  have hmanifest : fs₄.placeOf (join (stagingDirectory root key) manifestFile) =
      fs₄.placeOf (stagingDirectory root key) ++ [manifestFile] :=
    placeOf_join (by decide) (by decide)
  obtain ⟨hplace, hvalue⟩ :=
    List.append_inj' ((placeOf_of_locateParent hparent).symm.trans hmanifest) rfl
  subst hplace
  obtain rfl : value = manifestFile.toList := by
    rw [← List.singleton_inj.mp hvalue, String.toList_ofList]
  obtain ⟨-, hwalk, hdirectory, -⟩ :=
    (locateParent_join_eq_ok _ (by decide) (by decide) (by decide)).mp hparent
  -- Writing the manifest has put no file in the place of a directory.
  have hkept (p : Place) (hp : fs₄.node? p = some .directory) :
      (fs₄.put (fs₄.placeOf (stagingDirectory root key) ++ [String.ofList manifestFile.toList])
        (.file (Manifest.ofGenerated key build now policies).toText)).node? p =
          some .directory := by
    rw [node?_put (by simp), if_neg, hp]
    intro heq
    rw [heq] at hp
    exact hnode hp
  refine ⟨walk_mono hwalk hkept fun p hp => ?_, hkept _ hdirectory⟩
  rw [node?_put (by simp)]
  split
  · rfl
  · exact hp

end Stages

end RouteCompiler.Deployment
