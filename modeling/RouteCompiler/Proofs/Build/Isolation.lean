import RouteCompiler.Proofs.Build.Replacement

/-!
# Deployments beside each other

The tags of a group are deployed beside each other, and what is removed and moved for one of
them is at two places there: its own, and that of its staging directory.  This module shows that
a deployment leaves every other tag alone, unless that names one of these two places.

Main results:

- Theorem `confined_deploy`: a deployment changes these two places, and makes directories on the
  way to them.
- Theorem `Apart.readManifest_eq`: what is read elsewhere stays the same.
- Theorem `deployment_spares_other`: when another tag of the group keeps its files and its
  manifest, and what becomes of it otherwise.
-/

namespace RouteCompiler.Deployment

open RouteCompiler.Path FileSystem

variable {fs fs' fs₁ fs₂ fs₃ : FileSystem} {root : String} {key other : TagKey} {build : BuildId}
  {now : Instant} {policies : List GeneratedPolicy} {r : Except BuildError Manifest}

/-! ## Changes -/

/-- What a deployment may change: all that is at or below the place of its tag, and that of its
staging directory. -/
def Reach (root : String) (key : TagKey) (fs : FileSystem) (p : Place) : Prop :=
  fs.placeOf (stagingDirectory root key) <+: p ∨ fs.placeOf (tagDirectory root key) <+: p

theorem confined_staged {outcome : Except BuildError Unit}
    (hnames : checkNames key policies = .ok ())
    (hstage : runIn fs (stage root key build now policies) = (outcome, fs₁)) :
    Confined (Reach root key fs) (Approach root key fs) fs fs₁ :=
  (confined_stage hnames hstage).mono (fun _ => .inl) fun _ => .inr

theorem confined_removed {outcome : Except BuildError Unit}
    (hnames : checkNames key policies = .ok ())
    (hstage : runIn fs (stage root key build now policies) = (.ok (), fs₁))
    (hremove : runIn fs₁ (removeDirectory (tagDirectory root key)) = (outcome, fs₂)) :
    Confined (Reach root key fs) (Approach root key fs) fs fs₂ := by
  have hfirst := confined_staged hnames hstage
  obtain ⟨hremoved, -⟩ := of_runIn_removeDirectory hremove
  subst hremoved
  have hlast := confined_removeTree fs₁ (tagDirectory root key)
  rw [placeOf_congr hfirst.workingDirectory_eq] at hlast
  exact hfirst.trans (hlast.mono (fun _ => .inr) fun _ hfalse => hfalse.elim)

/-- A deployment changes nothing else, but for directories that it makes on the way. -/
theorem confined_deploy (h : runIn fs (deploy root key build now policies) = (r, fs')) :
    Confined (Reach root key fs) (Approach root key fs) fs fs' := by
  cases course_of_runIn h with
  | refused => exact .refl
  | notStaged hnames hstage => exact confined_staged hnames hstage
  | notRemoved hnames hstage hremove => exact confined_removed hnames hstage hremove
  | notMoved hnames hstage hremove hmove => exact confined_removed hnames hstage hremove
  | @deployed fs₁ fs₂ _ hnames hstage hremove hmove =>
      have hfirst := confined_removed hnames hstage hremove
      have hlast := confined_rename hmove
      rw [placeOf_congr hfirst.workingDirectory_eq,
        placeOf_congr hfirst.workingDirectory_eq] at hlast
      exact hfirst.trans (hlast.mono (fun _ => id) fun _ hfalse => hfalse.elim)

/-! ## Other tags -/

/-- Another tag of the same group can be deployed, and its name is neither that of the tag nor
that of the staging directory of the tag. -/
structure Apart (key other : TagKey) : Prop where
  org_eq : other.org = key.org
  group_eq : other.group = key.group
  isSingleName : isSingleName other.tag = true
  names_ne_tag : names other.tag ≠ names key.tag
  names_ne_staging : names other.tag ≠ names (key.tag ++ stagingSuffix)

theorem placeOf_other (horg : other.org = key.org) (hgroup : other.group = key.group)
    (hother : isSingleName other.tag = true) : fs.placeOf (tagDirectory root other) =
      fs.placeOf (groupDirectory root key.org key.group) ++ names other.tag := by
  rw [placeOf_tagDirectory hother, horg, hgroup]

/-- The place of another tag is separate from the two places of a tag. -/
theorem Apart.separate (h : Apart key other) (htag : Path.isSingleName key.tag = true)
    (fs : FileSystem) (root : String) :
    Separate (fs.placeOf (stagingDirectory root key)) (fs.placeOf (tagDirectory root other)) ∧
      Separate (fs.placeOf (tagDirectory root key)) (fs.placeOf (tagDirectory root other)) := by
  have hplace : fs.placeOf (tagDirectory root other) = _ :=
    placeOf_other h.org_eq h.group_eq h.isSingleName
  have htagNe := h.names_ne_tag
  have hstagingNe := h.names_ne_staging
  obtain ⟨name, hname⟩ := names_of_isSingleName h.isSingleName
  simp only [Separate, hplace, placeOf_stagingDirectory htag, placeOf_tagDirectory htag,
    List.prefix_append_right_inj]
  rw [hname] at htagNe hstagingNe ⊢
  by_cases hslash : '/' ∈ key.tag.toList
  · obtain ⟨first, last, hfirst, hstaging⟩ := names_of_slash htag hslash
    rw [hfirst] at htagNe ⊢
    rw [hstaging]
    simpa [eq_comm] using htagNe
  · obtain ⟨htext, hstaging⟩ := names_of_plain htag hslash
    rw [htext] at htagNe ⊢
    rw [hstaging] at hstagingNe ⊢
    simpa [eq_comm] using And.intro hstagingNe htagNe

/-- What a deployment changes at all it changes after its names were accepted. -/
theorem checkNames_of_changed (h : runIn fs (deploy root key build now policies) = (r, fs')) :
    fs' = fs ∨ checkNames key policies = .ok () := by
  cases course_of_runIn h with
  | refused => exact .inl rfl
  | notStaged hnames => exact .inr hnames
  | notRemoved hnames => exact .inr hnames
  | notMoved hnames => exact .inr hnames
  | deployed hnames => exact .inr hnames

theorem checkNames_of_ok {m : Manifest}
    (h : runIn fs (deploy root key build now policies) = (.ok m, fs')) :
    checkNames key policies = .ok () := by
  cases course_of_runIn h with
  | deployed hnames => exact hnames

/-- What a manifest is depends on what is read where it is. -/
theorem runIn_readManifest : (runIn fs (readManifest root key)).1 =
    match fs.read (join (tagDirectory root key) manifestFile) with
    | .ok text => (Manifest.ofText text).map some
    | .error .notFound => .ok none
    | .error fault =>
        .error (.file (join (tagDirectory root key) manifestFile) fault.message) := by
  have hrun : (Files.readText (join (tagDirectory root key) manifestFile) :
      StateM FileSystem _).run fs = (fs.read (join (tagDirectory root key) manifestFile), fs) := rfl
  rw [readManifest, runIn_bind, runIn_lift, hrun]
  cases fs.read (join (tagDirectory root key) manifestFile) with
  | error fault => cases fault <;> rfl
  | ok text =>
      change (runIn fs (ExceptT.mk (pure (Manifest.ofText text)) >>= fun m => pure (some m))).1 = _
      rw [runIn_bind, runIn_mk]
      dsimp only
      cases Manifest.ofText text <;> rfl

/-- The manifest of another tag is read as before, if the root descends from a place that it comes
to without leading through what is deployed, and all names are short enough to be looked for. -/
theorem Apart.readManifest_eq (h : Apart key other) (hfs : fs.IsTree) {place : Place}
    (hroot : fs.DescendsFrom root place)
    (htagOutside : ¬ fs.Crosses root (fs.placeOf (tagDirectory root key)))
    (hstagingOutside : ¬ fs.Crosses root (fs.placeOf (stagingDirectory root key)))
    (hlength : ∀ piece ∈ pieces (join (tagDirectory root other) manifestFile),
      Text.byteLength piece ≤ maxNameLength)
    (hrun : runIn fs (deploy root key build now policies) = (r, fs')) :
    (runIn fs' (readManifest root other)).1 = (runIn fs (readManifest root other)).1 := by
  rcases checkNames_of_changed hrun with rfl | hnames
  · rfl
  obtain ⟨horg, hgroup, htag, -⟩ := of_checkNames hnames
  obtain ⟨hstaging, htagPlace⟩ := h.separate htag fs root
  have hextends : Extends (tagDirectory root other) (join (tagDirectory root other) manifestFile) :=
    extends_join _ isSingleName_files.1
  have hgroupExtends : Extends root (groupDirectory root other.org other.group) :=
    extends_group (h.org_eq ▸ horg) (h.group_eq ▸ hgroup)
  have hroots := (hgroupExtends.trans (extends_tagDirectory h.isSingleName)).trans hextends
  have hbelow : fs.placeOf (tagDirectory root other) <+: fs.placeOf _ :=
    placeOf_of_extends hextends
  rw [runIn_readManifest, runIn_readManifest,
    hfs.read_of_confined (confined_deploy hrun) (hroot.of_extends hroots) hlength]
  · rintro p (hregion | hregion) hcrosses
    · exact hstagingOutside ((hcrosses.mono hregion).of_extends hroots (hstaging.not_prefix hbelow))
    · exact htagOutside ((hcrosses.mono hregion).of_extends hroots (htagPlace.not_prefix hbelow))
  · exact fun happroach => (happroach place hroot hstagingOutside).2 List.prefix_rfl
  · intro happroach
    exact hstaging.2 (hbelow.trans (happroach place hroot hstagingOutside).1)

/-- After a success nothing is left where the staging directory was. -/
theorem noFilesAt_stagingDirectory {m : Manifest}
    (h : runIn fs (deploy root key build now policies) = (.ok m, fs')) :
    NoFilesAt (fs.placeOf (stagingDirectory root key)) fs' := by
  cases course_of_runIn h with
  | @deployed fs₁ fs₂ _ hnames hstage hremove hmove =>
      have hseparate := separate_of_rename hnames hstage hremove hmove fs₂
      have hplaces := (confined_removed hnames hstage hremove).workingDirectory_eq
      rw [← placeOf_congr hplaces]
      obtain ⟨hsource, -, hmoved⟩ := of_rename_outside hmove hseparate.2
      subst hmoved
      intro p hp
      rw [file?, node?_move_elsewhere hsource (hseparate.not_prefix hp), if_pos hp]

/-- A deployment leaves all files as they are but those at the place of its tag and at that of
its staging directory.  So it leaves every other tag of the group that can be deployed, and its
manifest is read as before.  Only if that tag is named as the staging directory nothing is left
of it, and if the two tags name one directory they share it. -/
theorem deployment_spares_other (h : runIn fs (deploy root key build now policies) = (r, fs'))
    (other : TagKey) (horg : other.org = key.org) (hgroup : other.group = key.group) :
    SameFilesBut [fs.placeOf (tagDirectory root key), fs.placeOf (stagingDirectory root key)]
        fs fs' ∧
      (isSingleName other.tag = true →
        names other.tag ≠ names key.tag → names other.tag ≠ names (key.tag ++ stagingSuffix) →
        (∀ p, fs.placeOf (tagDirectory root other) <+: p → fs'.file? p = fs.file? p) ∧
          (∀ place, fs.IsTree → fs.DescendsFrom root place →
            ¬ fs.Crosses root (fs.placeOf (tagDirectory root key)) →
            ¬ fs.Crosses root (fs.placeOf (stagingDirectory root key)) →
            (∀ piece ∈ pieces (join (tagDirectory root other) manifestFile),
              Text.byteLength piece ≤ maxNameLength) →
            (runIn fs' (readManifest root other)).1 = (runIn fs (readManifest root other)).1)) ∧
      ∀ m, r = .ok m → isSingleName other.tag = true →
        (names other.tag = names (key.tag ++ stagingSuffix) →
          NoFilesAt (fs.placeOf (tagDirectory root other)) fs') ∧
        (names other.tag = names key.tag →
          fs.placeOf (tagDirectory root other) = fs.placeOf (tagDirectory root key)) := by
  have hconfined := confined_deploy h
  refine ⟨hconfined.sameFilesBut fun p hreach => ?_, fun hother htag hstaging => ?_, ?_⟩
  · rcases hreach with hstaging | htag
    · exact ⟨_, List.mem_cons_of_mem _ List.mem_cons_self, hstaging⟩
    · exact ⟨_, List.mem_cons_self, htag⟩
  · have hapart : Apart key other := ⟨horg, hgroup, hother, htag, hstaging⟩
    refine ⟨fun p hp => ?_, fun place hfs hroot htagOutside hstagingOutside hlength =>
      hapart.readManifest_eq hfs hroot htagOutside hstagingOutside hlength h⟩
    rcases checkNames_of_changed h with rfl | hnames
    · rfl
    obtain ⟨hstagingPlace, htagPlace⟩ :=
      hapart.separate (of_checkNames hnames).2.2.1 fs root
    refine hconfined.file?_eq fun hreach => ?_
    exact hreach.elim (hstagingPlace.not_prefix hp) (htagPlace.not_prefix hp)
  · rintro m rfl hother
    obtain ⟨-, -, htag, -⟩ := of_checkNames (checkNames_of_ok h)
    rw [placeOf_other horg hgroup hother]
    constructor
    · intro hnames
      rw [hnames, ← placeOf_stagingDirectory htag]
      exact noFilesAt_stagingDirectory h
    · intro hnames
      rw [hnames, ← placeOf_tagDirectory htag]

theorem deployment_spares_other_beside : ∃ m fs',
    runIn deployedBefore (deploy "out" ⟨"acme", "g", "v1"⟩ "b1" .epoch (policyWith ["a"])) =
      (.ok m, fs') ∧
    (∀ p, ["out", "acme", "g", "v2"] <+: p → fs'.file? p = deployedBefore.file? p) ∧
    (runIn fs' (readManifest "out" ⟨"acme", "g", "v2"⟩)).1 =
      (runIn deployedBefore (readManifest "out" ⟨"acme", "g", "v2"⟩)).1 ∧
    NoFilesAt ["out", "acme", "g", "v1.staging"] fs' := by
  have hplaces : deployedBefore.placeOf (tagDirectory "out" ⟨"acme", "g", "v2"⟩) =
        ["out", "acme", "g", "v2"] ∧
      deployedBefore.placeOf (tagDirectory "out" ⟨"acme", "g", "v1.staging"⟩) =
        ["out", "acme", "g", "v1.staging"] := by
    decide +kernel
  obtain ⟨m, fs', hrun⟩ := exists_runIn_eq_ok (s := deployedBefore)
    (x := deploy "out" ⟨"acme", "g", "v1"⟩ "b1" .epoch (policyWith ["a"])) (by decide +kernel)
  obtain ⟨-, hother, -⟩ := deployment_spares_other hrun ⟨"acme", "g", "v2"⟩ rfl rfl
  obtain ⟨hfiles, hmanifest⟩ := hother (by decide) (by decide) (by decide)
  obtain ⟨-, -, hsuccess⟩ := deployment_spares_other hrun ⟨"acme", "g", "v1.staging"⟩ rfl rfl
  obtain ⟨hstaging, -⟩ := hsuccess m rfl (by decide)
  refine ⟨m, fs', hrun, hplaces.1 ▸ hfiles, ?_, hplaces.2 ▸ hstaging (by decide)⟩
  exact hmanifest _ (isTree_of_entries (by decide +kernel)) (descendsFrom_start (by decide))
    (fun hcrosses => absurd (hcrosses.prefix_placeOf (by decide)) (by decide +kernel))
    (fun hcrosses => absurd (hcrosses.prefix_placeOf (by decide)) (by decide +kernel))
    (by decide +kernel)

end RouteCompiler.Deployment
