import Mathlib.Data.List.Nodup
import RouteCompiler.Proofs.Build.Isolation

/-!
# What a deployment delivers

The files of a deployment are written one after another to paths that are joined from names.  The
staging directory is empty at first, so afterwards it holds what was written, and of what was
written to one path twice the last.  Then it takes the place of what was deployed before.  This
module follows the files on this way.  All that was generated is delivered, and nothing else,
unless names that are written differently lead to one file.

Main definitions:

- `generatedFiles`: the files that policies ask for, with the places at which they belong.
- `FileSystem.FilesAt`: the files below the place of a path are those of a map.

Main results:

- Theorem `filesAt_stage`: what is in the staging directory once it is filled.
- Theorem `deployed_files`: what is deployed, and when that is all that was generated.
-/

namespace RouteCompiler

namespace FileSystem

variable {fs fs' : FileSystem} {path file text : String} {below : Place}
  {files : SortedMap Place String}

/-- The files below the place of a path are those of a map, by the names that lead to them. -/
def FilesAt (path : String) (files : SortedMap Place String) (fs : FileSystem) : Prop :=
  ∀ below, fs.file? (fs.placeOf path ++ below) = files.find? below

/-- Changes elsewhere leave these files as they are. -/
theorem FilesAt.of_confined {region allowed : Place → Prop} (h : FilesAt path files fs)
    (hconfined : Confined region allowed fs fs')
    (hregion : ∀ below, ¬ region (fs.placeOf path ++ below)) : FilesAt path files fs' := by
  intro below
  rw [placeOf_congr hconfined.workingDirectory_eq, hconfined.file?_eq (hregion below), h below]

/-- A file that is written is put into the map. -/
theorem FilesAt.write (h : FilesAt path files fs) (hwrite : fs.write file text = .ok fs')
    (hplace : fs.placeOf file = fs.placeOf path ++ below) :
    FilesAt path (files.insert below text) fs' := by
  obtain ⟨hne, -, -, rfl⟩ := of_write hwrite
  intro other
  have hstart : (fs.put (fs.placeOf file) (.file text)).placeOf path = fs.placeOf path :=
    placeOf_congr rfl
  rw [hstart, file?, node?_put hne, hplace, SortedMap.find_insert]
  by_cases hother : other = below
  · rw [if_pos (by rw [hother]), if_pos hother]
  · rw [if_neg fun heq => hother (List.append_cancel_left heq), if_neg hother, ← h other, file?]

end FileSystem

namespace Deployment

open RouteCompiler.Path FileSystem

variable {fs fs' fs₁ fs₂ : FileSystem} {root path directory : String} {key : TagKey}
  {build : BuildId} {now : Instant} {policies : List GeneratedPolicy} {g : GeneratedPolicy}
  {files : SortedMap Place String} {m : Manifest}

/-! ## What is asked for -/

/-- The files that a policy asks for, below the directory of the tag. -/
def policyFiles (g : GeneratedPolicy) : List (Place × String) :=
  (names g.policy ++ [definitionFile], g.definition) ::
    (names g.policy ++ [dependenciesFile], Json.pretty (encode g.dependencies)) ::
    g.resources.entries.map fun entry =>
      (names g.policy ++ resourcesDirectory :: names entry.1, entry.2)

/-- The files that policies ask for, in the order in which they are written. -/
def generatedFiles (policies : List GeneratedPolicy) : List (Place × String) :=
  policies.flatMap policyFiles

/-- A file of a policy is in a directory, where the manifest is not. -/
theorem place_ne_manifest (hpolicies : ∀ g ∈ policies, isSingleName g.policy = true)
    {file : Place × String} (hfile : file ∈ generatedFiles policies) :
    file.1 ≠ [manifestFile] := by
  obtain ⟨g, hg, hfile⟩ := List.mem_flatMap.mp hfile
  obtain ⟨name, hname⟩ := names_of_isSingleName (hpolicies g hg)
  rw [policyFiles, hname] at hfile
  simp only [List.mem_cons, List.mem_map] at hfile
  rcases hfile with rfl | rfl | ⟨entry, -, rfl⟩ <;> simp

/-- The first name on the way to a file of a policy is that of the policy. -/
theorem head_of_mem_policyFiles (hpolicy : isSingleName g.policy = true)
    {file : Place × String} (hfile : file ∈ policyFiles g) :
    file.1.take 1 = names g.policy := by
  obtain ⟨name, hname⟩ := names_of_isSingleName hpolicy
  rw [policyFiles, hname] at hfile
  simp only [List.mem_cons, List.mem_map] at hfile
  rcases hfile with rfl | rfl | ⟨entry, -, rfl⟩ <;> simp [hname]

/-- A policy whose resources lead to different places asks for one file at each place. -/
theorem policyFiles_agree (hresources : (g.resources.keys.map names).Nodup)
    {file other : Place × String} (hfile : file ∈ policyFiles g) (hother : other ∈ policyFiles g)
    (hplace : file.1 = other.1) : file.2 = other.2 := by
  have hentries : (g.resources.entries.map (names ∘ Prod.fst)).Nodup := by
    rwa [← List.map_map]
  have hdefinition : definitionFile ≠ dependenciesFile ∧ definitionFile ≠ resourcesDirectory ∧
      dependenciesFile ≠ resourcesDirectory := by
    decide
  obtain ⟨hdependencies, hresource, hresource'⟩ := hdefinition
  simp only [policyFiles, List.mem_cons, List.mem_map] at hfile hother
  rcases hfile with rfl | rfl | ⟨entry, hentry, rfl⟩ <;>
    rcases hother with rfl | rfl | ⟨entry', hentry', rfl⟩ <;>
    simp only [List.append_cancel_left_eq, List.cons.injEq] at hplace
  · rfl
  · exact absurd hplace.1 hdependencies
  · exact absurd hplace.1 hresource
  · exact absurd hplace.1.symm hdependencies
  · rfl
  · exact absurd hplace.1 hresource'
  · exact absurd hplace.1.symm hresource
  · exact absurd hplace.1.symm hresource'
  · rw [List.inj_on_of_nodup_map hentries hentry hentry' hplace.2]

/-- Policies and resources whose names lead to different places ask for one file at each place. -/
theorem generatedFiles_agree (hpolicies : ∀ g ∈ policies, isSingleName g.policy = true)
    (hdistinct : (policies.map fun g => names g.policy).Nodup)
    (hresources : ∀ g ∈ policies, (g.resources.keys.map names).Nodup)
    {file other : Place × String} (hfile : file ∈ generatedFiles policies)
    (hother : other ∈ generatedFiles policies) (hplace : file.1 = other.1) :
    file.2 = other.2 := by
  obtain ⟨g, hg, hfile⟩ := List.mem_flatMap.mp hfile
  obtain ⟨g', hg', hother⟩ := List.mem_flatMap.mp hother
  have hnames : names g.policy = names g'.policy := by
    rw [← head_of_mem_policyFiles (hpolicies g hg) hfile, hplace,
      head_of_mem_policyFiles (hpolicies g' hg') hother]
  obtain rfl := List.inj_on_of_nodup_map hdistinct hg hg' hnames
  exact policyFiles_agree (hresources g hg) hfile hother hplace

/-! ## Filling the staging directory -/

/-- Writing for one item of a list after another writes what is written for each. -/
theorem filesAt_forM {α : Type} {f : α → ExceptT BuildError (StateM FileSystem) Unit}
    (entries : α → List (Place × String)) {l : List α}
    (hstep : ∀ a ∈ l, ∀ fs fs' files, FilesAt path files fs → runIn fs (f a) = (.ok (), fs') →
      FilesAt path (files.insertAll (entries a)) fs')
    (h : FilesAt path files fs) (hrun : runIn fs (l.forM f) = (.ok (), fs')) :
    FilesAt path (files.insertAll (l.flatMap entries)) fs' := by
  induction l generalizing fs files with
  | nil =>
      obtain ⟨-, rfl⟩ := Prod.mk.inj hrun
      exact h
  | cons a l ih =>
      obtain ⟨⟨⟩, fs₁, ha, hl⟩ := runIn_bind_eq_ok.mp hrun
      rw [List.flatMap_cons, SortedMap.insertAll_append]
      exact ih (fun b hb => hstep b (List.mem_cons_of_mem a hb))
        (hstep a List.mem_cons_self fs fs₁ files h ha) hl

theorem filesAt_makeDirectory {r : Except BuildError Unit} (h : FilesAt path files fs)
    (hrun : runIn fs (makeDirectory directory) = (r, fs')) : FilesAt path files fs' := by
  rw [runIn_makeDirectory] at hrun
  obtain ⟨-, rfl⟩ := Prod.mk.inj hrun
  exact h.of_confined (confined_makeDirectories ..) fun _ => not_false

section Policy

variable {front : Place}
  (hdirectory : ∀ fs : FileSystem, fs.placeOf directory = fs.placeOf path ++ front)

include hdirectory

/-- A file with a single name is written in its directory. -/
theorem filesAt_writeFile {name text : String} (hname : isSingleName name = true)
    (hnames : names name = [name]) (h : FilesAt path files fs)
    (hrun : runIn fs (writeFile (join directory name) text) = (.ok (), fs')) :
    FilesAt path (files.insert (front ++ [name]) text) fs' := by
  obtain ⟨habsolute, hdescends, -⟩ := descends_of_isSingleName hname
  refine h.write (of_runIn_writeFile hrun) ?_
  rw [placeOf_join habsolute hdescends, hdirectory, hnames, List.append_assoc]

/-- A resource is written where its name leads. -/
theorem filesAt_writeResource {entry : String × String} (hname : isRelative entry.1 = true)
    (h : FilesAt path files fs)
    (hrun : runIn fs (writeResource directory entry) = (.ok (), fs')) :
    FilesAt path (files.insertAll [(front ++ resourcesDirectory :: names entry.1, entry.2)])
      fs' := by
  obtain ⟨habsolute, hdescends⟩ := descends_of_isRelative hname
  have hplace (fs : FileSystem) :
      fs.placeOf (join (join directory resourcesDirectory) entry.1) =
        fs.placeOf path ++ (front ++ resourcesDirectory :: names entry.1) := by
    rw [placeOf_join habsolute hdescends, placeOf_join (by decide) (by decide), hdirectory]
    simp [show names resourcesDirectory = [resourcesDirectory] by decide]
  unfold writeResource at hrun
  dsimp only at hrun
  split at hrun
  · obtain ⟨⟨⟩, fs₁, hmake, hwrite⟩ := runIn_bind_eq_ok.mp hrun
    exact (filesAt_makeDirectory h hmake).write (of_runIn_writeFile hwrite) (hplace fs₁)
  · exact h.write (of_runIn_writeFile hrun) (hplace fs)

/-- All files of a policy are written in its directory. -/
theorem filesAt_writePolicy (hnames : ∀ name ∈ g.resources.keys, isRelative name = true)
    (hfront : front = names g.policy) (h : FilesAt path files fs)
    (hrun : runIn fs (writePolicy directory g) = (.ok (), fs')) :
    FilesAt path (files.insertAll (policyFiles g)) fs' := by
  obtain ⟨-, hdefinition, hdependencies, -⟩ := isSingleName_files
  obtain ⟨⟨⟩, fs₁, hmake, hrun⟩ := runIn_bind_eq_ok.mp hrun
  obtain ⟨⟨⟩, fs₂, hfirst, hrun⟩ := runIn_bind_eq_ok.mp hrun
  obtain ⟨⟨⟩, fs₃, hsecond, hrun⟩ := runIn_bind_eq_ok.mp hrun
  have h₁ := filesAt_makeDirectory h hmake
  have h₂ := filesAt_writeFile hdirectory hdefinition (by decide) h₁ hfirst
  have h₃ := filesAt_writeFile hdirectory hdependencies (by decide) h₂ hsecond
  subst hfront
  rw [policyFiles, List.map_eq_flatMap]
  exact filesAt_forM _ (fun entry hentry fs fs' files h hrun =>
    filesAt_writeResource hdirectory (hnames entry.1 (List.mem_map_of_mem hentry)) h hrun) h₃ hrun

end Policy

/-- Once the staging directory is filled it holds the files that were asked for, and the
manifest. -/
theorem filesAt_stage (hfs : fs.IsTree) (hroot : ∃ place, fs.DescendsFrom root place)
    (hnames : checkNames key policies = .ok ())
    (hstage : runIn fs (stage root key build now policies) = (.ok (), fs₁)) :
    FilesAt (stagingDirectory root key) (.ofList (generatedFiles policies ++
      [([manifestFile], (Manifest.ofGenerated key build now policies).toText)])) fs₁ := by
  obtain ⟨horg, hgroup, htag, hpolicies⟩ := of_checkNames hnames
  obtain ⟨place, hplace⟩ := hroot
  obtain ⟨⟨⟩, fs₂, hremove, h⟩ := runIn_bind_eq_ok.mp hstage
  obtain ⟨⟨⟩, fs₃, hmake, h⟩ := runIn_bind_eq_ok.mp h
  obtain ⟨⟨⟩, fs₄, hwrite, hmanifest⟩ := runIn_bind_eq_ok.mp h
  have hempty : FilesAt (stagingDirectory root key) .empty fs₂ := by
    obtain ⟨hremoved, hgone⟩ := of_runIn_removeDirectory hremove
    subst hremoved
    have hstart := (confined_removeTree fs (stagingDirectory root key)).workingDirectory_eq
    intro below
    rw [placeOf_congr hstart, file?, hfs.node?_removeTree
      (hplace.of_extends ((extends_group horg hgroup).trans (extends_stagingDirectory htag)))
      (stagingDirectory_ne_empty htag) (hgone.mpr rfl) (List.prefix_append ..)]
    rfl
  have hdirectory := filesAt_makeDirectory hempty hmake
  have hall := filesAt_forM policyFiles (fun g hg fs fs' files h hrun => by
    obtain ⟨hpolicy, hresources⟩ := hpolicies g hg
    obtain ⟨habsolute, hdescends, -⟩ := descends_of_isSingleName hpolicy
    exact filesAt_writePolicy (fun fs => placeOf_join habsolute hdescends) hresources rfl h hrun)
    hdirectory hwrite
  rw [SortedMap.ofList, SortedMap.insertAll_append]
  have hsame (fs : FileSystem) : fs.placeOf (stagingDirectory root key) =
      fs.placeOf (stagingDirectory root key) ++ [] := (List.append_nil _).symm
  exact filesAt_writeFile hsame isSingleName_files.1 (by decide) hall hmanifest

/-- Where nothing is, the staging directory is found again once it has been moved there. -/
theorem filesAt_rename (htag : isSingleName key.tag = true)
    (h : FilesAt (stagingDirectory root key) files fs)
    (hempty : ∀ p, fs.placeOf (tagDirectory root key) <+: p → fs.node? p = none)
    (hmove : fs.rename (stagingDirectory root key) (tagDirectory root key) = .ok fs') :
    FilesAt (tagDirectory root key) files fs' := by
  obtain ⟨hsource, htarget, hmoved⟩ := of_rename_outside hmove (staging_not_prefix_tag htag)
  subst hmoved
  have hkeep (p : Place) : (fs.keep (· != fs.placeOf (tagDirectory root key))).node? p =
      if p = fs.placeOf (tagDirectory root key) then none else fs.node? p := by
    rw [node?_keep (by simpa using htarget.symm)]
    by_cases hp : p = fs.placeOf (tagDirectory root key) <;> simp [hp]
  intro below
  have hstart : ((fs.keep (· != fs.placeOf (tagDirectory root key))).move
      (fs.placeOf (stagingDirectory root key))
      (fs.placeOf (tagDirectory root key))).placeOf (tagDirectory root key) =
        fs.placeOf (tagDirectory root key) := placeOf_congr rfl
  rw [hstart, file?, node?_move_below hsource htarget, hkeep, if_neg, ← h below, file?]
  · intro heq
    have hbelow := List.prefix_append (fs.placeOf (stagingDirectory root key)) below
    rw [heq] at hbelow
    exact staging_not_prefix_tag htag hbelow
  · intro p hp
    rw [hkeep]
    split
    · rfl
    · exact hempty p hp

/-- After a success the files of the tag are those that were asked for, and the manifest. -/
theorem filesAt_deployed (hfs : fs.IsTree) (hroot : ∃ place, fs.DescendsFrom root place)
    (h : runIn fs (deploy root key build now policies) = (.ok m, fs')) :
    m = Manifest.ofGenerated key build now policies ∧
      FilesAt (tagDirectory root key)
        (.ofList (generatedFiles policies ++ [([manifestFile], m.toText)])) fs' := by
  cases course_of_runIn h with
  | @deployed fs₁ fs₂ _ hnames hstage hremove hmove =>
      obtain ⟨-, -, htag, -⟩ := of_checkNames hnames
      have hslash : '/' ∉ key.tag.toList := fun hslash =>
        not_rename_of_slash hnames hslash hstage hremove hmove
      have hnone := node?_tagDirectory_of_removed hnames hslash hstage hremove
      have hseparate := separate_of_rename hnames hstage hremove hmove fs₁
      have hfilled := filesAt_stage hfs hroot hnames hstage
      have hfs₁ := isTree_stage hnames hstage hfs
      obtain ⟨hremoved, -⟩ := of_runIn_removeDirectory hremove
      subst hremoved
      have hconfined := confined_removeTree fs₁ (tagDirectory root key)
      have hkept := hfilled.of_confined hconfined fun _ =>
        hseparate.not_prefix (List.prefix_append ..)
      refine ⟨rfl, filesAt_rename htag hkept (fun p hp => ?_) hmove⟩
      rw [placeOf_congr hconfined.workingDirectory_eq] at hp
      exact hfs₁.removeTree.node?_below hnone hp

/-- A success delivers a manifest that describes the policies, and of the files that they ask
for all, and nothing else, if no two of them belong at one place with different contents.  So it
does where no two policies, and no two resources of a policy, have names of one file. -/
theorem deployed_files (hfs : fs.IsTree) (hroot : ∃ place, fs.DescendsFrom root place)
    (h : runIn fs (deploy root key build now policies) = (.ok m, fs')) :
    m.policies = policies.map (fun g =>
        { name := g.policy
          sha256 := Sha256.digest g.definition
          dependencies := .ofNat g.dependencies.size
          resources := g.resources.keys }) ∧
      fs'.file? (fs.placeOf (tagDirectory root key) ++ [manifestFile]) = some m.toText ∧
      (∀ below content, fs'.file? (fs.placeOf (tagDirectory root key) ++ below) = some content →
        (below, content) ∈ generatedFiles policies ∨ below = [manifestFile]) ∧
      ((∀ file ∈ generatedFiles policies,
          fs'.file? (fs.placeOf (tagDirectory root key) ++ file.1) = some file.2) ↔
        ∀ file ∈ generatedFiles policies, ∀ other ∈ generatedFiles policies,
          file.1 = other.1 → file.2 = other.2) ∧
      ((policies.map fun g => names g.policy).Nodup →
        (∀ g ∈ policies, (g.resources.keys.map names).Nodup) →
        ∀ file ∈ generatedFiles policies,
          fs'.file? (fs.placeOf (tagDirectory root key) ++ file.1) = some file.2) := by
  obtain ⟨rfl, hfiles⟩ := filesAt_deployed hfs hroot h
  obtain ⟨-, -, -, hnames⟩ := of_checkNames (checkNames_of_ok h)
  have hpolicies : ∀ g ∈ policies, isSingleName g.policy = true := fun g hg => (hnames g hg).1
  have hplace : fs'.placeOf (tagDirectory root key) = fs.placeOf (tagDirectory root key) :=
    placeOf_congr (confined_deploy h).workingDirectory_eq
  have hat : ∀ below, fs'.file? (fs.placeOf (tagDirectory root key) ++ below) = _ :=
    fun below => hplace ▸ hfiles below
  have hall : (∀ file ∈ generatedFiles policies, ∀ other ∈ generatedFiles policies,
      file.1 = other.1 → file.2 = other.2) → ∀ file ∈ generatedFiles policies,
        fs'.file? (fs.placeOf (tagDirectory root key) ++ file.1) = some file.2 := by
    intro hagree file hfile
    rw [hat]
    refine SortedMap.find_ofList_eq_some (List.mem_append_left _ hfile) fun other hother => ?_
    rcases List.mem_append.mp hother with hother | hother
    · exact (hagree file hfile _ hother rfl).symm
    · obtain ⟨hmanifest, -⟩ := Prod.mk.inj (List.mem_singleton.mp hother)
      exact absurd hmanifest (place_ne_manifest hpolicies hfile)
  refine ⟨rfl, ?_, fun below content hcontent => ?_, ⟨fun hholds file hfile other hother heq => ?_,
    hall⟩, fun hdistinct hresources => hall fun file hfile other hother =>
      generatedFiles_agree hpolicies hdistinct hresources hfile hother⟩
  · rw [hat]
    refine SortedMap.find_ofList_eq_some (List.mem_append_right _ List.mem_cons_self)
      fun other hother => ?_
    rcases List.mem_append.mp hother with hother | hother
    · exact absurd rfl (place_ne_manifest hpolicies hother)
    · exact (Prod.mk.inj (List.mem_singleton.mp hother)).2
  · rw [hat] at hcontent
    have hwritten := List.mem_append.mp (SortedMap.mem_of_find_ofList hcontent)
    exact hwritten.imp_right fun hmanifest => (Prod.mk.inj (List.mem_singleton.mp hmanifest)).1
  · have hfirst := hholds file hfile
    rw [heq, hholds other hother] at hfirst
    exact (Option.some.inj hfirst).symm

theorem deployed_files_leftover : ∃ m fs',
    runIn deployedBefore (deploy "out" ⟨"acme", "g", "v1"⟩ "b1" .epoch (policyWith ["a/b"])) =
      (.ok m, fs') ∧
    fs'.file? ["out", "acme", "g", "v1", "p", "resources", "a", "b"] = some "text" ∧
    fs'.file? ["out", "acme", "g", "v1", "old.txt"] = none := by
  have hplace : deployedBefore.placeOf (tagDirectory "out" ⟨"acme", "g", "v1"⟩) =
      ["out", "acme", "g", "v1"] := by
    decide +kernel
  obtain ⟨m, fs', hrun⟩ := exists_runIn_eq_ok (s := deployedBefore)
    (x := deploy "out" ⟨"acme", "g", "v1"⟩ "b1" .epoch (policyWith ["a/b"])) (by decide +kernel)
  obtain ⟨-, -, hnothingElse, -, hall⟩ :=
    deployed_files (isTree_of_entries (by decide +kernel)) ⟨_, descendsFrom_start (by decide)⟩ hrun
  rw [hplace] at hnothingElse hall
  refine ⟨m, fs', hrun, ?_, ?_⟩
  · exact hall (by decide) (by decide +kernel)
      (["p", "resources", "a", "b"], "text") (by decide +kernel)
  · refine Option.eq_none_iff_forall_ne_some.mpr fun content hcontent => ?_
    rcases hnothingElse ["old.txt"] content hcontent with hgenerated | hmanifest
    · have hnot : ∀ file ∈ generatedFiles (policyWith ["a/b"]), file.1 ≠ ["old.txt"] := by
        decide +kernel
      exact hnot _ hgenerated rfl
    · exact absurd hmanifest (by decide)
end Deployment

end RouteCompiler
