import RouteCompiler.Proofs.Model.Validity

/-!
# Coordinates that are validated

The text of a coordinate has three parts with colons between them.  Reading looks for empty
parts, validation for blank ones, so that what is valid is always read back, but not all that is
read is valid.

Endpoints, policies and resources hold coordinates of packages.  The validation of an endpoint
goes through those that it holds; that of a policy passes over its own and over those of its
resources.  So a snapshot without failures answers for the coordinates of its endpoints only:
all others may be exchanged for any, and nobody is told.

Main definitions:

- `Snapshot.Holds`: a snapshot holds a coordinate, in one of the three places.
- `Snapshot.withPackages`: a snapshot with other packages in its policies and their resources.

Main results:

- Theorem `parse_toText_iff`: which coordinates are read back from their text.
- Theorem `parse_inverts_toText`: which texts are read, and that reading and writing undo each
  other.
- Theorem `validate_withPackages`: validation does not depend on the packages of policies and
  resources.
- Theorem `coordinates_validated`: what a snapshot without failures says about its coordinates.
-/

namespace RouteCompiler

open RouteCompiler.Text

/-! ## One coordinate -/

namespace Coordinate

variable {c : Coordinate} {text : String}

/-- The three parts of a coordinate. -/
def parts (c : Coordinate) : List String :=
  [c.groupId, c.artifactId, c.version]

theorem validatePart_eq_nil_iff {field value : String} :
    validatePart field value = [] ↔ isBlankText value = false ∧ ':' ∉ value.toList := by
  rw [validatePart]
  cases isBlankText value <;> simp

/-- A coordinate is valid if no part of it is blank or holds the separator. -/
theorem validate_eq_nil_iff :
    c.validate = [] ↔ ∀ part ∈ c.parts, isBlankText part = false ∧ ':' ∉ part.toList := by
  simp only [validate, parts, List.append_eq_nil_iff, validatePart_eq_nil_iff, List.mem_cons,
    List.not_mem_nil, or_false, forall_eq_or_imp, forall_eq, and_assoc]

/-- Whatever text it was read from, no part of a coordinate is empty or holds the separator. -/
theorem of_parse_eq_some (h : parse? text = some c) :
    ∀ part ∈ c.parts, part ≠ "" ∧ ':' ∉ part.toList := by
  rw [parse?] at h
  split at h
  · next group artifact version hsplit =>
    have hpiece : ∀ piece ∈ [group, artifact, version], ':' ∉ piece :=
      fun piece hmem => not_mem_of_mem_splitOn (hsplit ▸ hmem)
    split at h
    · cases h
    · next hempty =>
      simp only [Bool.or_eq_true, List.isEmpty_iff, not_or, and_assoc] at hempty
      obtain rfl := Option.some.inj h
      simpa [parts, hempty] using hpiece
  · cases h

theorem splitOn_toText (hparts : ∀ part ∈ c.parts, ':' ∉ part.toList) :
    splitOn ':' c.toText.toList = [c.groupId.toList, c.artifactId.toList, c.version.toList] := by
  simp only [parts, List.mem_cons, List.not_mem_nil, or_false, forall_eq_or_imp, forall_eq]
    at hparts
  obtain ⟨hgroup, hartifact, hversion⟩ := hparts
  have htext : c.toText.toList =
      c.groupId.toList ++ ':' :: (c.artifactId.toList ++ ':' :: c.version.toList) := by
    have hjoined : c.toText = c.groupId ++ ":" ++ c.artifactId ++ ":" ++ c.version := rfl
    simp [hjoined]
  rw [htext, splitOn_append_cons, splitOn_append_cons, splitOn_of_not_mem hgroup,
    splitOn_of_not_mem hartifact, splitOn_of_not_mem hversion]
  rfl

/-- A coordinate is read back from its text exactly if no part of it is empty or holds the
separator. -/
theorem parse_toText_iff :
    parse? c.toText = some c ↔ ∀ part ∈ c.parts, part ≠ "" ∧ ':' ∉ part.toList := by
  refine ⟨of_parse_eq_some, fun h => ?_⟩
  rw [parse?, splitOn_toText fun part hpart => (h part hpart).2]
  simp only [parts, List.mem_cons, List.not_mem_nil, or_false, forall_eq_or_imp, forall_eq] at h
  simp [h, String.toList_eq_nil_iff]

/-- A valid coordinate is read back from its text. -/
theorem parse_toText_of_validate (h : c.validate = []) : parse? c.toText = some c := by
  refine parse_toText_iff.mpr fun part hpart => ?_
  obtain ⟨hblank, hseparator⟩ := validate_eq_nil_iff.mp h part hpart
  refine ⟨?_, hseparator⟩
  rintro rfl
  cases hblank

theorem toText_eq_append (c : Coordinate) :
    c.toText = c.groupId ++ ":" ++ c.artifactId ++ ":" ++ c.version := rfl

/-- A coordinate that was read has the text it was read from. -/
theorem toText_of_parse (h : parse? text = some c) : c.toText = text := by
  rw [parse?] at h
  split at h
  · next group artifact version hsplit =>
    split at h
    · cases h
    · obtain rfl := Option.some.inj h
      have hjoined := intercalate_splitOn ':' text.toList
      rw [hsplit] at hjoined
      refine String.toList_injective ?_
      rw [toText_eq_append, ← hjoined]
      simp [List.intercalate]
  · cases h

/-- Which text is read as which coordinate. -/
theorem parse_eq_some_iff :
    parse? text = some c ↔ c.toText = text ∧ ∀ part ∈ c.parts, part ≠ "" ∧ ':' ∉ part.toList := by
  constructor
  · exact fun h => ⟨toText_of_parse h, of_parse_eq_some h⟩
  · rintro ⟨rfl, hparts⟩
    exact parse_toText_iff.mpr hparts

/-- Reading and writing are inverse.  A text is read exactly if it consists of three parts with
colons between them, none of which is empty or holds a colon, and what is read has that text; a
valid coordinate is read back from its text. -/
theorem parse_inverts_toText (text : String) (c : Coordinate) :
    ((parse? text).isSome ↔ ∃ group artifact version : String,
      (∀ part ∈ [group, artifact, version], part ≠ "" ∧ ':' ∉ part.toList) ∧
        text = group ++ ":" ++ artifact ++ ":" ++ version) ∧
    (∀ read, parse? text = some read → read.toText = text) ∧
    (c.validate = [] → parse? c.toText = some c) := by
  refine ⟨?_, fun read => toText_of_parse, parse_toText_of_validate⟩
  rw [Option.isSome_iff_exists]
  constructor
  · rintro ⟨read, hread⟩
    obtain ⟨htext, hparts⟩ := parse_eq_some_iff.mp hread
    exact ⟨read.groupId, read.artifactId, read.version, hparts, htext.symm⟩
  · rintro ⟨group, artifact, version, hparts, rfl⟩
    exact ⟨⟨group, artifact, version⟩, parse_eq_some_iff.mpr ⟨rfl, hparts⟩⟩

/-- A blank group is read and written, although it is not valid; a blank inside a part does no
harm. -/
theorem parse_inverts_toText_blank :
    (parse? " :a:1").isSome ∧ (⟨" ", "a", "1"⟩ : Coordinate).toText = " :a:1" ∧
      (⟨" ", "a", "1"⟩ : Coordinate).validate ≠ [] ∧
      parse? (⟨"g", "a b", "1"⟩ : Coordinate).toText = some ⟨"g", "a b", "1"⟩ := by
  obtain ⟨hread, hwritten, hvalid⟩ := parse_inverts_toText " :a:1" ⟨"g", "a b", "1"⟩
  have hblank : parse? " :a:1" = some ⟨" ", "a", "1"⟩ := by decide +kernel
  exact ⟨hread.mpr ⟨" ", "a", "1", by decide, by decide⟩, hwritten _ hblank, by decide,
    hvalid (by decide)⟩

end Coordinate

/-! ## Holders of coordinates -/

/-- A policy or one of its resources holds a coordinate. -/
def Policy.Holds (p : Policy) (c : Coordinate) : Prop :=
  c ∈ p.dependencies ∨ ∃ r ∈ p.resources, c ∈ r.dependencies

/-- The validation of an endpoint goes through the coordinates that it holds. -/
theorem Endpoint.validate_of_mem {e : Endpoint} (h : e.validate = []) {c : Coordinate}
    (hc : c ∈ e.dependencies) : c.validate = [] := by
  simp only [validate, List.append_eq_nil_iff, List.flatMap_eq_nil_iff] at h
  exact List.map_eq_nil_iff.mp (h.2 c hc)

/-- A policy that needs other packages, and whose resources do. -/
def Policy.withPackages (p : Policy) (own : Packages) (ofResource : Resource → Packages) :
    Policy :=
  { p with
    dependencies := own
    resources := p.resources.map fun r => { r with dependencies := ofResource r } }

/-- Items that are checked alike have the same failures. -/
theorem failuresOfItems_map {α β : Type} {f : α → β} {check : Nat → List α → α → List Failure}
    {check' : Nat → List β → β → List Failure}
    (hcheck : ∀ i earlier a, check' i (earlier.map f) (f a) = check i earlier a)
    (earlier l : List α) :
    failuresOfItems check' (earlier.map f) (l.map f) = failuresOfItems check earlier l := by
  induction l generalizing earlier with
  | nil => rfl
  | cons a l ih =>
      have hlater := ih (earlier ++ [a])
      rw [List.map_append, List.map_singleton] at hlater
      rw [List.map_cons, failuresOfItems, failuresOfItems, hcheck, hlater, List.length_map]

/-- The validation of a policy passes over all coordinates. -/
theorem Policy.validate_withPackages (p : Policy) (own : Packages)
    (ofResource : Resource → Packages) : (p.withPackages own ofResource).validate = p.validate := by
  rw [validate, validate]
  congr 1
  refine failuresOfItems_map (fun _ earlier r => ?_) [] p.resources
  rw [validateResource, validateResource, List.map_map]
  rfl

namespace Snapshot

variable {s : Snapshot}

/-- An endpoint, a policy or a resource of a snapshot holds a coordinate. -/
def Holds (s : Snapshot) (c : Coordinate) : Prop :=
  (∃ e ∈ s.group.endpoints, c ∈ e.dependencies) ∨ ∃ p ∈ s.policies, p.Holds c

/-- A snapshot whose policies and resources need other packages. -/
def withPackages (s : Snapshot) (ofPolicy : Policy → Packages)
    (ofResource : Policy → Resource → Packages) : Snapshot :=
  { s with policies := s.policies.map fun p => p.withPackages (ofPolicy p) (ofResource p) }

/-- Validation does not depend on the packages of policies and resources. -/
theorem validate_withPackages (s : Snapshot) (ofPolicy : Policy → Packages)
    (ofResource : Policy → Resource → Packages) :
    (s.withPackages ofPolicy ofResource).validate = s.validate := by
  rw [validate, validate]
  congr 1
  refine failuresOfItems_map (fun i earlier p => ?_) [] s.policies
  rw [validatePolicy, validatePolicy, Policy.validate_withPackages, List.map_map]
  rfl

/-- The coordinates of endpoints of a snapshot without failures are valid. -/
theorem validate_of_endpoint (h : s.validate = []) {e : Endpoint} (he : e ∈ s.group.endpoints)
    {c : Coordinate} (hc : c ∈ e.dependencies) : c.validate = [] := by
  simp only [validate, Group.validate, List.append_eq_nil_iff, List.map_eq_nil_iff] at h
  have hvalid : ∀ e ∈ s.group.endpoints, e.validate = [] := by
    refine forall_of_failuresOfItems (fun i earlier e hcheck => ?_) h.1.2
    simp only [Group.validateEndpoint, List.append_eq_nil_iff, List.map_eq_nil_iff] at hcheck
    exact hcheck.1
  exact Endpoint.validate_of_mem (hvalid e he) hc

/-- A snapshot without failures answers for the coordinates of its endpoints: they are valid,
and are read back from their texts.  It answers for all that it holds exactly if those of its
policies and resources are valid, and that nobody has checked: with any other packages in
their place there is no failure either. -/
theorem coordinates_validated (h : s.validate = []) :
    (∀ e ∈ s.group.endpoints, ∀ c ∈ e.dependencies,
      c.validate = [] ∧ Coordinate.parse? c.toText = some c) ∧
    ((∀ c, s.Holds c → c.validate = [] ∧ Coordinate.parse? c.toText = some c) ↔
      ∀ p ∈ s.policies, ∀ c, p.Holds c → c.validate = []) ∧
    ∀ ofPolicy ofResource, (s.withPackages ofPolicy ofResource).validate = [] := by
  have hread (c : Coordinate) (hc : c.validate = []) :
      c.validate = [] ∧ Coordinate.parse? c.toText = some c :=
    ⟨hc, Coordinate.parse_toText_of_validate hc⟩
  refine ⟨fun e he c hc => hread c (validate_of_endpoint h he hc), ?_,
    fun ofPolicy ofResource => ?_⟩
  · constructor
    · intro hall p hp c hc
      exact (hall c (.inr ⟨p, hp, hc⟩)).1
    · rintro hpolicies c (⟨e, he, hc⟩ | ⟨p, hp, hc⟩)
      · exact hread c (validate_of_endpoint h he hc)
      · exact hread c (hpolicies p hp c hc)
  · rw [validate_withPackages, h]

/-- A snapshot of which a policy and its resource hold coordinates that cannot be read back. -/
def unreadableSnapshot : Snapshot where
  group := { name := "g", endpoints := [
    { name := "q", uri := "jms:q", dependencies := .ofList [⟨"g", "a", "1"⟩] }] }
  policies := [{
    name := "p"
    dependencies := .ofList [⟨"g", "a:b", "1"⟩]
    resources := [{ name := "r", dependencies := .ofList [⟨"g", "a", ""⟩] }] }]
  definitions := .ofList [("p", "<a/>")]

/-- It has no failures all the same, and only the coordinate of its endpoint is sure to be read
back. -/
theorem coordinates_validated_unreadable :
    unreadableSnapshot.validate = [] ∧
      (∀ e ∈ unreadableSnapshot.group.endpoints, ∀ c ∈ e.dependencies,
        c.validate = [] ∧ Coordinate.parse? c.toText = some c) ∧
      Coordinate.parse? (⟨"g", "a:b", "1"⟩ : Coordinate).toText = none ∧
      ¬ ∀ c, unreadableSnapshot.Holds c →
        c.validate = [] ∧ Coordinate.parse? c.toText = some c := by
  have hvalid : unreadableSnapshot.validate = [] := by decide +kernel
  obtain ⟨hendpoints, hiff, -⟩ := coordinates_validated hvalid
  refine ⟨hvalid, hendpoints, by decide +kernel, hiff.not.mpr fun hpolicies => ?_⟩
  have hmem : (⟨"g", "a:b", "1"⟩ : Coordinate) ∈
      (SortedSet.ofList [⟨"g", "a:b", "1"⟩] : Packages) := SortedSet.mem_ofList.mpr (by simp)
  have hinvalid := hpolicies _ List.mem_cons_self _ (.inl hmem)
  revert hinvalid
  decide +kernel

end Snapshot

end RouteCompiler
