import RouteCompiler.Files.Path
import Mathlib.Data.List.DropRight

/-!
# Names on a path

Paths are joined, cut and compared as texts, but a walk through a path looks at its pieces,
and passes over those that separate nothing.  This module says what joining and cutting do to
the pieces that are left.  With it paths that are written differently can be seen to lead the
same way, and names that look harmless can be seen to be so.

Main definitions:

- `segments`: the pieces of a path that lead somewhere.
- `names`: the segments as texts.
- `Descends`: no piece of a path leads upwards.
- `Extends`: a path leads on from another, downwards.

Main results:

- Theorem `exists_pieces_join`: joining puts the pieces of one path behind those of another.
- Theorem `segments_parent`: the parent of a path lacks its last segment.
- Theorem `withFileName_eq_join`: another last name is joined to the parent.
- Theorem `of_isSingleName`: a text that passes for a single name is that name, with
  separators behind it.
- Theorem `descends_of_isRelative`: a text that passes for a relative path leads downwards.
-/

namespace RouteCompiler.Path

open RouteCompiler.Text

variable {path base above : String} {piece : List Char}

/-! ## Pieces -/

/-- The pieces of a path that lead somewhere. -/
def segments (path : String) : List (List Char) :=
  (pieces path).filter fun piece => !isTrivial piece

/-- The segments of a path as texts. -/
def names (path : String) : List String :=
  (segments path).map String.ofList

/-- No piece of a path leads upwards. -/
def Descends (path : String) : Prop :=
  ['.', '.'] ∉ pieces path

instance (path : String) : Decidable (Descends path) :=
  inferInstanceAs (Decidable (¬_))

theorem mem_segments : piece ∈ segments path ↔ piece ∈ pieces path ∧ isTrivial piece = false := by
  simp [segments]

/-- Whether a path descends can be seen from its segments. -/
theorem descends_iff : Descends path ↔ ['.', '.'] ∉ segments path := by
  have hdots : isTrivial ['.', '.'] = false := rfl
  rw [Descends, mem_segments, hdots]
  simp

theorem slash_not_mem_of_mem_pieces (h : piece ∈ pieces path) : '/' ∉ piece :=
  not_mem_of_mem_splitOn h

/-- A path is absolute where a slash follows nothing. -/
theorem isAbsolute_iff : isAbsolute path = true ↔ ∃ rest, rest ≠ [] ∧ pieces path = [] :: rest := by
  rw [isAbsolute, pieces]
  cases path.toList with
  | nil => simp [splitOn]
  | cons c cs =>
      obtain ⟨first, others, hsplit⟩ := exists_splitOn_eq_cons '/' cs
      by_cases hc : c = '/'
      · simp [splitOn, hc, hsplit]
      · simp [splitOn, hc, hsplit]

/-- A path that is not absolute begins with a piece, unless it is empty. -/
theorem ne_nil_of_isAbsolute {rest : List (List Char)} (h : isAbsolute path = false)
    (hpieces : pieces path = piece :: rest) (hrest : rest ≠ []) : piece ≠ [] := by
  rintro rfl
  rw [isAbsolute_iff.mpr ⟨rest, hrest, hpieces⟩] at h
  cases h

/-- Putting slashes between pieces is undone by cutting at them. -/
theorem splitOn_joinPieces {ps : List (List Char)} (hps : ps ≠ [])
    (h : ∀ piece ∈ ps, '/' ∉ piece) : splitOn '/' (joinPieces ps) = ps := by
  induction ps with
  | nil => exact absurd rfl hps
  | cons piece ps ih =>
      cases ps with
      | nil => exact splitOn_of_not_mem (h piece List.mem_cons_self)
      | cons next ps =>
          rw [joinPieces, splitOn_append_cons, splitOn_of_not_mem (h piece List.mem_cons_self),
            ih (List.cons_ne_nil _ _) fun other hother => h other (List.mem_cons_of_mem _ hother),
            List.singleton_append]
          exact List.cons_ne_nil _ _

/-! ## Joining -/

/-- Joining puts the pieces of one path behind those of another. -/
theorem exists_pieces_join (base : String) (h : isAbsolute path = false) :
    ∃ before, pieces (join base path) = before ++ pieces path ∧
      before.filter (fun piece => !isTrivial piece) = segments base := by
  rw [join, h, if_neg Bool.false_ne_true]
  by_cases hempty : base.isEmpty = true
  · obtain rfl : base = "" := by simpa using hempty
    exact ⟨[], by simp, rfl⟩
  by_cases hslash : base.toList.getLast? = some '/'
  · obtain ⟨cs, hcs⟩ := List.getLast?_eq_some_iff.mp hslash
    refine ⟨splitOn '/' cs, ?_, ?_⟩
    · rw [if_pos (by simp [hslash]), pieces, String.toList_append, hcs, List.append_assoc,
        List.singleton_append, splitOn_append_cons, pieces]
    · rw [segments, pieces, hcs, splitOn_append_cons, List.filter_append]
      exact (List.append_nil _).symm
  · refine ⟨pieces base, ?_, rfl⟩
    have hjoin : (base ++ "/" ++ path).toList = base.toList ++ '/' :: path.toList := by simp
    rw [if_neg (by simpa [hslash] using hempty), pieces, hjoin, splitOn_append_cons, pieces,
      pieces]

/-- The segments of one path come behind those of another. -/
theorem segments_join (h : isAbsolute path = false) :
    segments (join base path) = segments base ++ segments path := by
  obtain ⟨before, hpieces, hbefore⟩ := exists_pieces_join base h
  rw [segments, hpieces, List.filter_append, hbefore, segments, segments]

/-- A joined path begins where the first of the two does. -/
theorem isAbsolute_join (h : isAbsolute path = false) :
    isAbsolute (join base path) = isAbsolute base := by
  rw [join, h, if_neg Bool.false_ne_true]
  cases hbase : base.toList with
  | nil =>
      obtain rfl : base = "" := String.toList_eq_nil_iff.mp hbase
      rw [if_pos (by rfl), String.empty_append, h]
      rfl
  | cons c cs => split <;> simp [isAbsolute, hbase]

theorem join_ne_empty (h : path ≠ "") : join base path ≠ "" := by
  have hpath : path.toList ≠ [] := mt String.toList_eq_nil_iff.mp h
  intro hempty
  have htext := congrArg String.toList hempty
  rw [join] at htext
  split at htext
  · exact hpath htext
  · split at htext <;> simp [h] at htext

/-! ## Cutting -/

/-- Dropping the trivial end of a list drops nothing else. -/
theorem filter_dropTrivial (ps : List (List Char)) :
    ((ps.reverse.dropWhile isTrivial).reverse).filter (fun piece => !isTrivial piece) =
      ps.filter fun piece => !isTrivial piece := by
  induction ps using List.reverseRecOn with
  | nil => rfl
  | append_singleton ps piece ih =>
      by_cases hpiece : isTrivial piece = true
      · simpa [hpiece] using ih
      · simp [hpiece]

theorem filter_dropTrivialEnd (ps : List (List Char)) :
    (dropTrivialEnd ps).filter (fun piece => !isTrivial piece) =
      ps.filter fun piece => !isTrivial piece := by
  match ps with
  | [] => rfl
  | [piece] =>
      by_cases hpiece : piece = []
      · simp [dropTrivialEnd, hpiece, isTrivial]
      · simp [dropTrivialEnd, hpiece]
  | first :: second :: rest =>
      rw [dropTrivialEnd, List.filter_cons, filter_dropTrivial, List.filter_cons (x := first)]

theorem mem_of_mem_dropTrivialEnd {ps : List (List Char)} (h : piece ∈ dropTrivialEnd ps) :
    piece ∈ ps := by
  match ps with
  | [] => exact h
  | [only] =>
      rw [dropTrivialEnd] at h
      split at h
      · cases h
      · exact h
  | first :: second :: rest =>
      rw [dropTrivialEnd] at h
      rcases List.mem_cons.mp h with rfl | h
      · exact List.mem_cons_self
      · have hdropped := (List.dropWhile_sublist isTrivial).subset (List.mem_reverse.mp h)
        exact List.mem_cons_of_mem first (List.mem_reverse.mp hdropped)

theorem isTrivial_of_dropWhile {ps rest : List (List Char)}
    (h : ps.dropWhile isTrivial = piece :: rest) : isTrivial piece = false := by
  have hhead := List.head?_dropWhile_not isTrivial ps
  rw [h] at hhead
  exact hhead

/-- Only a first piece may be trivial at the end. -/
theorem eq_nil_of_dropTrivialEnd {ps before : List (List Char)} {last : List Char}
    (h : dropTrivialEnd ps = before ++ [last]) (hlast : isTrivial last = true) : before = [] := by
  match ps with
  | [] => simp [dropTrivialEnd] at h
  | [only] =>
      rw [dropTrivialEnd] at h
      split at h
      · exact absurd h.symm (by simp)
      · exact List.append_eq_singleton_iff.mp h.symm |>.resolve_right (by simp) |>.1
  | first :: second :: rest =>
      rw [dropTrivialEnd] at h
      cases before with
      | nil => rfl
      | cons _ before =>
          rw [List.cons_append] at h
          have hdropped := congrArg List.reverse (List.cons.inj h).2
          rw [List.reverse_reverse, List.reverse_append, List.reverse_singleton,
            List.singleton_append] at hdropped
          rw [isTrivial_of_dropWhile hdropped] at hlast
          cases hlast

theorem head_dropTrivialEnd {ps rest : List (List Char)} (h : dropTrivialEnd ps = piece :: rest) :
    ∃ others, ps = piece :: others ∧ (piece = [] → others ≠ []) := by
  match ps with
  | [] => cases h
  | [only] =>
      rw [dropTrivialEnd] at h
      split at h
      · cases h
      · next hne =>
        obtain ⟨rfl, -⟩ := List.cons.inj h
        exact ⟨[], rfl, fun heq => absurd heq hne⟩
  | first :: second :: others =>
      rw [dropTrivialEnd] at h
      obtain ⟨rfl, -⟩ := List.cons.inj h
      exact ⟨second :: others, rfl, fun _ => List.cons_ne_nil _ _⟩

/-- Where pieces are put together the same pieces lead somewhere. -/
theorem filter_splitOn_joinPieces {ps : List (List Char)} (h : ∀ piece ∈ ps, '/' ∉ piece) :
    (splitOn '/' (joinPieces ps)).filter (fun piece => !isTrivial piece) =
      ps.filter fun piece => !isTrivial piece := by
  cases ps with
  | nil => rfl
  | cons piece ps => rw [splitOn_joinPieces (List.cons_ne_nil _ _) h]

/-- The parent of an absolute path. -/
theorem segments_parent_of_absolute (habsolute : isAbsolute path = true)
    (h : parent? path = some above) :
    segments above = (segments path).dropLast ∧ isAbsolute above = true := by
  obtain ⟨tail, -, hpieces⟩ := isAbsolute_iff.mp habsolute
  rw [parent?, habsolute, if_pos rfl, hpieces, List.tail_cons] at h
  cases hdrop : tail.reverse.dropWhile isTrivial with
  | nil =>
      rw [hdrop] at h
      cases h
  | cons last before =>
      simp only [hdrop, Option.some.injEq] at h
      subst h
      have hkept : (before.dropWhile isTrivial).reverse.filter (fun p => !isTrivial p) =
          (segments path).dropLast := by
        have hsegments : segments path = tail.filter fun piece => !isTrivial piece := by
          rw [segments, hpieces]
          rfl
        have hlast := filter_dropTrivial before.reverse
        rw [List.reverse_reverse] at hlast
        rw [hsegments, ← filter_dropTrivial tail, hdrop, hlast]
        simp [isTrivial_of_dropWhile hdrop]
      have hslash : ∀ p ∈ (before.dropWhile isTrivial).reverse, '/' ∉ p := by
        intro p hp
        have hbefore := (List.dropWhile_sublist isTrivial).subset (List.mem_reverse.mp hp)
        have htail : p ∈ tail.reverse.dropWhile isTrivial :=
          hdrop ▸ List.mem_cons_of_mem last hbefore
        have hpath : p ∈ pieces path := by
          rw [hpieces]
          exact List.mem_cons_of_mem _
            (List.mem_reverse.mp ((List.dropWhile_sublist isTrivial).subset htail))
        exact slash_not_mem_of_mem_pieces hpath
      refine ⟨?_, by simp [isAbsolute]⟩
      rw [segments, pieces, String.toList_ofList, splitOn, if_pos rfl,
        List.filter_cons_of_neg (by decide), ← hkept]
      split
      · next hall =>
        refine (List.filter_eq_nil_iff.mpr fun p hp => ?_).symm
        simpa using List.all_eq_true.mp hall p hp
      · exact filter_splitOn_joinPieces hslash

/-- The parent of a path that is not absolute is put together from the pieces before the last
one. -/
theorem exists_of_parent (habsolute : isAbsolute path = false) (h : parent? path = some above) :
    ∃ before last, dropTrivialEnd (pieces path) = before ++ [last] ∧
      above = String.ofList (joinPieces (dropTrivialEnd before)) ∧
      ∀ p ∈ dropTrivialEnd before, '/' ∉ p := by
  rw [parent?, habsolute, if_neg Bool.false_ne_true] at h
  cases hdrop : (dropTrivialEnd (pieces path)).reverse with
  | nil =>
      rw [hdrop] at h
      cases h
  | cons last before =>
      simp only [hdrop, Option.some.injEq] at h
      have hkept : dropTrivialEnd (pieces path) = before.reverse ++ [last] := by
        rw [← List.reverse_reverse (dropTrivialEnd _), hdrop, List.reverse_cons]
      refine ⟨before.reverse, last, hkept, h.symm, fun p hp => ?_⟩
      have hp' : p ∈ dropTrivialEnd (pieces path) :=
        hkept ▸ List.mem_append_left _ (mem_of_mem_dropTrivialEnd hp)
      exact slash_not_mem_of_mem_pieces (mem_of_mem_dropTrivialEnd hp')

/-- The parent of a path that is not absolute. -/
theorem segments_parent_of_relative (habsolute : isAbsolute path = false)
    (h : parent? path = some above) :
    segments above = (segments path).dropLast ∧ isAbsolute above = false := by
  obtain ⟨before, last, hkept, rfl, hslash⟩ := exists_of_parent habsolute h
  constructor
  · rw [segments, pieces, String.toList_ofList, filter_splitOn_joinPieces hslash,
      filter_dropTrivialEnd, segments, ← filter_dropTrivialEnd (pieces path), hkept,
      List.filter_append]
    by_cases hlast : isTrivial last = true
    · rw [eq_nil_of_dropTrivialEnd hkept hlast]
      simp [hlast]
    · simp [hlast]
  · rw [Bool.eq_false_iff]
    intro habove
    obtain ⟨others, hothers, hpieces⟩ := isAbsolute_iff.mp habove
    rw [pieces, String.toList_ofList] at hpieces
    -- An absolute parent would begin with the empty piece that its path begins with.
    have hne : dropTrivialEnd before ≠ [] := by
      intro hnil
      rw [hnil] at hpieces
      exact hothers (List.cons.inj hpieces).2.symm
    rw [splitOn_joinPieces hne hslash] at hpieces
    obtain ⟨more, rfl, -⟩ := head_dropTrivialEnd hpieces
    obtain ⟨pieces', hpieces', hlonger⟩ := head_dropTrivialEnd hkept
    exact ne_nil_of_isAbsolute habsolute hpieces' (hlonger rfl) rfl

/-- The parent of a path lacks its last segment, and begins where the path does. -/
theorem segments_parent (h : parent? path = some above) :
    segments above = (segments path).dropLast ∧ isAbsolute above = isAbsolute path := by
  cases habsolute : isAbsolute path with
  | true => exact segments_parent_of_absolute habsolute h
  | false => exact segments_parent_of_relative habsolute h

/-- A path with a segment has a parent. -/
theorem exists_parent (h : segments path ≠ []) : ∃ above, parent? path = some above := by
  rw [parent?]
  split
  · next habsolute =>
    obtain ⟨tail, -, hpieces⟩ := isAbsolute_iff.mp habsolute
    split
    · next hdrop =>
      rw [hpieces, List.tail_cons] at hdrop
      refine absurd ?_ h
      rw [segments, hpieces, List.filter_cons_of_neg (by decide), ← filter_dropTrivial, hdrop]
      rfl
    · exact ⟨_, rfl⟩
  · split
    · next hdrop =>
      refine absurd ?_ h
      rw [segments, ← filter_dropTrivialEnd, List.reverse_eq_nil_iff.mp hdrop]
      rfl
    · exact ⟨_, rfl⟩

/-! ## Components -/

/-- The components of a path are its segments, behind what it begins with. -/
theorem exists_components_eq (path : String) : ∃ front, (∀ c ∈ front, c.isName = false) ∧
    components path = front ++ innerComponents (pieces path) := by
  obtain ⟨first, rest, hpieces⟩ := exists_splitOn_eq_cons '/' path.toList
  change pieces path = first :: rest at hpieces
  rw [components, hpieces]
  dsimp only
  split
  · next habsolute =>
    obtain ⟨others, -, hothers⟩ := isAbsolute_iff.mp habsolute
    obtain ⟨rfl, rfl⟩ := List.cons.inj (hpieces.symm.trans hothers)
    exact ⟨[.root], by simp [Component.isName], rfl⟩
  · split
    · next hdot =>
      subst hdot
      exact ⟨[.current], by simp [Component.isName], rfl⟩
    · exact ⟨[], by simp, rfl⟩

/-- A path is known by its last segment, unless that leads upwards. -/
theorem fileName_eq_some {before : List (List Char)} (h : segments path = before ++ [piece])
    (hpiece : piece ≠ ['.', '.']) : fileName? path = some (String.ofList piece) := by
  obtain ⟨front, -, hcomponents⟩ := exists_components_eq path
  rw [fileName?, hcomponents, innerComponents, ← segments, h, List.map_append, List.map_singleton,
    if_neg hpiece, ← List.append_assoc, List.getLast?_concat]

/-- Another last name is joined to the parent. -/
theorem withFileName_eq_join {before : List (List Char)} (h : segments path = before ++ [piece])
    (hpiece : piece ≠ ['.', '.']) : ∃ above, (∀ name, withFileName path name = join above name) ∧
      segments above = before ∧ isAbsolute above = isAbsolute path := by
  have hne : segments path ≠ [] := by simp [h]
  obtain ⟨above, habove⟩ := exists_parent hne
  obtain ⟨hsegments, habsolute⟩ := segments_parent habove
  refine ⟨above, fun name => ?_, by rw [hsegments, h, List.dropLast_concat], habsolute⟩
  rw [withFileName, fileName_eq_some h hpiece, habove]
  rfl

/-- A text that passes for a relative path begins where another path ends, and leads
downwards. -/
theorem descends_of_isRelative (h : isRelative path = true) :
    isAbsolute path = false ∧ Descends path := by
  rw [isRelative, Bool.and_eq_true, List.all_eq_true] at h
  obtain ⟨-, hnames⟩ := h
  constructor
  · rw [Bool.eq_false_iff]
    intro habsolute
    obtain ⟨rest, -, hpieces⟩ := isAbsolute_iff.mp habsolute
    simp only [components, hpieces, habsolute, if_true] at hnames
    exact absurd (hnames _ List.mem_cons_self) (by simp [Component.isName])
  · intro hdots
    obtain ⟨front, -, hcomponents⟩ := exists_components_eq path
    have hparent : Component.parent ∈ components path := by
      rw [hcomponents, innerComponents]
      refine List.mem_append_right _ (List.mem_map.mpr ⟨['.', '.'], ?_, rfl⟩)
      exact List.mem_filter.mpr ⟨hdots, rfl⟩
    exact absurd (hnames _ hparent) (by simp [Component.isName])

/-- A text that passes for a single name is that name, with separators behind it. -/
theorem of_isSingleName (h : isSingleName path = true) :
    ∃ name rest, pieces path = name :: rest ∧ isTrivial name = false ∧ name ≠ ['.', '.'] ∧
      ∀ piece ∈ rest, isTrivial piece = true := by
  rw [isSingleName] at h
  split at h
  swap
  · cases h
  next value hcomponents =>
  obtain ⟨first, rest, hpieces⟩ := exists_splitOn_eq_cons '/' path.toList
  change pieces path = first :: rest at hpieces
  rw [components, hpieces] at hcomponents
  dsimp only at hcomponents
  split at hcomponents
  · cases (List.cons.inj hcomponents).1
  next habsolute =>
  split at hcomponents
  · cases (List.cons.inj hcomponents).1
  next hdot =>
  have hfirst : isTrivial first = false := by
    rw [isTrivial, Bool.or_eq_false_iff, beq_eq_false_iff_ne, beq_eq_false_iff_ne]
    refine ⟨?_, hdot⟩
    rintro rfl
    cases rest with
    | nil => cases hcomponents
    | cons next rest =>
        exact ne_nil_of_isAbsolute (by simpa using habsolute) hpieces (List.cons_ne_nil _ _) rfl
  rw [innerComponents, List.filter_cons_of_pos (by simp [hfirst]), List.map_cons] at hcomponents
  obtain ⟨hname, hrest⟩ := List.cons.inj hcomponents
  refine ⟨first, rest, hpieces, hfirst, ?_, ?_⟩
  · rintro rfl
    cases hname
  · intro piece hpiece
    have hnone := List.filter_eq_nil_iff.mp (List.map_eq_nil_iff.mp hrest) piece hpiece
    simpa using hnone

/-- Such a text without separators is one piece. -/
theorem pieces_of_isSingleName (h : isSingleName path = true) (hslash : '/' ∉ path.toList) :
    pieces path = [path.toList] ∧ isTrivial path.toList = false ∧ path.toList ≠ ['.', '.'] := by
  obtain ⟨name, rest, hpieces, hname, hdots, -⟩ := of_isSingleName h
  have htext : pieces path = [path.toList] := splitOn_of_not_mem hslash
  obtain ⟨rfl, -⟩ := List.cons.inj (htext.symm.trans hpieces)
  exact ⟨htext, hname, hdots⟩

/-- A text that passes for a single name leads downwards, to that name. -/
theorem descends_of_isSingleName (h : isSingleName path = true) :
    isAbsolute path = false ∧ Descends path ∧
      ∃ name, segments path = [name] ∧ name ≠ ['.', '.'] := by
  obtain ⟨name, rest, hpieces, hname, hdots, hrest⟩ := of_isSingleName h
  have hsegments : segments path = [name] := by
    rw [segments, hpieces, List.filter_cons_of_pos (by simp [hname]),
      List.filter_eq_nil_iff.mpr fun piece hpiece => by simp [hrest piece hpiece]]
  refine ⟨?_, ?_, name, hsegments, hdots⟩
  · rw [Bool.eq_false_iff]
    intro habsolute
    obtain ⟨others, -, hothers⟩ := isAbsolute_iff.mp habsolute
    obtain ⟨rfl, -⟩ := List.cons.inj (hpieces.symm.trans hothers)
    cases hname
  · rw [descends_iff, hsegments, List.mem_singleton]
    exact hdots.symm

theorem names_of_isSingleName (h : isSingleName path = true) : ∃ name, names path = [name] := by
  obtain ⟨-, -, name, hname, -⟩ := descends_of_isSingleName h
  exact ⟨String.ofList name, by rw [names, hname, List.map_singleton]⟩

/-- What a path begins with is what a longer text begins with. -/
theorem isAbsolute_append {suffix : String} (h : path ≠ "") :
    isAbsolute (path ++ suffix) = isAbsolute path := by
  rw [isAbsolute, isAbsolute, String.toList_append]
  cases hpath : path.toList with
  | nil => exact absurd (String.toList_eq_nil_iff.mp hpath) h
  | cons c cs => rfl

/-! ## Leading on -/

/-- A path leads on from another, downwards. -/
def Extends (base path : String) : Prop :=
  ∃ rest, segments path = segments base ++ rest ∧ ['.', '.'] ∉ rest ∧
    isAbsolute path = isAbsolute base

namespace Extends

variable {name : String}

theorem refl : Extends base base :=
  ⟨[], by simp, by simp, rfl⟩

theorem trans {further : String} (h : Extends base path) (h' : Extends path further) :
    Extends base further := by
  obtain ⟨rest, hsegments, hdots, hbegin⟩ := h
  obtain ⟨rest', hsegments', hdots', hbegin'⟩ := h'
  refine ⟨rest ++ rest', ?_, ?_, hbegin'.trans hbegin⟩
  · rw [hsegments', hsegments, List.append_assoc]
  · rw [List.mem_append, not_or]
    exact ⟨hdots, hdots'⟩

theorem join (h : Extends base path) (habsolute : isAbsolute name = false) (hname : Descends name) :
    Extends base (Path.join path name) :=
  h.trans ⟨segments name, segments_join habsolute, descends_iff.mp hname,
    isAbsolute_join habsolute⟩

/-- So does its parent, unless the path leads nowhere new. -/
theorem parent (h : Extends base path) (hne : segments path ≠ segments base)
    (habove : parent? path = some above) : Extends base above := by
  obtain ⟨rest, hsegments, hdots, hbegin⟩ := h
  obtain ⟨habove, habsolute⟩ := segments_parent habove
  refine ⟨rest.dropLast, ?_, fun hmem => hdots (List.dropLast_subset _ hmem),
    habsolute.trans hbegin⟩
  rw [habove, hsegments, List.dropLast_append_of_ne_nil]
  rintro rfl
  exact hne (by rw [hsegments, List.append_nil])

end Extends

end RouteCompiler.Path
