import RouteCompiler.Proofs.Files.Texts

/-!
# Components of paths

A path is checked by its components, and then joined, cut and walked through as a text.  This
module follows the components through joining and cutting, so that what was checked of a name is
known of every path that it becomes a part of.

Main definitions:

- `front`: what the components of a path begin with that lead nowhere.
- `component`: the component of a segment.

Main results:

- Theorem `components_eq`: the components of a path are its front and its segments.
- Theorem `components_join`: the components of a name come behind those of the path it is joined
  to.
- Theorem `components_parent`: the parent of a path lacks its last component.
- Theorem `extends_of_components`: a path leads on from another if its components do, by names.
- Theorems `isSingleName_iff`, `isRelative_iff`: what is checked of a name.
-/

namespace RouteCompiler.Path

open RouteCompiler.Text

variable {path base above name : String} {piece first : List Char} {rest : List (List Char)}

/-! ## What paths begin with -/

/-- What the components of a path begin with that lead nowhere. -/
def front (path : String) : List Component :=
  if isAbsolute path then [.root]
  else if (pieces path).head? = some ['.'] then [.current]
  else []

/-- The component of a segment. -/
def component (segment : List Char) : Component :=
  if segment = ['.', '.'] then .parent else .name (String.ofList segment)

/-- The components of a path are its front and its segments. -/
theorem components_eq (path : String) :
    components path = front path ++ (segments path).map component := by
  obtain ⟨first, rest, hpieces⟩ := exists_splitOn_eq_cons '/' path.toList
  change pieces path = first :: rest at hpieces
  rw [components, front, segments, hpieces, List.head?_cons]
  dsimp only
  split
  · next habsolute =>
    obtain ⟨others, -, hothers⟩ := isAbsolute_iff.mp habsolute
    obtain ⟨rfl, rfl⟩ := List.cons.inj (hpieces.symm.trans hothers)
    rfl
  · split
    · next hdot =>
      subst hdot
      rfl
    · next hdot =>
      rw [if_neg fun h => hdot (Option.some.inj h)]
      rfl

theorem component_injective : Function.Injective component := by
  intro p q h
  rw [component, component] at h
  split at h <;> split at h
  · next hp hq => rw [hp, hq]
  · cases h
  · cases h
  · exact String.ofList_injective (Component.name.inj h)

/-- Whether a component leads somewhere. -/
def Component.leads : Component → Bool
  | .parent | .name _ => true
  | .root | .current => false

theorem leads_component (segment : List Char) : (component segment).leads = true := by
  rw [component]
  split <;> rfl

theorem leads_of_mem_front {c : Component} (h : c ∈ front path) : c.leads = false := by
  rw [front] at h
  split at h
  · rw [List.mem_singleton.mp h]
    rfl
  · split at h
    · rw [List.mem_singleton.mp h]
      rfl
    · cases h

/-- The segments of a path can be told from its components. -/
theorem filter_leads (path : String) :
    (components path).filter Component.leads = (segments path).map component := by
  have hfront : (front path).filter Component.leads = [] :=
    List.filter_eq_nil_iff.mpr fun c hc => by simp [leads_of_mem_front hc]
  have hsegments : ((segments path).map component).filter Component.leads =
      (segments path).map component := by
    refine List.filter_eq_self.mpr fun c hc => ?_
    obtain ⟨segment, -, rfl⟩ := List.mem_map.mp hc
    exact leads_component segment
  rw [components_eq, List.filter_append, hfront, hsegments, List.nil_append]

/-- So can whether it is absolute. -/
theorem isAbsolute_iff_root_mem : isAbsolute path = true ↔ .root ∈ components path := by
  have hsegments : Component.root ∉ (segments path).map component := by
    intro hmem
    obtain ⟨segment, -, hroot⟩ := List.mem_map.mp hmem
    have hleads := leads_component segment
    rw [hroot] at hleads
    cases hleads
  rw [components_eq, List.mem_append, or_iff_left hsegments, front]
  split
  · next habsolute => simp [habsolute]
  · next habsolute => split <;> simp [habsolute]

/-- A path whose components go on by names goes on by these names. -/
theorem segments_of_components {names : List String}
    (h : components path = components base ++ names.map .name) :
    isAbsolute path = isAbsolute base ∧
      ∃ rest, segments path = segments base ++ rest ∧ rest.map component = names.map .name := by
  constructor
  · have hroot : Component.root ∉ names.map Component.name := by simp
    rw [Bool.eq_iff_iff, isAbsolute_iff_root_mem, isAbsolute_iff_root_mem, h, List.mem_append,
      or_iff_left hroot]
  · have hleads := congrArg (List.filter Component.leads) h
    have hnames : (names.map Component.name).filter Component.leads = names.map .name := by
      refine List.filter_eq_self.mpr fun c hc => ?_
      obtain ⟨name, -, rfl⟩ := List.mem_map.mp hc
      rfl
    rw [List.filter_append, filter_leads, filter_leads, hnames] at hleads
    obtain ⟨before, rest, hsegments, hbefore, hrest⟩ := List.map_eq_append_iff.mp hleads
    rw [List.map_injective_iff.mpr component_injective hbefore] at hsegments
    exact ⟨rest, hsegments, hrest⟩

/-- Names are told from their components. -/
theorem names_of_components {names : List String} (h : rest.map component = names.map .name) :
    ['.', '.'] ∉ rest ∧ rest.map String.ofList = names := by
  induction rest generalizing names with
  | nil =>
      rw [List.map_nil, eq_comm, List.map_eq_nil_iff] at h
      simp [h]
  | cons segment rest ih =>
      cases names with
      | nil => cases h
      | cons name names =>
          obtain ⟨hfirst, hrest⟩ := List.cons.inj h
          obtain ⟨hdots, hnames⟩ := ih hrest
          rw [component] at hfirst
          split at hfirst
          · cases hfirst
          next hsegment =>
          rw [List.map_cons, hnames, Component.name.inj hfirst]
          exact ⟨by simp [Ne.symm hsegment, hdots], rfl⟩

/-- A path leads on from another if its components do, by names. -/
theorem extends_of_components {names : List String}
    (h : components path = components base ++ names.map .name) : Extends base path := by
  obtain ⟨hbegin, rest, hsegments, hrest⟩ := segments_of_components h
  exact ⟨rest, hsegments, (names_of_components hrest).1, hbegin⟩

/-! ## Checked names -/

/-- What passes for a single name has no other components. -/
theorem isSingleName_iff : isSingleName path = true ↔ ∃ name, components path = [.name name] := by
  rw [isSingleName]
  split
  · next value hcomponents => simp [hcomponents]
  · next hother =>
    refine iff_of_false Bool.false_ne_true ?_
    rintro ⟨name, hname⟩
    exact hother name hname

theorem all_isName_iff {cs : List Component} :
    cs.all Component.isName = true ↔ ∃ names : List String, cs = names.map .name := by
  induction cs with
  | nil => simp
  | cons c cs ih =>
      rw [List.all_cons, Bool.and_eq_true, ih]
      constructor
      · rintro ⟨hc, names, rfl⟩
        cases c with
        | name value => exact ⟨value :: names, rfl⟩
        | root | current | parent => cases hc
      · rintro ⟨names, hall⟩
        cases names with
        | nil => cases hall
        | cons value names =>
            obtain ⟨rfl, rfl⟩ := List.cons.inj hall
            exact ⟨rfl, names, rfl⟩

/-- Only the empty path has no components. -/
theorem components_eq_nil : components path = [] ↔ path = "" := by
  refine ⟨fun h => ?_, by rintro rfl; rfl⟩
  obtain ⟨first, rest, hpieces⟩ := exists_splitOn_eq_cons '/' path.toList
  change pieces path = first :: rest at hpieces
  rw [components, hpieces] at h
  dsimp only at h
  split at h
  · cases h
  next habsolute =>
  split at h
  · cases h
  next hdot =>
  rw [innerComponents, List.map_eq_nil_iff] at h
  have htrivial : isTrivial first = true := by
    simpa using List.filter_eq_nil_iff.mp h first List.mem_cons_self
  rw [isTrivial, Bool.or_eq_true, beq_iff_eq, beq_iff_eq] at htrivial
  obtain rfl := htrivial.resolve_right hdot
  cases rest with
  | nil =>
      rw [← joinPieces_pieces path, hpieces]
      rfl
  | cons next rest =>
      exact absurd rfl (ne_nil_of_isAbsolute (by simpa using habsolute) hpieces (by simp))

/-- What passes for a path of names has no other components, and some of these. -/
theorem isRelative_iff : isRelative path = true ↔
    ∃ first rest, components path = (first :: rest).map Component.name := by
  rw [isRelative, Bool.and_eq_true, all_isName_iff, Bool.not_eq_true', Bool.eq_false_iff, Ne,
    String.isEmpty_iff, ← components_eq_nil]
  constructor
  · rintro ⟨hne, names, hcomponents⟩
    cases names with
    | nil => exact absurd hcomponents hne
    | cons first rest => exact ⟨first, rest, hcomponents⟩
  · rintro ⟨first, rest, hcomponents⟩
    exact ⟨by simp [hcomponents], _, hcomponents⟩

theorem isRelative_of_isSingleName (h : isSingleName path = true) : isRelative path = true := by
  obtain ⟨name, hcomponents⟩ := isSingleName_iff.mp h
  exact isRelative_iff.mpr ⟨name, [], hcomponents⟩

/-- A path passes for a path of names if it begins with a segment and leads downwards. -/
theorem isRelative_of_descends (hfront : front path = []) (hne : segments path ≠ [])
    (h : Descends path) : isRelative path = true := by
  have hcomponents : components path = (names path).map Component.name := by
    rw [components_eq, hfront, List.nil_append, names, List.map_map]
    refine List.map_congr_left fun segment hsegment => ?_
    rw [component, if_neg]
    · rfl
    · rintro rfl
      exact descends_iff.mp h hsegment
  cases hnames : names path with
  | nil => exact absurd (List.map_eq_nil_iff.mp hnames) hne
  | cons first rest => exact isRelative_iff.mpr ⟨first, rest, by rw [hcomponents, hnames]⟩

/-! ## Joining and cutting -/

/-- A path of names begins with a name. -/
theorem front_of_isRelative (h : isRelative path = true) : front path = [] := by
  obtain ⟨first, rest, hcomponents⟩ := isRelative_iff.mp h
  rw [components_eq] at hcomponents
  refine List.eq_nil_iff_forall_not_mem.mpr fun c hc => ?_
  have hname : c ∈ (first :: rest).map Component.name :=
    hcomponents ▸ List.mem_append_left _ hc
  obtain ⟨name, -, rfl⟩ := List.mem_map.mp hname
  cases leads_of_mem_front hc

theorem head_splitOn_append_cons (cs ds : List Char) :
    (splitOn '/' (cs ++ '/' :: ds)).head? = (splitOn '/' cs).head? := by
  obtain ⟨first, rest, hsplit⟩ := exists_splitOn_eq_cons '/' cs
  rw [splitOn_append_cons, hsplit]
  rfl

/-- A joined path begins with the first piece of the path that is joined to, if that has any. -/
theorem head_pieces_join (hbase : base ≠ "") (h : isAbsolute name = false) :
    (pieces (join base name)).head? = (pieces base).head? := by
  rw [join, h, if_neg Bool.false_ne_true]
  by_cases hslash : base.toList.getLast? = some '/'
  · obtain ⟨cs, hcs⟩ := List.getLast?_eq_some_iff.mp hslash
    rw [if_pos (by simp [hslash]), pieces, pieces, String.toList_append, hcs, List.append_assoc,
      List.singleton_append, head_splitOn_append_cons, head_splitOn_append_cons]
  · have htext : (base ++ "/" ++ name).toList = base.toList ++ '/' :: name.toList := by simp
    rw [if_neg (by simpa [hslash] using hbase), pieces, htext, head_splitOn_append_cons, pieces]

/-- The components of a name come behind those of the path that it is joined to. -/
theorem components_join (base : String) (h : isRelative name = true) :
    components (join base name) = components base ++ components name := by
  obtain ⟨habsolute, -⟩ := descends_of_isRelative h
  have hfront : front (join base name) = front base := by
    by_cases hbase : base = ""
    · subst hbase
      have hjoin : join "" name = name := by
        rw [join, habsolute, if_neg Bool.false_ne_true, if_pos (by rfl), String.empty_append]
      rw [hjoin, front_of_isRelative h]
      rfl
    · rw [front, front, isAbsolute_join habsolute, head_pieces_join hbase habsolute]
  rw [components_eq, components_eq base, components_eq name, hfront, segments_join habsolute,
    front_of_isRelative h, List.map_append, List.nil_append, List.append_assoc]

/-- The parent of a path that leads somewhere begins where the path does, and lacks its last
component. -/
theorem components_of_front (h : parent? path = some above) (hne : segments path ≠ [])
    (hfront : front above = front path) : components above = (components path).dropLast := by
  rw [components_eq, components_eq path, (segments_parent h).1, hfront, List.map_dropLast,
    List.dropLast_append_of_ne_nil (by simpa using hne)]

theorem components_parent_of_absolute (habsolute : isAbsolute path = true)
    (h : parent? path = some above) : components above = (components path).dropLast := by
  refine components_of_front h ?_ ?_
  · obtain ⟨tail, -, hpieces⟩ := isAbsolute_iff.mp habsolute
    rw [parent?, habsolute, if_pos rfl, hpieces, List.tail_cons] at h
    rw [segments, hpieces, List.filter_cons_of_neg (by decide), ← filter_dropTrivial]
    cases hdrop : tail.reverse.dropWhile isTrivial with
    | nil =>
        rw [hdrop] at h
        cases h
    | cons last before =>
        intro hnone
        have hlast := List.filter_eq_nil_iff.mp hnone last (by simp)
        exact hlast (by simp [isTrivial_of_dropWhile hdrop])
  · have hbegin := (segments_parent h).2.trans habsolute
    rw [front, front, if_pos hbegin, if_pos habsolute]

/-- A path that is not absolute begins with a piece, or is empty. -/
theorem ne_nil_of_dropTrivialEnd (habsolute : isAbsolute path = false)
    (h : dropTrivialEnd (pieces path) = first :: rest) : first ≠ [] := by
  obtain ⟨others, hpieces, hothers⟩ := head_dropTrivialEnd h
  exact fun hfirst => ne_nil_of_isAbsolute habsolute hpieces (hothers hfirst) hfirst

theorem exists_dropTrivialEnd_eq_cons (h : first ≠ []) (rest : List (List Char)) :
    ∃ others, dropTrivialEnd (first :: rest) = first :: others := by
  cases rest with
  | nil => exact ⟨[], by rw [dropTrivialEnd, if_neg h]⟩
  | cons next rest => exact ⟨_, rfl⟩

/-- The parent of a single component has no components. -/
theorem components_of_dropTrivialEnd_singleton (habsolute : isAbsolute path = false)
    (h : dropTrivialEnd (pieces path) = [first]) : (components path).dropLast = [] := by
  obtain ⟨others, hpieces, -⟩ := head_dropTrivialEnd h
  have hsegments : segments path = [first].filter fun piece => !isTrivial piece := by
    rw [segments, ← filter_dropTrivialEnd, h]
  rw [components_eq, front, habsolute, if_neg Bool.false_ne_true, hpieces, hsegments]
  by_cases hdot : first = ['.']
  · subst hdot
    rfl
  · have hname : isTrivial first = false := by
      simp [isTrivial, ne_nil_of_dropTrivialEnd habsolute h, hdot]
    simp [hname, hdot]

theorem components_parent_of_relative (habsolute : isAbsolute path = false)
    (h : parent? path = some above) : components above = (components path).dropLast := by
  have hbegin : isAbsolute above = false := (segments_parent h).2.trans habsolute
  obtain ⟨before, last, hkept, habove, hslash⟩ := exists_of_parent habsolute h
  cases before with
  | nil =>
      rw [components_of_dropTrivialEnd_singleton habsolute hkept, habove]
      rfl
  | cons first more =>
      have hlast : isTrivial last = false := by
        by_contra htrivial
        cases eq_nil_of_dropTrivialEnd hkept (by simpa using htrivial)
      have hne : segments path ≠ [] := by
        rw [segments, ← filter_dropTrivialEnd, hkept]
        simp [hlast]
      refine components_of_front h hne ?_
      -- The first piece of the path is the one of the parent.
      obtain ⟨others, hpieces, -⟩ := head_dropTrivialEnd hkept
      obtain ⟨more', hmore⟩ := exists_dropTrivialEnd_eq_cons
        (ne_nil_of_dropTrivialEnd habsolute hkept) more
      have hparent : pieces above = first :: more' := by
        rw [habove, pieces, String.toList_ofList, splitOn_joinPieces (by simp [hmore]) hslash, hmore]
      rw [front, front, hbegin, habsolute, hparent, hpieces, List.head?_cons, List.head?_cons]

/-- The parent of a path lacks its last component. -/
theorem components_parent (h : parent? path = some above) :
    components above = (components path).dropLast := by
  cases habsolute : isAbsolute path with
  | true => exact components_parent_of_absolute habsolute h
  | false => exact components_parent_of_relative habsolute h

/-! ## Leading inside -/

/-- A path leads on from another by names, and by at least one. -/
def Inside (base path : String) : Prop :=
  ∃ first rest, components path = components base ++ (first :: rest).map Component.name

namespace Inside

theorem of_isRelative (base : String) (h : isRelative name = true) :
    Inside base (Path.join base name) := by
  obtain ⟨first, rest, hcomponents⟩ := isRelative_iff.mp h
  exact ⟨first, rest, by rw [components_join base h, hcomponents]⟩

theorem join (h : Inside base path) (hname : isRelative name = true) :
    Inside base (Path.join path name) := by
  obtain ⟨first, rest, hpath⟩ := h
  obtain ⟨next, others, hcomponents⟩ := isRelative_iff.mp hname
  refine ⟨first, rest ++ next :: others, ?_⟩
  rw [components_join path hname, hpath, hcomponents, List.append_assoc, ← List.map_append,
    List.cons_append]

/-- The parent of what is joined to a path inside is inside too. -/
theorem parent (h : Inside base path) (hname : isRelative name = true)
    (habove : parent? (Path.join path name) = some above) : Inside base above := by
  obtain ⟨first, rest, hpath⟩ := h
  obtain ⟨next, others, hcomponents⟩ := isRelative_iff.mp hname
  refine ⟨first, rest ++ (next :: others).dropLast, ?_⟩
  rw [components_parent habove, components_join path hname, hcomponents,
    List.dropLast_append_of_ne_nil (by simp), hpath, ← List.map_dropLast, List.append_assoc,
    ← List.map_append, List.cons_append]

/-- What is above a path inside is inside too, or above the one that it leads on from. -/
theorem of_above (h : Inside base path) (habove : components above <+: components path) :
    components above <+: components base ∨ Inside base above := by
  obtain ⟨first, rest, hpath⟩ := h
  rw [hpath] at habove
  rcases List.prefix_or_prefix_of_prefix habove (List.prefix_append ..) with hbase | ⟨more, hmore⟩
  · exact .inl hbase
  rw [← hmore, List.prefix_append_right_inj, List.prefix_map_iff] at habove
  obtain ⟨names, -, rfl⟩ := habove
  cases names with
  | nil => exact .inl (by simp [← hmore])
  | cons next others => exact .inr ⟨next, others, hmore.symm⟩

end Inside

end RouteCompiler.Path
