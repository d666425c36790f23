import RouteCompiler.Proofs.Document.Reading

/-!
# Trimming the parts of a text

A text may be trimmed as a whole, or cut into parts of which each is trimmed.  The parts put
together again are never more than the whole: what white space stands at a cut is lost.  They
are the same exactly if every cut is clean.

Main definitions:

- `IsCleanCut`: no white space stands at a cut, or nothing but white space on one side of it.

Main results:

- Lemma `trimChars_append_eq_iff`: a text cut in two.
- Lemma `flatMap_trimChars_eq_iff`: a text cut in any number of parts.
-/

namespace RouteCompiler.Route

open RouteCompiler.Text

variable {cs ds : List Char} {parts : List (List Char)}

/-! ## What is trimmed off -/

/-- What is nothing but white space is trimmed off. -/
theorem trimChars_eq_nil_iff : trimChars cs = [] ↔ ∀ c ∈ cs, isWhitespace c = true := by
  constructor
  · intro h c hc
    obtain ⟨back, hback, hcs⟩ :=
      exists_append_of_dropEndWhile isWhitespace (cs.dropWhile isWhitespace)
    rw [show dropEndWhile isWhitespace (cs.dropWhile isWhitespace) = [] from h,
      List.nil_append] at hcs
    rw [← List.takeWhile_append_dropWhile (p := isWhitespace) (l := cs), hcs] at hc
    exact (List.mem_append.mp hc).elim (fun hfront => List.mem_takeWhile_imp hfront) (hback c)
  · intro h
    rw [trimChars, List.dropWhile_eq_nil_iff.mpr h]
    rfl

/-- White space around a text that can be written is trimmed off. -/
theorem IsValue.trimChars_append {front value back : List Char} (h : IsValue value)
    (hfront : ∀ c ∈ front, isWhitespace c = true) (hback : ∀ c ∈ back, isWhitespace c = true) :
    trimChars (front ++ value ++ back) = value := by
  have hdrop : (value ++ back).dropWhile isWhitespace = value ++ back := by
    rw [← List.nil_append (value ++ back)]
    refine dropWhile_append_of_head (by simp) fun c hc => h.head c ?_
    rwa [head_append_of_ne_nil h.nonempty] at hc
  have hreverse : ∀ c ∈ back.reverse, isWhitespace c = true :=
    fun c hc => hback c (List.mem_reverse.mp hc)
  rw [List.append_assoc, trimChars, List.dropWhile_append_of_pos hfront, hdrop, dropEndWhile,
    List.reverse_append, dropWhile_append_of_head hreverse, List.reverse_reverse]
  intro c hc
  rw [List.head?_reverse] at hc
  exact h.last c hc

/-- A text is what is left of it, with white space around that. -/
theorem exists_append_trimChars (cs : List Char) :
    ∃ front back, (∀ c ∈ front, isWhitespace c = true) ∧ (∀ c ∈ back, isWhitespace c = true) ∧
      cs = front ++ trimChars cs ++ back := by
  obtain ⟨back, hback, hcs⟩ :=
    exists_append_of_dropEndWhile isWhitespace (cs.dropWhile isWhitespace)
  refine ⟨cs.takeWhile isWhitespace, back, fun c hc => List.mem_takeWhile_imp hc, hback, ?_⟩
  rw [List.append_assoc, trimChars, ← hcs, List.takeWhile_append_dropWhile]

/-- White space in front of a text is trimmed off. -/
theorem trimChars_append_of_blank_left (h : ∀ c ∈ cs, isWhitespace c = true) :
    trimChars (cs ++ ds) = trimChars ds := by
  rw [trimChars, List.dropWhile_append_of_pos h, trimChars]

/-- White space behind a text is trimmed off. -/
theorem trimChars_append_of_blank_right (h : ∀ c ∈ ds, isWhitespace c = true) :
    trimChars (cs ++ ds) = trimChars cs := by
  by_cases hblank : trimChars cs = []
  · rw [hblank, trimChars_eq_nil_iff]
    intro c hc
    exact (List.mem_append.mp hc).elim (trimChars_eq_nil_iff.mp hblank c) (h c)
  · obtain ⟨front, back, hfront, hback, hcs⟩ := exists_append_trimChars cs
    have hends : ∀ c ∈ back ++ ds, isWhitespace c = true :=
      fun c hc => (List.mem_append.mp hc).elim (hback c) (h c)
    calc trimChars (cs ++ ds) = trimChars (front ++ trimChars cs ++ (back ++ ds)) := by
          rw [← List.append_assoc, ← hcs]
      _ = trimChars cs := (isValue_trimChars hblank).trimChars_append hfront hends

/-! ## One cut -/

/-- No white space stands at a cut, or nothing but white space on one side of it. -/
def IsCleanCut (cs ds : List Char) : Prop :=
  (∀ c ∈ cs, isWhitespace c = true) ∨ (∀ c ∈ ds, isWhitespace c = true) ∨
    (∀ c ∈ cs.getLast?, isWhitespace c = false) ∧ ∀ c ∈ ds.head?, isWhitespace c = false

instance (cs ds : List Char) : Decidable (IsCleanCut cs ds) :=
  decidable_of_iff
    (cs.all isWhitespace ∨ ds.all isWhitespace ∨
      cs.getLast?.all (fun c => !isWhitespace c) ∧ ds.head?.all fun c => !isWhitespace c)
    (by simp [IsCleanCut, Option.all_eq_true])

/-- Between the two sides of a cut stands the white space that is lost there. -/
theorem exists_trimChars_append (hcs : trimChars cs ≠ []) (hds : trimChars ds ≠ []) :
    ∃ behind before, trimChars (cs ++ ds) = trimChars cs ++ (behind ++ before) ++ trimChars ds ∧
      (IsCleanCut cs ds ↔ behind ++ before = []) := by
  obtain ⟨front, behind, hfront, hbehind, heq⟩ := exists_append_trimChars cs
  obtain ⟨before, back, hbefore, hback, heq'⟩ := exists_append_trimChars ds
  have hvalue := isValue_trimChars hcs
  have hvalue' := isValue_trimChars hds
  refine ⟨behind, before, ?_, ?_⟩
  · calc trimChars (cs ++ ds)
        = trimChars (front ++ (trimChars cs ++ (behind ++ before) ++ trimChars ds) ++ back) := by
          conv_lhs => rw [heq, heq']
          simp only [List.append_assoc]
      _ = trimChars cs ++ (behind ++ before) ++ trimChars ds :=
          (hvalue.append _ hvalue').trimChars_append hfront hback
  · have hlast : (∀ c ∈ cs.getLast?, isWhitespace c = false) ↔ behind = [] := by
      rcases List.eq_nil_or_concat behind with hnil | ⟨more, c, hcons⟩
      · rw [heq, hnil, List.append_nil, List.getLast?_append_of_ne_nil _ hcs]
        exact iff_of_true hvalue.last rfl
      · rw [List.concat_eq_append] at hcons
        refine iff_of_false (fun h => ?_) (by simp [hcons])
        have hc := hbehind c (by simp [hcons])
        rw [h c (by rw [heq, hcons]; simp)] at hc
        cases hc
    have hhead : (∀ c ∈ ds.head?, isWhitespace c = false) ↔ before = [] := by
      cases before with
      | nil =>
          rw [heq', List.nil_append, head_append_of_ne_nil hds]
          exact iff_of_true hvalue'.head rfl
      | cons c more =>
          refine iff_of_false (fun h => ?_) (by simp)
          have hc := hbefore c (by simp)
          rw [h c (by rw [heq']; rfl)] at hc
          cases hc
    rw [IsCleanCut, hlast, hhead, List.append_eq_nil_iff]
    constructor
    · rintro (hblank | hblank | hclean)
      · exact absurd (trimChars_eq_nil_iff.mpr hblank) hcs
      · exact absurd (trimChars_eq_nil_iff.mpr hblank) hds
      · exact hclean
    · exact fun hclean => .inr (.inr hclean)

/-- Both sides of a cut, each trimmed, are part of the whole. -/
theorem sublist_trimChars_append (cs ds : List Char) :
    (trimChars cs ++ trimChars ds).Sublist (trimChars (cs ++ ds)) := by
  by_cases hcs : trimChars cs = []
  · rw [hcs, List.nil_append, trimChars_append_of_blank_left (trimChars_eq_nil_iff.mp hcs)]
  by_cases hds : trimChars ds = []
  · rw [hds, List.append_nil, trimChars_append_of_blank_right (trimChars_eq_nil_iff.mp hds)]
  obtain ⟨behind, before, heq, -⟩ := exists_trimChars_append hcs hds
  rw [heq]
  exact (List.sublist_append_left _ _).append_right _

/-- Trimming both sides of a cut loses nothing exactly if the cut is clean. -/
theorem trimChars_append_eq_iff :
    trimChars (cs ++ ds) = trimChars cs ++ trimChars ds ↔ IsCleanCut cs ds := by
  by_cases hcs : trimChars cs = []
  · have hblank := trimChars_eq_nil_iff.mp hcs
    rw [hcs, List.nil_append, trimChars_append_of_blank_left hblank]
    exact iff_of_true rfl (.inl hblank)
  by_cases hds : trimChars ds = []
  · have hblank := trimChars_eq_nil_iff.mp hds
    rw [hds, List.append_nil, trimChars_append_of_blank_right hblank]
    exact iff_of_true rfl (.inr (.inl hblank))
  obtain ⟨behind, before, heq, hclean⟩ := exists_trimChars_append hcs hds
  rw [heq, hclean, List.append_cancel_right_eq, List.append_right_eq_self]

/-! ## Many cuts -/

/-- All parts, each trimmed, are part of the whole. -/
theorem sublist_trimChars_flatten (parts : List (List Char)) :
    (parts.flatMap trimChars).Sublist (trimChars parts.flatten) := by
  induction parts with
  | nil => exact List.Sublist.refl []
  | cons part parts ih =>
      rw [List.flatMap_cons, List.flatten_cons]
      exact (ih.append_left _).trans (sublist_trimChars_append _ _)

/-- Trimming every part loses nothing exactly if every cut is clean. -/
theorem flatMap_trimChars_eq_iff :
    parts.flatMap trimChars = trimChars parts.flatten ↔
      ∀ before after, parts = before ++ after → IsCleanCut before.flatten after.flatten := by
  constructor
  · rintro heq before after rfl
    rw [List.flatMap_append, List.flatten_append] at heq
    -- Nothing is lost on either side, so nothing can be lost at the cut.
    have hboth := sublist_trimChars_append before.flatten after.flatten
    have hparts := (sublist_trimChars_flatten before).append (sublist_trimChars_flatten after)
    rw [← trimChars_append_eq_iff]
    refine (hboth.eq_of_length_le ?_).symm
    rw [← heq]
    exact hparts.length_le
  · intro hclean
    induction parts with
    | nil => rfl
    | cons part parts ih =>
        have hfirst := hclean [part] parts rfl
        rw [List.flatten_singleton] at hfirst
        rw [List.flatMap_cons, List.flatten_cons, trimChars_append_eq_iff.mpr hfirst, ih]
        rintro before after rfl
        rcases hclean (part :: before) after rfl with hblank | hblank | ⟨hlast, hhead⟩
        · exact .inl fun c hc => hblank c (by simp [List.mem_flatten.mp hc])
        · exact .inr (.inl hblank)
        · by_cases hnil : before.flatten = []
          · exact .inl (by simp [hnil])
          · rw [List.flatten_cons, List.getLast?_append_of_ne_nil _ hnil] at hlast
            exact .inr (.inr ⟨hlast, hhead⟩)

end RouteCompiler.Route
