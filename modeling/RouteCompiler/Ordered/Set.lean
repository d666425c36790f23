/-!
# Ordered sets

A finite set is the list of its elements in strictly ascending order.  Two sets
with the same elements are therefore equal, and listing a set has one result.

Main results:

- Lemmas `mem_insert` and `mem_union`: the elements after an insertion and of a
  union.
- Lemma `ofList_elements`: a set is recovered from the list of its elements.
-/

namespace RouteCompiler

/-- A finite set, listed in strictly ascending order. -/
structure SortedSet (α : Type) [Ord α] where
  elements : List α
  ascending : elements.Pairwise fun a b => compare a b = .lt

namespace SortedSet

variable {α : Type} [Ord α]

/-- Sets with the same elements in order are equal. -/
theorem ext {s t : SortedSet α} (h : s.elements = t.elements) : s = t := by
  cases s; cases t; simp_all

instance [DecidableEq α] : DecidableEq (SortedSet α) := fun s t =>
  if h : s.elements = t.elements then isTrue (ext h)
  else isFalse fun heq => h (heq ▸ rfl)

/-- The set without elements. -/
def empty : SortedSet α :=
  ⟨[], .nil⟩

instance : Inhabited (SortedSet α) := ⟨empty⟩

instance : Membership α (SortedSet α) := ⟨fun s a => a ∈ s.elements⟩

/-- Whether the set has no element. -/
def isEmpty (s : SortedSet α) : Bool :=
  s.elements.isEmpty

theorem isEmpty_iff {s : SortedSet α} : s.isEmpty = true ↔ s = empty :=
  List.isEmpty_iff.trans ⟨fun h => ext h, congrArg elements⟩

/-- The number of elements. -/
def size (s : SortedSet α) : Nat :=
  s.elements.length

/-- Put an element into an ascending list, unless it is there. -/
def insertSorted (a : α) : List α → List α
  | [] => [a]
  | b :: rest =>
      match compare a b with
      | .lt => a :: b :: rest
      | .eq => b :: rest
      | .gt => b :: insertSorted a rest

theorem mem_insertSorted_of {a x : α} {l : List α} (h : x ∈ insertSorted a l) :
    x = a ∨ x ∈ l := by
  induction l with
  | nil => simpa [insertSorted] using h
  | cons b rest ih =>
      simp only [insertSorted] at h
      split at h
      · simpa using h
      · exact .inr h
      · rcases List.mem_cons.mp h with rfl | hrest
        · exact .inr List.mem_cons_self
        · exact (ih hrest).imp_right fun hx => List.mem_cons_of_mem _ hx

variable [Std.TransOrd α] [Std.LawfulEqOrd α]

omit [Std.TransOrd α] in
theorem mem_insertSorted {a x : α} {l : List α} :
    x ∈ insertSorted a l ↔ x = a ∨ x ∈ l := by
  refine ⟨mem_insertSorted_of, ?_⟩
  induction l with
  | nil => simp [insertSorted]
  | cons b rest ih =>
      intro h
      simp only [insertSorted]
      split
      · simpa using h
      · next heq =>
        have := Std.LawfulEqOrd.eq_of_compare heq
        subst this
        simpa using h
      · rcases h with rfl | h
        · exact List.mem_cons_of_mem _ (ih (.inl rfl))
        · rcases List.mem_cons.mp h with rfl | h
          · exact List.mem_cons_self
          · exact List.mem_cons_of_mem _ (ih (.inr h))

omit [Std.LawfulEqOrd α] in
theorem pairwise_insertSorted (a : α) {l : List α}
    (h : l.Pairwise fun a b => compare a b = .lt) :
    (insertSorted a l).Pairwise fun a b => compare a b = .lt := by
  induction l with
  | nil => simp [insertSorted]
  | cons b rest ih =>
      have hrest := List.pairwise_cons.mp h
      simp only [insertSorted]
      split
      · next hlt =>
        refine List.pairwise_cons.mpr ⟨fun x hx => ?_, h⟩
        rcases List.mem_cons.mp hx with rfl | hx
        · exact hlt
        · exact Std.TransCmp.lt_trans hlt (hrest.1 x hx)
      · exact h
      · next hgt =>
        refine List.pairwise_cons.mpr ⟨fun x hx => ?_, ih hrest.2⟩
        rcases mem_insertSorted_of hx with rfl | hx
        · exact Std.OrientedCmp.gt_iff_lt.mp hgt
        · exact hrest.1 x hx

/-- Add an element. -/
def insert (s : SortedSet α) (a : α) : SortedSet α :=
  ⟨insertSorted a s.elements, pairwise_insertSorted a s.ascending⟩

/-- Add every element of a list. -/
def insertAll (s : SortedSet α) (l : List α) : SortedSet α :=
  l.foldl insert s

/-- The set of the elements of a list. -/
def ofList (l : List α) : SortedSet α :=
  empty.insertAll l

/-- The elements of either set. -/
def union (s t : SortedSet α) : SortedSet α :=
  s.insertAll t.elements

@[simp] theorem mem_insert {s : SortedSet α} {a x : α} : x ∈ s.insert a ↔ x = a ∨ x ∈ s :=
  mem_insertSorted

omit [Std.TransOrd α] [Std.LawfulEqOrd α] in
@[simp] theorem not_mem_empty (x : α) : x ∉ (empty : SortedSet α) :=
  List.not_mem_nil

@[simp] theorem mem_insertAll {s : SortedSet α} {l : List α} {x : α} :
    x ∈ s.insertAll l ↔ x ∈ s ∨ x ∈ l := by
  unfold insertAll
  induction l generalizing s with
  | nil => simp
  | cons a l ih =>
      simp only [List.foldl_cons, ih, mem_insert, List.mem_cons]
      grind

@[simp] theorem mem_union {s t : SortedSet α} {x : α} : x ∈ s.union t ↔ x ∈ s ∨ x ∈ t :=
  mem_insertAll

@[simp] theorem mem_ofList {l : List α} {x : α} : x ∈ ofList l ↔ x ∈ l := by
  simp [ofList]

omit [Std.LawfulEqOrd α] in
/-- An element above all others is inserted at the end. -/
theorem insertSorted_of_forall_lt {a : α} {l : List α}
    (h : ∀ x ∈ l, compare x a = .lt) : insertSorted a l = l ++ [a] := by
  induction l with
  | nil => rfl
  | cons b rest ih =>
      have hgt : compare a b = .gt := Std.OrientedCmp.gt_iff_lt.mpr (h b List.mem_cons_self)
      simp only [insertSorted, hgt, List.cons_append]
      rw [ih fun x hx => h x (List.mem_cons_of_mem _ hx)]

omit [Std.LawfulEqOrd α] in
theorem elements_insertAll {s : SortedSet α} {l : List α}
    (h : (s.elements ++ l).Pairwise fun a b => compare a b = .lt) :
    (s.insertAll l).elements = s.elements ++ l := by
  unfold insertAll
  induction l generalizing s with
  | nil => simp
  | cons a l ih =>
      have hlast : insertSorted a s.elements = s.elements ++ [a] :=
        insertSorted_of_forall_lt fun x hx =>
          (List.pairwise_append.mp h).2.2 x hx a List.mem_cons_self
      have hs : (s.insert a).elements = s.elements ++ [a] := hlast
      rw [List.foldl_cons, ih (by rw [hs]; simpa using h), hs]
      simp

omit [Std.LawfulEqOrd α] in
/-- A set is recovered from the list of its elements. -/
@[simp] theorem ofList_elements (s : SortedSet α) : ofList s.elements = s :=
  ext (by
    have h := elements_insertAll (s := empty) (l := s.elements)
      (by simpa [empty] using s.ascending)
    simpa [ofList, empty] using h)

end SortedSet

end RouteCompiler
