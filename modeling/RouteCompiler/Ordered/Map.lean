/-!
# Ordered maps

A finite map is the list of its entries in strictly ascending order of keys.
Two maps with the same entries are therefore equal, and listing a map has one
result.

Main results:

- Lemmas `find_insert_self` and `find_insert_of_ne`: an insertion changes the
  value of its key only.
- Lemmas `find_erase_self` and `find_erase_of_ne`: so does a removal.
- Lemma `ofList_entries`: a map is recovered from the list of its entries.
-/

namespace RouteCompiler

/-- A finite map, listed in strictly ascending order of keys. -/
structure SortedMap (κ : Type) (α : Type) [Ord κ] where
  entries : List (κ × α)
  ascending : entries.Pairwise fun a b => compare a.1 b.1 = .lt

namespace SortedMap

variable {κ α : Type} [Ord κ]

/-- Maps with the same entries in order are equal. -/
theorem ext {s t : SortedMap κ α} (h : s.entries = t.entries) : s = t := by
  cases s; cases t; simp_all

instance [DecidableEq κ] [DecidableEq α] : DecidableEq (SortedMap κ α) := fun s t =>
  if h : s.entries = t.entries then isTrue (ext h)
  else isFalse fun heq => h (heq ▸ rfl)

/-- The map without entries. -/
def empty : SortedMap κ α :=
  ⟨[], .nil⟩

instance : Inhabited (SortedMap κ α) := ⟨empty⟩

/-- Whether the map has no entry. -/
def isEmpty (m : SortedMap κ α) : Bool :=
  m.entries.isEmpty

theorem isEmpty_iff {m : SortedMap κ α} : m.isEmpty = true ↔ m = empty :=
  List.isEmpty_iff.trans ⟨fun h => ext h, congrArg entries⟩

/-- The number of entries. -/
def size (m : SortedMap κ α) : Nat :=
  m.entries.length

/-- The keys, ascending. -/
def keys (m : SortedMap κ α) : List κ :=
  m.entries.map Prod.fst

/-- The values, in the order of their keys. -/
def values (m : SortedMap κ α) : List α :=
  m.entries.map Prod.snd

/-- The value of a key. -/
def find? [DecidableEq κ] (m : SortedMap κ α) (key : κ) : Option α :=
  m.entries.lookup key

/-- Put an entry into a list with ascending keys, in place of the one with the
same key. -/
def insertSorted (key : κ) (value : α) : List (κ × α) → List (κ × α)
  | [] => [(key, value)]
  | entry :: rest =>
      match compare key entry.1 with
      | .lt => (key, value) :: entry :: rest
      | .eq => (key, value) :: rest
      | .gt => entry :: insertSorted key value rest

theorem mem_insertSorted_of {key : κ} {value : α} {x : κ × α} {l : List (κ × α)}
    (h : x ∈ insertSorted key value l) : x = (key, value) ∨ x ∈ l := by
  induction l with
  | nil => simpa [insertSorted] using h
  | cons entry rest ih =>
      simp only [insertSorted] at h
      split at h
      · simpa using h
      · exact (List.mem_cons.mp h).imp_right fun hx => List.mem_cons_of_mem _ hx
      · rcases List.mem_cons.mp h with rfl | hrest
        · exact .inr List.mem_cons_self
        · exact (ih hrest).imp_right fun hx => List.mem_cons_of_mem _ hx

variable [Std.TransOrd κ] [Std.LawfulEqOrd κ]

theorem pairwise_insertSorted (key : κ) (value : α) {l : List (κ × α)}
    (h : l.Pairwise fun a b => compare a.1 b.1 = .lt) :
    (insertSorted key value l).Pairwise fun a b => compare a.1 b.1 = .lt := by
  induction l with
  | nil => simp [insertSorted]
  | cons entry rest ih =>
      have hrest := List.pairwise_cons.mp h
      simp only [insertSorted]
      split
      · next hlt =>
        refine List.pairwise_cons.mpr ⟨fun x hx => ?_, h⟩
        rcases List.mem_cons.mp hx with rfl | hx
        · exact hlt
        · exact Std.TransCmp.lt_trans hlt (hrest.1 x hx)
      · next heq =>
        have := Std.LawfulEqOrd.eq_of_compare heq
        refine List.pairwise_cons.mpr ⟨fun x hx => ?_, hrest.2⟩
        simpa [this] using hrest.1 x hx
      · next hgt =>
        refine List.pairwise_cons.mpr ⟨fun x hx => ?_, ih hrest.2⟩
        rcases mem_insertSorted_of hx with rfl | hx
        · exact Std.OrientedCmp.gt_iff_lt.mp hgt
        · exact hrest.1 x hx

/-- Give a key a value. -/
def insert (m : SortedMap κ α) (key : κ) (value : α) : SortedMap κ α :=
  ⟨insertSorted key value m.entries, pairwise_insertSorted key value m.ascending⟩

/-- Remove a key. -/
def erase [DecidableEq κ] (m : SortedMap κ α) (key : κ) : SortedMap κ α :=
  ⟨m.entries.filter (·.1 != key), m.ascending.filter _⟩

/-- Give every key of a list its value; of several values the last one stays. -/
def insertAll (m : SortedMap κ α) (l : List (κ × α)) : SortedMap κ α :=
  l.foldl (fun m entry => m.insert entry.1 entry.2) m

/-- The map of the entries of a list; of several values of a key the last one
stays. -/
def ofList (l : List (κ × α)) : SortedMap κ α :=
  empty.insertAll l

/-- Change every value. -/
def mapValues {β : Type} (f : α → β) (m : SortedMap κ α) : SortedMap κ β :=
  ⟨m.entries.map fun entry => (entry.1, f entry.2),
    List.pairwise_map.mpr m.ascending⟩

theorem insertAll_append (m : SortedMap κ α) (l l' : List (κ × α)) :
    m.insertAll (l ++ l') = (m.insertAll l).insertAll l' :=
  List.foldl_append

section Lookup

variable [DecidableEq κ]

omit [Std.TransOrd κ] [Std.LawfulEqOrd κ] in
@[simp] theorem find_empty (key : κ) : (empty : SortedMap κ α).find? key = none := rfl

omit [Ord κ] [Std.TransOrd κ] [Std.LawfulEqOrd κ] in
private theorem lookup_cons_eq (key other : κ) (value : α) (l : List (κ × α)) :
    ((key, value) :: l).lookup other = if other = key then some value else l.lookup other := by
  by_cases h : other = key
  · subst h
    rw [List.lookup_cons_self, if_pos rfl]
  · have : (other == key) = false := by simpa using h
    rw [if_neg h, List.lookup_cons, this]

omit [Std.TransOrd κ] in
private theorem lookup_insertSorted (key other : κ) (value : α) (l : List (κ × α)) :
    (insertSorted key value l).lookup other =
      if other = key then some value else l.lookup other := by
  induction l with
  | nil => simp only [insertSorted, lookup_cons_eq]
  | cons entry rest ih =>
      obtain ⟨k, v⟩ := entry
      simp only [insertSorted]
      split
      · simp only [lookup_cons_eq]
      · next heq =>
        have := Std.LawfulEqOrd.eq_of_compare heq
        subst this
        simp only [lookup_cons_eq]
        split <;> rfl
      · next hgt =>
        have hne : k ≠ key := by
          rintro rfl
          simp at hgt
        simp only [lookup_cons_eq, ih]
        by_cases h : other = k
        · simp [h, hne]
        · simp [h]

/-- A key has the value it was given. -/
@[simp] theorem find_insert_self (m : SortedMap κ α) (key : κ) (value : α) :
    (m.insert key value).find? key = some value := by
  simp [find?, insert, lookup_insertSorted]

/-- An insertion leaves every other key as it was. -/
theorem find_insert_of_ne (m : SortedMap κ α) {key other : κ} (value : α) (h : other ≠ key) :
    (m.insert key value).find? other = m.find? other := by
  simp [find?, insert, lookup_insertSorted, h]

omit [Std.TransOrd κ] in
/-- Exactly the entries are found. -/
theorem find_eq_some_iff {m : SortedMap κ α} {key : κ} {value : α} :
    m.find? key = some value ↔ (key, value) ∈ m.entries := by
  obtain ⟨l, hl⟩ := m
  rw [find?]
  induction l with
  | nil => simp
  | cons entry rest ih =>
      obtain ⟨k, v⟩ := entry
      obtain ⟨hfirst, hrest⟩ := List.pairwise_cons.mp hl
      rw [lookup_cons_eq, List.mem_cons, ← ih hrest]
      split
      · next heq =>
        subst heq
        have hnone : (key, value) ∉ rest := by
          intro hmem
          have hlt := hfirst _ hmem
          simp at hlt
        simp [ih hrest, hnone, eq_comm]
      · next hne => simp [hne]

omit [Std.TransOrd κ] in
/-- A key that was removed has no value. -/
@[simp] theorem find_erase_self (m : SortedMap κ α) (key : κ) :
    (m.erase key).find? key = none := by
  refine Option.eq_none_iff_forall_not_mem.mpr fun value hvalue => ?_
  have hmem := find_eq_some_iff.mp hvalue
  simp [erase] at hmem

omit [Std.TransOrd κ] in
/-- Removing a key leaves every other key as it was. -/
theorem find_erase_of_ne (m : SortedMap κ α) {key other : κ} (h : other ≠ key) :
    (m.erase key).find? other = m.find? other := by
  refine Option.ext fun value => ?_
  rw [find_eq_some_iff, find_eq_some_iff]
  simp [erase, h]

theorem find_insert (m : SortedMap κ α) (key : κ) (value : α) (other : κ) :
    (m.insert key value).find? other = if other = key then some value else m.find? other := by
  by_cases h : other = key
  · rw [if_pos h, h, find_insert_self]
  · rw [if_neg h, find_insert_of_ne _ _ h]

omit [Std.TransOrd κ] in
theorem find_erase (m : SortedMap κ α) (key other : κ) :
    (m.erase key).find? other = if other = key then none else m.find? other := by
  by_cases h : other = key
  · rw [if_pos h, h, find_erase_self]
  · rw [if_neg h, find_erase_of_ne _ h]

omit [Std.TransOrd κ] in
/-- The values are what is found under some key. -/
theorem mem_values {m : SortedMap κ α} {value : α} :
    value ∈ m.values ↔ ∃ key, m.find? key = some value := by
  simp only [values, List.mem_map, find_eq_some_iff, Prod.exists, exists_eq_right]

omit [Std.TransOrd κ] in
/-- Removing a key that has no value changes nothing. -/
theorem erase_of_find_eq_none {m : SortedMap κ α} {key : κ} (h : m.find? key = none) :
    m.erase key = m := by
  refine ext (List.filter_eq_self.mpr fun entry hentry => ?_)
  rw [bne_iff_ne]
  rintro rfl
  rw [find_eq_some_iff.mpr hentry] at h
  cases h

/-- Removing a key that has just been given a value is removing it. -/
theorem erase_insert (m : SortedMap κ α) (key : κ) (value : α) :
    (m.insert key value).erase key = m.erase key := by
  have hfilter (l : List (κ × α)) :
      (insertSorted key value l).filter (·.1 != key) = l.filter (·.1 != key) := by
    induction l with
    | nil => simp [insertSorted]
    | cons entry rest ih =>
        simp only [insertSorted]
        split
        · rw [List.filter_cons_of_neg (by simp)]
        · next heq =>
          have := Std.LawfulEqOrd.eq_of_compare heq
          rw [List.filter_cons_of_neg (by simp), List.filter_cons_of_neg (by simp [this])]
        · rw [List.filter_cons, List.filter_cons, ih]
  exact ext (hfilter m.entries)

/-- A key that a list gives values has one of them afterwards, and any other key is left as it
was. -/
theorem find_insertAll_cases (m : SortedMap κ α) (l : List (κ × α)) (key : κ) :
    (∃ value, (key, value) ∈ l ∧ (m.insertAll l).find? key = some value) ∨
      (∀ value, (key, value) ∉ l) ∧ (m.insertAll l).find? key = m.find? key := by
  induction l generalizing m with
  | nil => exact .inr ⟨fun _ => List.not_mem_nil, rfl⟩
  | cons entry l ih =>
      rcases ih (m.insert entry.1 entry.2) with ⟨value, hvalue, hfind⟩ | ⟨hnone, hfind⟩
      · exact .inl ⟨value, List.mem_cons_of_mem _ hvalue, hfind⟩
      · by_cases hkey : key = entry.1
        · rw [hkey, find_insert_self] at hfind
          exact .inl ⟨entry.2, hkey ▸ List.mem_cons_self, hkey ▸ hfind⟩
        · rw [find_insert_of_ne m entry.2 hkey] at hfind
          refine .inr ⟨fun value hvalue => ?_, hfind⟩
          rcases List.mem_cons.mp hvalue with heq | hvalue
          · exact hkey (congrArg Prod.fst heq)
          · exact hnone value hvalue

/-- Where all values that a list gives a key agree, the key has that value. -/
theorem find_ofList_eq_some {l : List (κ × α)} {key : κ} {value : α} (h : (key, value) ∈ l)
    (hagree : ∀ other, (key, other) ∈ l → other = value) : (ofList l).find? key = some value := by
  rcases find_insertAll_cases empty l key with ⟨other, hother, hfind⟩ | ⟨hnone, -⟩
  · rw [ofList, hfind, hagree other hother]
  · exact absurd h (hnone value)

/-- A value that is found is one that the list gives the key. -/
theorem mem_of_find_ofList {l : List (κ × α)} {key : κ} {value : α}
    (h : (ofList l).find? key = some value) : (key, value) ∈ l := by
  rcases find_insertAll_cases empty l key with ⟨other, hother, hfind⟩ | ⟨-, hfind⟩
  · rw [ofList, hfind] at h
    exact Option.some.inj h ▸ hother
  · rw [ofList, hfind, find_empty] at h
    cases h

end Lookup

omit [Std.LawfulEqOrd κ] in
/-- An entry above all others is inserted at the end. -/
theorem insertSorted_of_forall_lt {key : κ} {value : α} {l : List (κ × α)}
    (h : ∀ x ∈ l, compare x.1 key = .lt) :
    insertSorted key value l = l ++ [(key, value)] := by
  induction l with
  | nil => rfl
  | cons entry rest ih =>
      have hgt : compare key entry.1 = .gt :=
        Std.OrientedCmp.gt_iff_lt.mpr (h entry List.mem_cons_self)
      simp only [insertSorted, hgt, List.cons_append]
      rw [ih fun x hx => h x (List.mem_cons_of_mem _ hx)]

theorem entries_insertAll {m : SortedMap κ α} {l : List (κ × α)}
    (h : (m.entries ++ l).Pairwise fun a b => compare a.1 b.1 = .lt) :
    (m.insertAll l).entries = m.entries ++ l := by
  unfold insertAll
  induction l generalizing m with
  | nil => simp
  | cons entry l ih =>
      have hlast : insertSorted entry.1 entry.2 m.entries = m.entries ++ [entry] :=
        insertSorted_of_forall_lt fun x hx =>
          (List.pairwise_append.mp h).2.2 x hx entry List.mem_cons_self
      have hm : (m.insert entry.1 entry.2).entries = m.entries ++ [entry] := hlast
      rw [List.foldl_cons, ih (by rw [hm]; simpa using h), hm]
      simp

/-- A map is recovered from the list of its entries. -/
@[simp] theorem ofList_entries (m : SortedMap κ α) : ofList m.entries = m :=
  ext (by
    have h := entries_insertAll (κ := κ) (m := empty) (l := m.entries)
      (by simpa [empty] using m.ascending)
    simpa [ofList, empty] using h)

end SortedMap

end RouteCompiler
