import RouteCompiler.Proofs.Files.Paths

/-!
# How paths are written

Two paths that lead the same way may differ as texts, and how long a text may be is limited.  This
module says how a path is written that was joined from another, and that cutting gives back the
text of that other one, if it ends in a name.

Main results:

- Theorem `joinPieces_splitOn`: a text is its pieces with slashes between them.
- Theorem `join_of_last`: behind a name another name is joined with one slash.
- Theorem `parent_join`: its parent is then the text that it was joined to.
-/

namespace RouteCompiler.Path

open RouteCompiler.Text

variable {base name : String} {ps before : List (List Char)} {last piece : List Char}

/-- A text is its pieces with slashes between them. -/
theorem joinPieces_splitOn (cs : List Char) : joinPieces (splitOn '/' cs) = cs := by
  induction cs with
  | nil => rfl
  | cons c cs ih =>
      obtain ⟨first, rest, hsplit⟩ := exists_splitOn_eq_cons '/' cs
      rw [hsplit] at ih
      by_cases hc : c = '/'
      · simp [splitOn, hc, hsplit, joinPieces, ih]
      · rw [splitOn, if_neg hc, hsplit]
        cases rest <;> simpa [joinPieces] using ih

theorem joinPieces_pieces (path : String) : String.ofList (joinPieces (pieces path)) = path := by
  rw [pieces, joinPieces_splitOn, String.ofList_toList]

theorem ne_nil_of_not_isTrivial (h : isTrivial piece = false) : piece ≠ [] := by
  rintro rfl
  cases h

/-- A text whose last piece is no trivial one does not end in a slash. -/
theorem getLast_ne_slash (hbase : pieces base = before ++ [last]) (hlast : isTrivial last = false) :
    base ≠ "" ∧ base.toList.getLast? ≠ some '/' := by
  constructor
  · rintro rfl
    obtain ⟨-, hnil⟩ := List.append_inj' (show [] ++ [[]] = before ++ [last] from hbase) rfl
    exact ne_nil_of_not_isTrivial hlast (List.singleton_inj.mp hnil).symm
  · intro hslash
    obtain ⟨cs, hcs⟩ := List.getLast?_eq_some_iff.mp hslash
    rw [pieces, hcs, splitOn_append_cons] at hbase
    obtain ⟨-, hnil⟩ := List.append_inj' hbase rfl
    exact ne_nil_of_not_isTrivial hlast (List.singleton_inj.mp hnil).symm

/-- Behind a text that ends in a name a path is joined with one slash. -/
theorem join_of_last (hbase : pieces base = before ++ [last]) (hlast : isTrivial last = false)
    (hname : isAbsolute name = false) : join base name = base ++ "/" ++ name := by
  obtain ⟨hempty, hslash⟩ := getLast_ne_slash hbase hlast
  rw [join, hname, if_neg Bool.false_ne_true, if_neg]
  simp [hempty, hslash]

theorem pieces_join_of_last (hbase : pieces base = before ++ [last])
    (hlast : isTrivial last = false) (hname : isAbsolute name = false) :
    pieces (join base name) = pieces base ++ pieces name := by
  have htext : (base ++ "/" ++ name).toList = base.toList ++ '/' :: name.toList := by simp
  rw [join_of_last hbase hlast hname, pieces, htext, splitOn_append_cons, pieces, pieces]

/-- Nothing is dropped at the end of pieces of which the last is no trivial one. -/
theorem dropTrivialEnd_of_last (hlast : isTrivial last = false) :
    dropTrivialEnd (before ++ [last]) = before ++ [last] := by
  cases before with
  | nil => rw [List.nil_append, dropTrivialEnd, if_neg (ne_nil_of_not_isTrivial hlast)]
  | cons first rest =>
      cases rest with
      | nil => simp [dropTrivialEnd, hlast]
      | cons second rest => simp [dropTrivialEnd, hlast]

/-- The parent of a name that was joined to a text that ends in a name is that text. -/
theorem parent_join (hbase : pieces base = before ++ [last]) (hlast : isTrivial last = false)
    (habsolute : isAbsolute name = false) (hname : pieces name = [piece])
    (hpiece : isTrivial piece = false) : parent? (join base name) = some base := by
  have hpieces := pieces_join_of_last hbase hlast habsolute
  rw [parent?, isAbsolute_join habsolute, hpieces, hname]
  split
  · next hbegin =>
    obtain ⟨rest, hrest, hroot⟩ := isAbsolute_iff.mp hbegin
    obtain ⟨front, rfl⟩ : ∃ front, rest = front ++ [last] := by
      cases before with
      | nil => exact absurd (List.cons.inj (hroot.symm.trans hbase)).2 hrest
      | cons first front => exact ⟨front, (List.cons.inj (hroot.symm.trans hbase)).2⟩
    have hjoined : String.ofList ('/' :: joinPieces (front ++ [last])) = base := by
      have hslash : '/' :: joinPieces (front ++ [last]) = joinPieces (pieces base) := by
        rw [hroot]
        cases front <;> rfl
      rw [hslash, joinPieces_pieces]
    simp [hroot, hpiece, hlast, hjoined]
  · rw [dropTrivialEnd_of_last hpiece, List.reverse_append]
    change some (String.ofList (joinPieces (dropTrivialEnd (pieces base).reverse.reverse))) = _
    rw [List.reverse_reverse, hbase, dropTrivialEnd_of_last hlast, ← hbase, joinPieces_pieces]

end RouteCompiler.Path
