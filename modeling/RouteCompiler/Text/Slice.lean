/-!
# Cutting and measuring text

Readers in this library work on lists of characters.  This module supplies the
classes of blank characters, trimming at either end, cutting at the first
occurrence of a pattern, and the length of a text in UTF-8 bytes, which is the
unit of every reported position.

Main results:

- Lemmas `append_of_cutAt` and `intercalate_splitOn`: cutting loses nothing but the pattern
  itself, or the separators.
- Lemmas `cutAt_length` and `length_dropWhile_le`: what is left to read never
  grows, so every reader built on these cuts ends.
- Lemmas `takeWhile_append_of_head` and `dropWhile_append_of_head`: a run of characters is
  read up to where it ends.
- Lemma `trim_eq_self`: trimming keeps a text without white space at its ends.
-/

namespace RouteCompiler.Text

/-! ## Blank characters -/

/-- The characters that separate names and keys in markup: space, carriage
return, line feed and tab. -/
def isBlank (c : Char) : Bool :=
  c == ' ' || c == '\r' || c == '\n' || c == '\t'

/-- The characters with the Unicode property White_Space. -/
def isWhitespace (c : Char) : Bool :=
  let n := c.toNat
  (9 ≤ n && n ≤ 13) || n == 0x20 || n == 0x85 || n == 0xA0 || n == 0x1680 ||
    (0x2000 ≤ n && n ≤ 0x200A) || n == 0x2028 || n == 0x2029 || n == 0x202F ||
    n == 0x205F || n == 0x3000

/-- A blank character is white space. -/
theorem isWhitespace_of_isBlank {c : Char} (h : isBlank c = true) :
    isWhitespace c = true := by
  simp only [isBlank, Bool.or_eq_true, beq_iff_eq] at h
  rcases h with ((rfl | rfl) | rfl) | rfl <;> decide

/-! ## Trimming -/

/-- Remove the longest end of the text on which the test holds. -/
def dropEndWhile (p : Char → Bool) (cs : List Char) : List Char :=
  (cs.reverse.dropWhile p).reverse

/-- Remove white space at both ends. -/
def trimChars (cs : List Char) : List Char :=
  dropEndWhile isWhitespace (cs.dropWhile isWhitespace)

/-- Remove white space at both ends of a string. -/
def trim (s : String) : String :=
  String.ofList (trimChars s.toList)

/-- A text is blank when it holds nothing but white space. -/
def isBlankText (s : String) : Bool :=
  s.toList.all isWhitespace

/-- A text whose first and last characters are no white space is kept. -/
theorem trimChars_eq_self {cs : List Char}
    (hhead : ∀ c, cs.head? = some c → isWhitespace c = false)
    (hlast : ∀ c, cs.getLast? = some c → isWhitespace c = false) :
    trimChars cs = cs := by
  have hdrop : cs.dropWhile isWhitespace = cs := by
    cases cs with
    | nil => rfl
    | cons c rest => simp [hhead c rfl]
  have hback : cs.reverse.dropWhile isWhitespace = cs.reverse := by
    cases hrev : cs.reverse with
    | nil => rfl
    | cons c rest =>
        have hc : cs.getLast? = some c := by
          rw [List.getLast?_eq_head?_reverse, hrev]; rfl
        simp [hlast c hc]
  simp [trimChars, dropEndWhile, hdrop, hback]

/-- Trimming keeps a string whose first and last characters are no white
space. -/
theorem trim_eq_self {s : String}
    (hhead : ∀ c, s.toList.head? = some c → isWhitespace c = false)
    (hlast : ∀ c, s.toList.getLast? = some c → isWhitespace c = false) :
    trim s = s := by
  simp [trim, trimChars_eq_self hhead hlast]

/-! ## Cutting -/

/-- Cut at the first occurrence of a pattern: the text before it and the text
after it. -/
def cutAt (pattern : List Char) : List Char → Option (List Char × List Char)
  | [] => if pattern.isEmpty then some ([], []) else none
  | c :: cs =>
      if pattern.isPrefixOf (c :: cs) then
        some ([], (c :: cs).drop pattern.length)
      else (cutAt pattern cs).map fun cut => (c :: cut.1, cut.2)

/-- Cutting loses nothing but the pattern. -/
theorem append_of_cutAt {pattern cs before rest : List Char}
    (h : cutAt pattern cs = some (before, rest)) :
    before ++ pattern ++ rest = cs := by
  induction cs generalizing before rest with
  | nil =>
      simp only [cutAt] at h
      split at h
      · next hempty => simp_all
      · simp at h
  | cons c cs ih =>
      simp only [cutAt] at h
      split at h
      · next hfront =>
        obtain ⟨tail, htail⟩ := List.isPrefixOf_iff_prefix.mp hfront
        simp only [Option.some.injEq, Prod.mk.injEq] at h
        obtain ⟨rfl, rfl⟩ := h
        simp [← htail]
      · obtain ⟨⟨b, r⟩, hcut, heq⟩ := Option.map_eq_some_iff.mp h
        simp only [Prod.mk.injEq] at heq
        obtain ⟨rfl, rfl⟩ := heq
        simpa using ih hcut

/-- What follows a pattern is no longer than the text that was cut. -/
theorem cutAt_length {pattern cs before rest : List Char}
    (h : cutAt pattern cs = some (before, rest)) :
    rest.length ≤ cs.length := by
  have := congrArg List.length (append_of_cutAt h)
  simp at this
  omega

/-- Dropping a front leaves no longer text. -/
theorem length_dropWhile_le (p : Char → Bool) (cs : List Char) :
    (cs.dropWhile p).length ≤ cs.length :=
  (List.dropWhile_sublist p).length_le

section Runs

variable {p : Char → Bool} {cs rest : List Char}

/-- A run of characters of a class is taken up to where it ends. -/
theorem takeWhile_append_of_head (h : ∀ c ∈ cs, p c = true)
    (hrest : ∀ c ∈ rest.head?, p c = false) : (cs ++ rest).takeWhile p = cs := by
  rw [List.takeWhile_append_of_pos h]
  cases rest with
  | nil => exact List.append_nil cs
  | cons c rest => rw [List.takeWhile_cons_of_neg (by simp [hrest c rfl]), List.append_nil]

/-- What is behind such a run is left. -/
theorem dropWhile_append_of_head (h : ∀ c ∈ cs, p c = true)
    (hrest : ∀ c ∈ rest.head?, p c = false) : (cs ++ rest).dropWhile p = rest := by
  rw [List.dropWhile_append_of_pos h]
  cases rest with
  | nil => rfl
  | cons c rest => rw [List.dropWhile_cons_of_neg (by simp [hrest c rfl])]

end Runs

/-- The pieces of a text between the occurrences of a separator character;
there is always at least one. -/
def splitOn (separator : Char) : List Char → List (List Char)
  | [] => [[]]
  | c :: cs =>
      if c = separator then [] :: splitOn separator cs
      else
        match splitOn separator cs with
        | [] => [[c]]
        | piece :: pieces => (c :: piece) :: pieces

theorem exists_splitOn_eq_cons (separator : Char) (cs : List Char) :
    ∃ piece pieces, splitOn separator cs = piece :: pieces := by
  induction cs with
  | nil => exact ⟨[], [], rfl⟩
  | cons c cs ih =>
      obtain ⟨piece, pieces, hsplit⟩ := ih
      by_cases hc : c = separator
      · exact ⟨[], splitOn separator cs, by rw [splitOn, if_pos hc]⟩
      · exact ⟨c :: piece, pieces, by rw [splitOn, if_neg hc, hsplit]⟩

/-- Cutting at a separator cuts what is on either side of it. -/
theorem splitOn_append_cons (separator : Char) (cs ds : List Char) :
    splitOn separator (cs ++ separator :: ds) = splitOn separator cs ++ splitOn separator ds := by
  induction cs with
  | nil => simp [splitOn]
  | cons c cs ih =>
      by_cases hc : c = separator
      · simp [splitOn, hc, ih]
      · obtain ⟨piece, pieces, hsplit⟩ := exists_splitOn_eq_cons separator cs
        simp [splitOn, hc, ih, hsplit]

/-- A text without separators is one piece. -/
theorem splitOn_of_not_mem {separator : Char} {cs : List Char} (h : separator ∉ cs) :
    splitOn separator cs = [cs] := by
  induction cs with
  | nil => rfl
  | cons c cs ih =>
      obtain ⟨hne, hcs⟩ := not_or.mp (mt List.mem_cons.mpr h)
      have hc : ¬c = separator := fun heq => hne heq.symm
      simp [splitOn, hc, ih hcs]

/-- A text without separators that is put behind another goes on with its last piece. -/
theorem splitOn_append_of_not_mem {separator : Char} (cs : List Char) {ds : List Char}
    (h : separator ∉ ds) :
    ∃ before last, splitOn separator cs = before ++ [last] ∧
      splitOn separator (cs ++ ds) = before ++ [last ++ ds] := by
  induction cs with
  | nil =>
      refine ⟨[], [], rfl, ?_⟩
      rw [List.nil_append, splitOn_of_not_mem h]
      rfl
  | cons c cs ih =>
      obtain ⟨before, last, hsplit, happend⟩ := ih
      by_cases hc : c = separator
      · exact ⟨[] :: before, last, by simp [splitOn, hc, hsplit], by simp [splitOn, hc, happend]⟩
      · cases before with
        | nil =>
            refine ⟨[], c :: last, ?_, ?_⟩
            · simp [splitOn, hc, hsplit]
            · simp only [List.cons_append, splitOn, if_neg hc, happend, List.nil_append]
        | cons piece before =>
            refine ⟨(c :: piece) :: before, last, ?_, ?_⟩
            · simp [splitOn, hc, hsplit]
            · simp [splitOn, hc, happend]

/-- Cutting at separators loses nothing but the separators. -/
theorem intercalate_splitOn (separator : Char) (cs : List Char) :
    [separator].intercalate (splitOn separator cs) = cs := by
  induction cs with
  | nil => rfl
  | cons c cs ih =>
      obtain ⟨piece, pieces, hsplit⟩ := exists_splitOn_eq_cons separator cs
      rw [hsplit] at ih
      by_cases hc : c = separator
      · rw [splitOn, if_pos hc, hc, hsplit]
        simpa [List.intercalate_cons_cons] using ih
      · rw [splitOn, if_neg hc, hsplit]
        cases pieces with
        | nil => simpa [List.intercalate] using ih
        | cons next pieces => simpa [List.intercalate_cons_cons] using ih

/-- No piece holds the separator. -/
theorem not_mem_of_mem_splitOn {separator : Char} {cs piece : List Char}
    (h : piece ∈ splitOn separator cs) : separator ∉ piece := by
  induction cs generalizing piece with
  | nil =>
      rw [List.mem_singleton.mp h]
      exact List.not_mem_nil
  | cons c cs ih =>
      by_cases hc : c = separator
      · rw [splitOn, if_pos hc] at h
        rcases List.mem_cons.mp h with rfl | h
        · exact List.not_mem_nil
        · exact ih h
      · obtain ⟨first, pieces, hsplit⟩ := exists_splitOn_eq_cons separator cs
        rw [splitOn, if_neg hc, hsplit] at h
        rw [hsplit] at ih
        rcases List.mem_cons.mp h with rfl | h
        · rintro (_ | ⟨_, hfirst⟩)
          · exact hc rfl
          · exact ih List.mem_cons_self hfirst
        · exact ih (List.mem_cons_of_mem first h)

/-- Put one separator between consecutive pieces. -/
def joinWith (separator : String) : List String → String
  | [] => ""
  | [piece] => piece
  | piece :: pieces => piece ++ separator ++ joinWith separator pieces

/-! ## Length in bytes -/

/-- Length of a text in UTF-8 bytes. -/
def byteLength : List Char → Nat
  | [] => 0
  | c :: cs => c.utf8Size + byteLength cs

/-- Byte lengths add up. -/
@[simp] theorem byteLength_append (cs ds : List Char) :
    byteLength (cs ++ ds) = byteLength cs + byteLength ds := by
  induction cs with
  | nil => simp [byteLength]
  | cons c cs ih => simp [byteLength, ih, Nat.add_assoc]

end RouteCompiler.Text
