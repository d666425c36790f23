import Mathlib.Algebra.Group.Nat.Defs
import RouteCompiler.Model.Encoding
import RouteCompiler.Proofs.Datum.Lawful

/-!
# Reading moments that were written

A moment is written with as many digits as each of its numbers needs, and is read liberally: up to
so many digits of each, with blanks between the parts.  What was written is read again because the
digits of every part end where the reader expects them to, by their number or by the character
behind them.

Main results:

- Theorem `Instant.readNumber_append`: digits are read up to where they end.
- Theorem `Instant.readYear_renderYear`: a year is read again, with a sign or without.
- Theorem `Instant.readFraction_renderFraction`: no digit of a fraction is lost.
- Theorem `Instant.parse_toText`: a moment that was written is read again.
-/

namespace RouteCompiler.Instant

/-! ## Digits -/

variable {width n : Nat} {digits rest : List Char}

theorem decimalValue_eq_ofDigitChars (digits : List Char) :
    decimalValue digits = Nat.ofDigitChars 10 digits 0 := by
  simp only [decimalValue, Nat.ofDigitChars, Nat.mul_comm 10]
  rfl

/-- Zeros in front do not change a number. -/
theorem decimalValue_padded (width n : Nat) : decimalValue (padded width n) = n := by
  rw [decimalValue_eq_ofDigitChars, padded, Nat.ofDigitChars_append,
    Nat.ofDigitChars_replicate_zero, Nat.mul_zero, Nat.ofDigitChars_ten_toDigits]

theorem isDigit_of_mem_padded {c : Char} (h : c ∈ padded width n) : c.isDigit = true := by
  rcases List.mem_append.mp h with hzero | hdigit
  · rw [List.eq_of_mem_replicate hzero]
    rfl
  · exact Nat.isDigit_of_mem_toDigits (by decide) (by decide) hdigit

theorem padded_ne_nil (width n : Nat) : padded width n ≠ [] :=
  List.append_ne_nil_of_right_ne_nil _ Nat.toDigits_ne_nil

theorem length_padded (hwidth : 0 < width) (h : n < 10 ^ width) :
    (padded width n).length = width := by
  have hdigits : (Nat.toDigits 10 n).length ≤ width :=
    (Nat.length_toDigits_le_iff (by decide) hwidth).mpr h
  simp only [padded, List.length_append, List.length_replicate]
  omega

theorem isWhitespace_of_isDigit {c : Char} (h : c.isDigit = true) :
    Text.isWhitespace c = false := by
  have hbounds : 48 ≤ c.toNat ∧ c.toNat ≤ 57 := by
    simpa [Char.isDigit, UInt32.le_iff_toNat_le] using h
  simp only [Text.isWhitespace, Bool.or_eq_false_iff, Bool.and_eq_false_iff, beq_eq_false_iff_ne,
    decide_eq_false_iff_not]
  omega

/-- There is no white space to skip in front of a digit. -/
theorem skipSpace_append (hdigits : ∀ c ∈ digits, c.isDigit = true) (hne : digits ≠ []) :
    skipSpace (digits ++ rest) = digits ++ rest := by
  cases digits with
  | nil => exact absurd rfl hne
  | cons c digits =>
      have hc := isWhitespace_of_isDigit (hdigits c List.mem_cons_self)
      simp [skipSpace, hc]

/-- Digits are read up to where they end: no more are asked for, or none follows. -/
theorem readNumber_append (hdigits : ∀ c ∈ digits, c.isDigit = true) (hne : digits ≠ [])
    (hwidth : digits.length ≤ width)
    (hend : digits.length = width ∨ ∀ c ∈ rest.head?, c.isDigit = false) :
    readNumber width (digits ++ rest) = some (decimalValue digits, rest) := by
  have hstop : ∀ c ∈ (rest.take (width - digits.length)).head?, c.isDigit = false := by
    intro c hc
    rw [List.head?_take] at hc
    split at hc
    · cases hc
    next hleft =>
    exact hend.resolve_left (fun hfull => hleft (by simp [hfull])) c hc
  have htaken : ((digits ++ rest).take width).takeWhile Char.isDigit = digits := by
    rw [List.take_append, List.take_of_length_le hwidth,
      Text.takeWhile_append_of_head hdigits hstop]
  rw [readNumber]
  simp only [htaken]
  rw [if_neg (by rwa [List.isEmpty_iff]), List.drop_left]

/-! ## Parts -/

/-- A number of two digits is read. -/
theorem readNumber_padded_two (hn : n < 100) (rest : List Char) :
    readNumber 2 (skipSpace (padded 2 n ++ rest)) = some (n, rest) := by
  have hlength : (padded 2 n).length = 2 := length_padded (by decide) hn
  have hdigits (c : Char) (hc : c ∈ padded 2 n) : c.isDigit = true := isDigit_of_mem_padded hc
  rw [skipSpace_append hdigits (padded_ne_nil 2 n), readNumber_append hdigits (padded_ne_nil 2 n)
    (Nat.le_of_eq hlength) (.inl hlength), decimalValue_padded]

/-- So is one behind its separator. -/
theorem readPart_padded_two {separator : Char} (hseparator : Text.isWhitespace separator = false)
    (hn : n < 100) (rest : List Char) :
    readPart separator (separator :: (padded 2 n ++ rest)) = some (n, rest) := by
  have hskip : skipSpace (separator :: (padded 2 n ++ rest)) =
      separator :: (padded 2 n ++ rest) := by simp [skipSpace, hseparator]
  have hread : readSeparator separator (separator :: (padded 2 n ++ rest)) =
      some (padded 2 n ++ rest) := by simp [readSeparator, hskip]
  rw [readPart, hread, Option.bind_some, readNumber_padded_two hn]

/-- A year is read again, with a sign or without. -/
theorem readYear_renderYear (year : Int) (rest : List Char) :
    readYear (renderYear year ++ '-' :: rest) = some (year, '-' :: rest) := by
  have hdigits (n : Nat) : ∀ c ∈ padded 4 n, c.isDigit = true := fun c hc =>
    isDigit_of_mem_padded hc
  rw [renderYear]
  split
  case isTrue hfour =>
    have hlength : (padded 4 year.toNat).length = 4 :=
      length_padded (by decide) (by change year.toNat < 10000; omega)
    obtain ⟨c, cs, hpadded⟩ := List.exists_cons_of_ne_nil (padded_ne_nil 4 year.toNat)
    have hc : c.isDigit = true := hdigits year.toNat c (hpadded ▸ List.mem_cons_self)
    have hsign : c ≠ '-' ∧ c ≠ '+' := ⟨fun h => by simp [h] at hc, fun h => by simp [h] at hc⟩
    have hread : readYear (padded 4 year.toNat ++ '-' :: rest) =
        (readNumber 4 (padded 4 year.toNat ++ '-' :: rest)).map
          fun read => ((read.1 : Int), read.2) := by
      simp [hpadded, readYear, hsign]
    rw [hread, readNumber_append (hdigits _) (padded_ne_nil 4 _) (Nat.le_of_eq hlength)
      (.inl hlength), decimalValue_padded, Option.map_some]
    dsimp only
    rw [Int.toNat_of_nonneg hfour.1]
  case isFalse =>
    -- A signed year has any number of digits, so the minus sign behind them ends it.
    have hread : readNumber (padded 4 year.natAbs ++ '-' :: rest).length
        (padded 4 year.natAbs ++ '-' :: rest) = some (year.natAbs, '-' :: rest) := by
      rw [readNumber_append (hdigits _) (padded_ne_nil 4 _) (by simp) (.inr (by simp)),
        decimalValue_padded]
    rw [List.cons_append]
    split
    case isTrue hnegative =>
      rw [readYear, hread, Option.map_some]
      dsimp only
      rw [Int.ofNat_natAbs_of_nonpos (Int.le_of_lt hnegative), Int.neg_neg]
    case isFalse hpositive =>
      rw [readYear, hread, Option.map_some]
      dsimp only
      rw [Int.natAbs_of_nonneg (Int.not_lt.mp hpositive)]

/-- The digits of a fraction count what their number of places says. -/
theorem readFraction_padded (hpos : 0 < width) (hwidth : width ≤ 9) (hn : n < 10 ^ width)
    (hrest : ∀ c ∈ rest.head?, c.isDigit = false) :
    readFraction ('.' :: padded width n ++ rest) = some (n * 10 ^ (9 - width), rest) := by
  have hdigits : ∀ c ∈ padded width n, c.isDigit = true := fun c hc => isDigit_of_mem_padded hc
  have hlength : (padded width n).length = width := length_padded hpos hn
  have htaken : (padded width n ++ rest).takeWhile Char.isDigit = padded width n :=
    Text.takeWhile_append_of_head hdigits hrest
  have hleft : (padded width n ++ rest).dropWhile Char.isDigit = rest :=
    Text.dropWhile_append_of_head hdigits hrest
  have hkept : (padded width n).take 9 = padded width n := List.take_of_length_le (by omega)
  rw [List.cons_append, readFraction]
  simp only [htaken, hleft, hkept, hlength, decimalValue_padded]
  rw [if_neg (by simpa using padded_ne_nil width n)]
  rfl

/-- No digit of a fraction is lost. -/
theorem readFraction_renderFraction (hn : n < 1000000000)
    (hrest : ∀ c ∈ rest.head?, c.isDigit = false ∧ c ≠ '.') :
    readFraction (renderFraction n ++ rest) = some (n, rest) := by
  have hdigit : ∀ c ∈ rest.head?, c.isDigit = false := fun c hc => (hrest c hc).1
  rw [renderFraction]
  split
  case isTrue hzero =>
    rw [List.nil_append, readFraction, hzero]
    rintro rest' rfl
    exact (hrest '.' rfl).2 rfl
  case isFalse =>
    split
    case isTrue hmilli =>
      have hlt : n / 1000000 < 10 ^ 3 := by change n / 1000000 < 1000; omega
      rw [readFraction_padded (by decide) (by decide) hlt hdigit]
      change some (n / 1000000 * 1000000, rest) = _
      rw [Nat.div_mul_cancel (Nat.dvd_of_mod_eq_zero hmilli)]
    case isFalse =>
      split
      case isTrue hmicro =>
        have hlt : n / 1000 < 10 ^ 6 := by change n / 1000 < 1000000; omega
        rw [readFraction_padded (by decide) (by decide) hlt hdigit]
        change some (n / 1000 * 1000, rest) = _
        rw [Nat.div_mul_cancel (Nat.dvd_of_mod_eq_zero hmicro)]
      case isFalse =>
        rw [readFraction_padded (by decide) (by decide) hn hdigit]
        change some (n * 1, rest) = _
        rw [Nat.mul_one]

/-! ## Moments -/

theorem Date.of_self (d : Date) : Date.of? d.year d.month d.day = some d :=
  dif_pos ⟨⟨d.year_ge, d.year_le⟩, ⟨d.month_pos, d.month_le⟩, d.day_pos, d.day_le⟩

theorem of_self (t : Instant) : of? t.date t.hour t.minute t.second t.nanosecond = some t :=
  dif_pos ⟨⟨t.hour_lt, t.minute_lt⟩, t.second_le, t.nanosecond_lt⟩

/-- At offset zero a time denotes itself. -/
theorem atOffset_zero (t : Instant) :
    atOffset? t.date t.hour t.minute t.second t.nanosecond 0 = some t := by
  have hhour := t.hour_lt
  have hminute := t.minute_lt
  have hsameDay : ¬(t.hour * 60 + t.minute - 0 : Int) < 0 ∧
      ¬(1440 : Int) ≤ t.hour * 60 + t.minute - 0 := by omega
  have hfields : (t.hour * 60 + t.minute - 0 : Int).toNat / 60 = t.hour ∧
      (t.hour * 60 + t.minute - 0 : Int).toNat % 60 = t.minute := by omega
  rw [atOffset?, of_self]
  simp only [Option.bind_eq_bind, Option.bind_some, if_neg hsameDay.1, if_neg hsameDay.2,
    hfields.1, hfields.2, of_self]

theorem daysInMonth_le (year : Int) (month : Nat) : daysInMonth year month ≤ 31 := by
  unfold daysInMonth
  split
  · split <;> decide
  · split <;> decide

/-- There is no white space in front of a year. -/
theorem skipSpace_renderYear (year : Int) (rest : List Char) :
    skipSpace (renderYear year ++ rest) = renderYear year ++ rest := by
  rw [renderYear]
  split
  · exact skipSpace_append (fun c hc => isDigit_of_mem_padded hc) (padded_ne_nil 4 _)
  · split <;> rfl

/-- A moment that was written is read again. -/
theorem parse_toText (t : Instant) : parse? t.toText = some t := by
  have hmonth : t.date.month < 100 := Nat.lt_of_le_of_lt t.date.month_le (by decide)
  have hday : t.date.day < 100 :=
    Nat.lt_of_le_of_lt (Nat.le_trans t.date.day_le (daysInMonth_le _ _)) (by decide)
  have hhour : t.hour < 100 := Nat.lt_trans t.hour_lt (by decide)
  have hminute : t.minute < 100 := Nat.lt_trans t.minute_lt (by decide)
  have hsecond : t.second < 100 := Nat.lt_of_le_of_lt t.second_le (by decide)
  have htext : t.toText.toList = renderYear t.date.year ++ '-' :: (padded 2 t.date.month ++
      '-' :: (padded 2 t.date.day ++ 'T' :: (padded 2 t.hour ++ ':' :: (padded 2 t.minute ++
        ':' :: (padded 2 t.second ++ (renderFraction t.nanosecond ++ ['Z'])))))) := by
    simp [toText, renderLocal]
  have hminus : Text.isWhitespace '-' = false := by decide
  have hcolon : Text.isWhitespace ':' = false := by decide
  have hfraction : readFraction (renderFraction t.nanosecond ++ ['Z']) =
      some (t.nanosecond, ['Z']) :=
    readFraction_renderFraction t.nanosecond_lt (by simp)
  have hoffset : readOffset (skipSpace ['Z']) = some (0, []) := by decide
  simp only [parse?, htext, skipSpace_renderYear, readYear_renderYear,
    readPart_padded_two hminus hmonth, readPart_padded_two hminus hday,
    readNumber_padded_two hhour, readPart_padded_two hcolon hminute,
    readPart_padded_two hcolon hsecond, hfraction, hoffset, Date.of_self, Option.bind_eq_bind,
    Option.bind_some]
  exact atOffset_zero t

end RouteCompiler.Instant

namespace RouteCompiler

instance : LawfulCodec Instant where
  isPrintable_encode t := .string t.toText
  decode_encode t := by
    change (some t.toText).bind Instant.parse? = some t
    rw [Option.bind_some, Instant.parse_toText]

end RouteCompiler
