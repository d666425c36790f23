import RouteCompiler.Text.Slice

/-!
# Instants

An instant is a date and a time of day at offset zero.  It is written with four
digits for a year from 0 to 9999 and a sign for any other, and with the fewest
of 0, 3, 6 or 9 digits of a fraction that are exact.  Reading is liberal: any
offset below a day, short fields, blanks between the parts, and a blank or a
small letter where the date ends.
-/

namespace RouteCompiler

open RouteCompiler.Text

/-- Whether a year of the proleptic Gregorian calendar is a leap year. -/
def isLeapYear (year : Int) : Bool :=
  year % 4 == 0 && (year % 100 != 0 || year % 400 == 0)

/-- The number of days of a month. -/
def daysInMonth (year : Int) (month : Nat) : Nat :=
  if month = 2 then (if isLeapYear year then 29 else 28)
  else if month = 4 ∨ month = 6 ∨ month = 9 ∨ month = 11 then 30
  else 31

/-- A day of the calendar, in the years that can be represented. -/
structure Date where
  year : Int
  month : Nat
  day : Nat
  year_ge : -262143 ≤ year
  year_le : year ≤ 262142
  month_pos : 1 ≤ month
  month_le : month ≤ 12
  day_pos : 1 ≤ day
  day_le : day ≤ daysInMonth year month
  deriving DecidableEq

namespace Date

/-- The date of three numbers, if there is one. -/
def of? (year : Int) (month day : Nat) : Option Date :=
  if h : (-262143 ≤ year ∧ year ≤ 262142) ∧ (1 ≤ month ∧ month ≤ 12) ∧
      1 ≤ day ∧ day ≤ daysInMonth year month then
    some ⟨year, month, day, h.1.1, h.1.2, h.2.1.1, h.2.1.2, h.2.2.1, h.2.2.2⟩
  else none

/-- The next day. -/
def next? (d : Date) : Option Date :=
  if d.day < daysInMonth d.year d.month then of? d.year d.month (d.day + 1)
  else if d.month < 12 then of? d.year (d.month + 1) 1
  else of? (d.year + 1) 1 1

/-- The day before. -/
def previous? (d : Date) : Option Date :=
  if 1 < d.day then of? d.year d.month (d.day - 1)
  else if 1 < d.month then of? d.year (d.month - 1) (daysInMonth d.year (d.month - 1))
  else of? (d.year - 1) 12 31

end Date

/-- A moment: a date and a time of day at offset zero.  The second 60 is a leap
second. -/
structure Instant where
  date : Date
  hour : Nat
  minute : Nat
  second : Nat
  nanosecond : Nat
  hour_lt : hour < 24
  minute_lt : minute < 60
  second_le : second ≤ 60
  nanosecond_lt : nanosecond < 1000000000
  deriving DecidableEq

namespace Instant

/-- The moment of a date and the numbers of a time, if there is one. -/
def of? (date : Date) (hour minute second nanosecond : Nat) : Option Instant :=
  if h : (hour < 24 ∧ minute < 60) ∧ second ≤ 60 ∧ nanosecond < 1000000000 then
    some ⟨date, hour, minute, second, nanosecond, h.1.1, h.1.2, h.2.1, h.2.2⟩
  else none

/-- The numbers of a moment, most significant first; moments are ordered as
these lists. -/
def fields (t : Instant) : List Int :=
  [t.date.year, t.date.month, t.date.day, t.hour, t.minute, t.second, t.nanosecond]

/-- Whether a moment comes before another. -/
def isBefore (s t : Instant) : Bool :=
  decide (s.fields < t.fields)

/-! ## Writing -/

/-- A number in decimal digits, with zeros in front up to a width. -/
def padded (width n : Nat) : List Char :=
  let digits := Nat.toDigits 10 n
  List.replicate (width - digits.length) '0' ++ digits

/-- A year: four digits, or a sign and at least four digits. -/
def renderYear (year : Int) : List Char :=
  if 0 ≤ year ∧ year ≤ 9999 then padded 4 year.toNat
  else (if year < 0 then '-' else '+') :: padded 4 year.natAbs

/-- The fraction of a second, in the fewest of 0, 3, 6 or 9 digits. -/
def renderFraction (nanosecond : Nat) : List Char :=
  if nanosecond = 0 then []
  else if nanosecond % 1000000 = 0 then '.' :: padded 3 (nanosecond / 1000000)
  else if nanosecond % 1000 = 0 then '.' :: padded 6 (nanosecond / 1000)
  else '.' :: padded 9 nanosecond

/-- Date and time without an offset. -/
def renderLocal (t : Instant) : List Char :=
  renderYear t.date.year ++ '-' :: padded 2 t.date.month ++ '-' :: padded 2 t.date.day ++
    'T' :: padded 2 t.hour ++ ':' :: padded 2 t.minute ++ ':' :: padded 2 t.second ++
    renderFraction t.nanosecond

/-- The text of a moment, with the letter for offset zero. -/
def toText (t : Instant) : String :=
  String.ofList (renderLocal t ++ ['Z'])

/-- The text of a moment, with offset zero in digits. -/
def toTextWithOffset (t : Instant) : String :=
  String.ofList (renderLocal t ++ "+00:00".toList)

/-! ## Reading -/

/-- The text behind its leading white space. -/
def skipSpace (cs : List Char) : List Char :=
  cs.dropWhile isWhitespace

/-- The number that decimal digits spell. -/
def decimalValue (digits : List Char) : Nat :=
  digits.foldl (fun n c => n * 10 + (c.toNat - 48)) 0

/-- A number of at least one digit; `width` bounds the digits that are read. -/
def readNumber (width : Nat) (cs : List Char) : Option (Nat × List Char) :=
  let digits := (cs.take width).takeWhile Char.isDigit
  if digits.isEmpty then none
  else some (decimalValue digits, cs.drop digits.length)

/-- A year: up to four digits, or a sign and any number of digits. -/
def readYear (cs : List Char) : Option (Int × List Char) :=
  match cs with
  | '-' :: rest => (readNumber rest.length rest).map fun (n, rest) => (-(n : Int), rest)
  | '+' :: rest => (readNumber rest.length rest).map fun (n, rest) => ((n : Int), rest)
  | cs => (readNumber 4 cs).map fun (n, rest) => ((n : Int), rest)

/-- A separator behind white space. -/
def readSeparator (separator : Char) (cs : List Char) : Option (List Char) :=
  match skipSpace cs with
  | c :: rest => if c = separator then some rest else none
  | [] => none

/-- A separator and a number of up to two digits. -/
def readPart (separator : Char) (cs : List Char) : Option (Nat × List Char) :=
  (readSeparator separator cs).bind fun rest => readNumber 2 (skipSpace rest)

/-- The fraction of a second in nanoseconds; digits beyond the ninth are read
and dropped. -/
def readFraction (cs : List Char) : Option (Nat × List Char) :=
  match cs with
  | '.' :: rest =>
      let digits := rest.takeWhile Char.isDigit
      if digits.isEmpty then none
      else
        let kept := digits.take 9
        some (decimalValue kept * Nat.pow 10 (9 - kept.length), rest.dropWhile Char.isDigit)
  | cs => some (0, cs)

/-- Two digits as a number. -/
def readTwo : List Char → Option (Nat × List Char)
  | a :: b :: rest =>
      if a.isDigit && b.isDigit then some (decimalValue [a, b], rest) else none
  | _ => none

/-- An offset in minutes: the letter or the word for offset zero, or a sign,
hours and minutes. -/
def readOffset (cs : List Char) : Option (Int × List Char) :=
  match cs with
  | 'Z' :: rest => some (0, rest)
  | 'z' :: rest => some (0, rest)
  | cs =>
      if (cs.take 3).map Char.toUpper = "UTC".toList then some (0, cs.drop 3)
      else
        match cs with
        | [] => none
        | sign :: rest => do
            let negative ←
              if sign = '+' then some false
              else if sign = '-' ∨ sign = '\u2212' then some true
              else none
            let (hours, rest) ← readTwo rest
            let (minutes, rest) ← readTwo (rest.dropWhile fun c => c == ':' || isWhitespace c)
            if minutes < 60 ∧ hours < 24 then
              let total : Int := hours * 60 + minutes
              some (if negative then -total else total, rest)
            else none

/-- The moment that a time at an offset, in minutes below a day, denotes. -/
def atOffset? (date : Date) (hour minute second nanosecond : Nat) (offset : Int) :
    Option Instant := do
  let _ ← of? date hour minute second nanosecond
  let minutes : Int := hour * 60 + minute - offset
  let (date, minutes) ←
    if minutes < 0 then date.previous?.map fun d => (d, minutes + 1440)
    else if 1440 ≤ minutes then date.next?.map fun d => (d, minutes - 1440)
    else some (date, minutes)
  of? date (minutes.toNat / 60) (minutes.toNat % 60) second nanosecond

/-- Read a moment. -/
def parse? (text : String) : Option Instant := do
  let (year, rest) ← readYear (skipSpace text.toList)
  let (month, rest) ← readPart '-' rest
  let (day, rest) ← readPart '-' rest
  let rest ← match rest with
    | 'T' :: rest => some rest
    | 't' :: rest => some rest
    | ' ' :: rest => some rest
    | _ => none
  let (hour, rest) ← readNumber 2 (skipSpace rest)
  let (minute, rest) ← readPart ':' rest
  let (second, rest) ← readPart ':' rest
  let (nanosecond, rest) ← readFraction rest
  let (offset, rest) ← readOffset (skipSpace rest)
  let date ← Date.of? year month day
  if (skipSpace rest).isEmpty then atOffset? date hour minute second nanosecond offset
  else none

end Instant

end RouteCompiler
