import RouteCompiler.Json.Printer
import RouteCompiler.Json.Reader
import RouteCompiler.Proofs.Datum.Lawful
import RouteCompiler.Text.Slice

/-!
# Reading what was written

What is written of a printable datum is read as that datum, in both layouts.  The reader works on
the text from the left, so every statement here has a rest behind what was written.  Only numbers
need to know something of it: they end where nothing follows that they could go on with.

Main definitions:

- `Json.EndsNumber`: a text that no number goes on with.
- `Json.IsReadBack`: a datum that is read from what is written of it, whatever follows.

Main results:

- Theorem `Json.readText_quote`: a quoted text is read as the text.
- Theorem `Json.isReadBack`: every printable datum is read back.
- Theorems `Json.parse_pretty` and `Json.parse_compact`: so are whole texts.
-/

namespace RouteCompiler.Json

/-! ## Quoted texts -/

/-- Four hexadecimal digits spell the control character they were written for. -/
theorem hexUnit_hexDigit : ∀ n < 32, hexUnit? (hexDigit (n / 4096 % 16)) (hexDigit (n / 256 % 16))
    (hexDigit (n / 16 % 16)) (hexDigit (n % 16)) = some n := by
  decide

/-- A control character is no half of a pair, so it stands for itself in front of any piece. -/
theorem joinPieces_unit {c : Char} (h : c.toNat < 32) (pieces : List Piece) :
    joinPieces (.unit c.toNat :: pieces) = (joinPieces pieces).map (c :: ·) := by
  have hhigh : isHighHalf c.toNat = false := by simp [isHighHalf]; omega
  have hlow : isLowHalf c.toNat = false := by simp [isLowHalf]; omega
  cases pieces with
  | nil => simp [joinPieces, hhigh, hlow]
  | cons piece pieces => cases piece <;> simp [joinPieces, hhigh, hlow]

/-- A character between quotes is read as one piece, which denotes that character. -/
theorem readPieces_quoteChar (c : Char) : ∃ piece : Piece,
    (∀ rest, readPieces (quoteChar c ++ rest) =
      (readPieces rest).map fun q => (piece :: q.1, q.2)) ∧
    ∀ pieces, joinPieces (piece :: pieces) = (joinPieces pieces).map (c :: ·) := by
  unfold quoteChar
  split
  case h_8 hquote hslash _ _ _ _ _ =>
    by_cases hcontrol : c.toNat < 32
    · refine ⟨.unit c.toNat, fun rest => ?_, joinPieces_unit hcontrol⟩
      simp [hcontrol, escapeUnit, readPieces, hexUnit_hexDigit c.toNat hcontrol]
    · refine ⟨.char c, fun rest => ?_, fun _ => rfl⟩
      rw [if_neg hcontrol, List.singleton_append, readPieces, if_neg hcontrol]
      all_goals simp_all
  all_goals exact ⟨.char _, fun _ => rfl, fun _ => rfl⟩

/-- The characters of a text are read as pieces, which denote them. -/
theorem readPieces_flatMap_quoteChar (cs rest : List Char) : ∃ pieces,
    readPieces (cs.flatMap quoteChar ++ '"' :: rest) = some (pieces, rest) ∧
      joinPieces pieces = some cs := by
  induction cs with
  | nil => exact ⟨[], rfl, rfl⟩
  | cons c cs ih =>
      obtain ⟨pieces, hread, hjoin⟩ := ih
      obtain ⟨piece, hpiece, hdenotes⟩ := readPieces_quoteChar c
      refine ⟨piece :: pieces, ?_, by rw [hdenotes, hjoin, Option.map_some]⟩
      rw [List.flatMap_cons, List.append_assoc, hpiece, hread, Option.map_some]

/-- A text is read from behind its opening quote. -/
theorem readText_quote (text : String) (rest : List Char) :
    readText (text.toList.flatMap quoteChar ++ '"' :: rest) = some (some text, rest) := by
  obtain ⟨pieces, hread, hjoin⟩ := readPieces_flatMap_quoteChar text.toList rest
  rw [readText, hread, Option.map_some, hjoin, Option.map_some, String.ofList_toList]

theorem quoteText_some (text : String) (rest : List Char) :
    quoteText (some text) ++ rest = '"' :: (text.toList.flatMap quoteChar ++ '"' :: rest) := by
  simp [quoteText, quote]

/-! ## Numbers -/

/-- A text that no number goes on with. -/
def EndsNumber (rest : List Char) : Prop :=
  ∀ c ∈ rest.head?, c.isDigit = false ∧ c ≠ '.' ∧ c ≠ 'e' ∧ c ≠ 'E'

theorem toDigits_eq_cons (n : Nat) : ∃ c cs, Nat.toDigits 10 n = c :: cs ∧ c.isDigit = true := by
  obtain ⟨c, cs, htext⟩ := List.exists_cons_of_ne_nil (Nat.toDigits_ne_nil (b := 10) (n := n))
  have hmem : c ∈ Nat.toDigits 10 n := htext ▸ List.mem_cons_self
  exact ⟨c, cs, htext, Nat.isDigit_of_mem_toDigits (by decide) (by decide) hmem⟩

/-- A number in front of others does not start with a zero, unless it is zero. -/
theorem head_toDigits_ne_zero {n : Nat} (h : 0 < n) : (Nat.toDigits 10 n).head? ≠ some '0' := by
  have hdigit : ∀ n < 10, 0 < n → Nat.digitChar n ≠ '0' := by decide
  induction n using Nat.strongRecOn with
  | ind n ih =>
      rw [Nat.toDigits_eq_if (by decide)]
      split
      case isTrue hsmall =>
        exact fun hzero => hdigit n hsmall h (Option.some.inj hzero)
      case isFalse hlarge =>
        have hne : Nat.toDigits 10 (n / 10) ≠ [] := Nat.toDigits_ne_nil
        rw [List.head?_append_of_ne_nil _ hne]
        exact ih (n / 10) (by omega) (by omega)

/-- Digits are read up to where they end. -/
theorem readDigits_append {digits rest : List Char} (hdigits : ∀ c ∈ digits, c.isDigit = true)
    (hne : digits ≠ []) (hrest : EndsNumber rest) :
    readDigits (digits ++ rest) = some (digits, rest) := by
  have hend : ∀ c ∈ rest.head?, c.isDigit = false := fun c hc => (hrest c hc).1
  rw [readDigits, Text.takeWhile_append_of_head hdigits hend,
    Text.dropWhile_append_of_head hdigits hend]
  exact if_neg (by rwa [List.isEmpty_iff])

/-- The digits of a number are its whole part. -/
theorem readWhole_toDigits (n : Nat) {rest : List Char} (hrest : EndsNumber rest) :
    readWhole (Nat.toDigits 10 n ++ rest) = some (Nat.toDigits 10 n, rest) := by
  have hdigits (c : Char) (hc : c ∈ Nat.toDigits 10 n) : c.isDigit = true :=
    Nat.isDigit_of_mem_toDigits (by decide) (by decide) hc
  have hread := readDigits_append hdigits Nat.toDigits_ne_nil hrest
  rcases Nat.eq_zero_or_pos n with rfl | hpos
  · cases rest with
    | nil => rfl
    | cons c rest => simp [readWhole, (hrest c rfl).1]
  · have hhead := head_toDigits_ne_zero hpos
    rw [readWhole]
    · exact hread
    · rintro rest' hzero
      cases htext : Nat.toDigits 10 n with
      | nil => exact Nat.toDigits_ne_nil htext
      | cons c cs =>
          rw [htext] at hzero hhead
          exact hhead (by simpa using (List.cons.inj hzero).1)

theorem readFraction_of_endsNumber {rest : List Char} (h : EndsNumber rest) :
    readFraction rest = some ([], rest) := by
  rw [readFraction]
  rintro rest' rfl
  exact (h '.' rfl).2.1 rfl

theorem readExponent_of_endsNumber {rest : List Char} (h : EndsNumber rest) :
    readExponent rest = some ([], rest) := by
  cases rest with
  | nil => rfl
  | cons c rest =>
      have hc : ¬(c = 'e' ∨ c = 'E') := not_or.mpr (h c rfl).2.2
      unfold readExponent
      exact if_neg hc

/-- A count is read as the datum of that count. -/
theorem readNumber_toDigits (n : Nat) {rest : List Char} (hrest : EndsNumber rest) :
    readNumber (Nat.toDigits 10 n ++ rest) = some (.ofNat n, rest) := by
  have hsign (rest' : List Char) : Nat.toDigits 10 n ++ rest ≠ '-' :: rest' := by
    obtain ⟨c, cs, htext, hc⟩ := toDigits_eq_cons n
    rw [htext]
    intro hminus
    rw [(List.cons.inj hminus).1] at hc
    exact absurd hc (by decide)
  have hspelled : String.ofList (Nat.toDigits 10 n) = toString n := by
    rw [Nat.toString_eq_repr, ← Nat.toList_repr, String.ofList_toList]
  simp [readNumber, readWhole_toDigits n hrest, readFraction_of_endsNumber hrest,
    readExponent_of_endsNumber hrest, Datum.ofNat, hspelled]

/-! ## Blanks -/

theorem skipBlanks_newline (layout : Layout) (cs : List Char) :
    skipBlanks (layout.newline ++ cs) = skipBlanks cs := by
  cases layout with
  | compact => rfl
  | lines depth =>
      have hblank (c : Char) (hc : c ∈ '\n' :: List.replicate (2 * depth) ' ') :
          isBlank c = true := by
        rcases List.mem_cons.mp hc with rfl | hc
        · rfl
        · rw [List.eq_of_mem_replicate hc]; rfl
      exact List.dropWhile_append_of_pos hblank

theorem skipBlanks_of_not_isBlank {c : Char} (h : isBlank c = false) (cs : List Char) :
    skipBlanks (c :: cs) = c :: cs :=
  List.dropWhile_cons_of_neg (by simp [h])

theorem readValue_newline (steps : Nat) (layout : Layout) (cs : List Char) :
    readValue steps (layout.newline ++ cs) = readValue steps cs := by
  cases steps with
  | zero => rfl
  | succ steps => simp only [readValue, skipBlanks_newline]

theorem readValue_blank (steps : Nat) (cs : List Char) :
    readValue steps (' ' :: cs) = readValue steps cs := by
  cases steps with
  | zero => rfl
  | succ steps => rfl

theorem readItems_newline (steps : Nat) (layout : Layout) (cs : List Char) :
    readItems steps (layout.newline ++ cs) = readItems steps cs := by
  cases steps with
  | zero => rfl
  | succ steps => simp only [readItems, readValue_newline]

theorem readMembers_newline (steps : Nat) (layout : Layout) (cs : List Char) :
    readMembers steps (layout.newline ++ cs) = readMembers steps cs := by
  cases steps with
  | zero => rfl
  | succ steps => simp only [readMembers, skipBlanks_newline]

/-! ## Values -/

open Datum (IsPrintable)

variable {d : Datum} {layout closing : Layout} {rest : List Char} {steps : Nat}

/-- What is written of a printable datum starts with a character that is no blank and closes
nothing. -/
theorem render_eq_cons (h : d.IsPrintable) (layout : Layout) :
    ∃ c cs, render layout d = c :: cs ∧ isBlank c = false ∧ c ≠ ']' := by
  cases h with
  | null => exact ⟨'n', _, rfl, rfl, by decide⟩
  | bool value => cases value <;> exact ⟨_, _, rfl, rfl, by decide⟩
  | count n =>
      obtain ⟨c, cs, htext, hc⟩ := toDigits_eq_cons n
      refine ⟨c, cs, Nat.toList_repr.trans htext, ?_, ?_⟩
      · rw [Bool.eq_false_iff]
        intro hblank
        simp only [isBlank, Bool.or_eq_true, beq_iff_eq] at hblank
        rcases hblank with ((rfl | rfl) | rfl) | rfl <;> exact absurd hc (by decide)
      · rintro rfl
        exact absurd hc (by decide)
  | string text => exact ⟨'"', _, rfl, rfl, by decide⟩
  | @list items hitems =>
      cases items with
      | nil => exact ⟨'[', _, rfl, rfl, by decide⟩
      | cons item items => exact ⟨'[', _, rfl, rfl, by decide⟩
  | @record members hnames hvalues =>
      cases members with
      | nil => exact ⟨'{', _, rfl, rfl, by decide⟩
      | cons m members => exact ⟨'{', _, rfl, rfl, by decide⟩

/-- A datum is read from what is written of it, whatever follows, in as many steps as twice the
characters. -/
def IsReadBack (d : Datum) : Prop :=
  ∀ (layout : Layout) (steps : Nat) (rest : List Char), EndsNumber rest →
    2 * (render layout d).length ≤ steps →
      readValue steps (render layout d ++ rest) = some (d, rest)

/-- Where a digit stands, a number is read. -/
theorem readValue_of_isDigit {c : Char} (hc : c.isDigit = true) (cs : List Char) :
    readValue (steps + 1) (c :: cs) = readNumber (c :: cs) := by
  have hne (e : Char) (he : e.isDigit = false) : c ≠ e := by
    rintro rfl
    simp [hc] at he
  have hblank : isBlank c = false := by simp [isBlank, hne]
  rw [readValue, skipBlanks_of_not_isBlank hblank]
  simp [hne]

/-- Every value is at least one character long, so there is a step in which it is read. -/
theorem isReadBack_of_succ (h : d.IsPrintable)
    (hread : ∀ layout steps rest, EndsNumber rest → 2 * (render layout d).length ≤ steps + 1 →
      readValue (steps + 1) (render layout d ++ rest) = some (d, rest)) : IsReadBack d := by
  intro layout steps rest hrest hsteps
  cases steps with
  | zero =>
      obtain ⟨c, cs, hrender, -⟩ := render_eq_cons h layout
      rw [hrender, List.length_cons] at hsteps
      omega
  | succ steps => exact hread layout steps rest hrest hsteps

theorem isReadBack_ofNat (n : Nat) : IsReadBack (.ofNat n) := by
  refine isReadBack_of_succ (.count n) fun layout steps rest hrest _ => ?_
  have htext : render layout (.ofNat n) = Nat.toDigits 10 n := Nat.toList_repr
  obtain ⟨c, cs, hdigits, hc⟩ := toDigits_eq_cons n
  rw [htext, ← readNumber_toDigits n hrest, hdigits, List.cons_append, readValue_of_isDigit hc]

theorem isReadBack_ofString (text : String) : IsReadBack (.ofString text) := by
  refine isReadBack_of_succ (.string text) fun layout steps rest _ _ => ?_
  change readValue (steps + 1) (quoteText (some text) ++ rest) = _
  rw [quoteText_some]
  change (readText _).map _ = _
  rw [readText_quote]
  rfl

/-! ## Items and members -/

/-- Nothing that follows a value inside brackets goes on with a number. -/
theorem endsNumber_newline (c : Char) (hc : c = ']' ∨ c = '}') (layout : Layout)
    (rest : List Char) : EndsNumber (layout.newline ++ c :: rest) := by
  intro e he
  cases layout with
  | compact =>
      obtain rfl : c = e := Option.some.inj he
      rcases hc with rfl | rfl <;> decide
  | lines depth =>
      obtain rfl : '\n' = e := Option.some.inj he
      decide

theorem endsNumber_comma (rest : List Char) : EndsNumber (',' :: rest) := by
  intro e he
  obtain rfl : ',' = e := Option.some.inj he
  decide

theorem renderItems_cons_cons (layout : Layout) (item next : Datum) (items : List Datum) :
    renderItems layout (item :: next :: items) =
      layout.newline ++ render layout item ++ ',' :: renderItems layout (next :: items) :=
  rfl

theorem renderMembers_cons_cons (layout : Layout) (name : Option String) (value : Datum)
    (next : Option String × Datum) (members : List (Option String × Datum)) :
    renderMembers layout ((name, value) :: next :: members) =
      layout.newline ++ quoteText name ++ layout.colon ++ render layout value ++
        ',' :: renderMembers layout (next :: members) :=
  rfl

/-- Inside a bracket the first item shows that the list is not empty. -/
theorem readValue_items {item : Datum} {items : List Datum} (hitem : item.IsPrintable)
    {result : List Datum × List Char}
    (hread : readItems steps (renderItems layout (item :: items) ++ rest) = some result) :
    readValue (steps + 1) ('[' :: (renderItems layout (item :: items) ++ rest)) =
      some (.list result.1, result.2) := by
  obtain ⟨c, cs, hrender, hblank, hclosing⟩ := render_eq_cons hitem layout
  obtain ⟨behind, hitems⟩ : ∃ behind,
      renderItems layout (item :: items) ++ rest = layout.newline ++ c :: behind := by
    cases items with
    | nil => exact ⟨cs ++ rest, by simp [renderItems, hrender]⟩
    | cons next items => exact ⟨_, by simp [renderItems_cons_cons, hrender]; rfl⟩
  rw [hitems, readItems_newline] at hread
  rw [hitems, readValue, skipBlanks_of_not_isBlank rfl]
  simp only [skipBlanks_newline, skipBlanks_of_not_isBlank hblank]
  simp [hclosing, hread]

/-- Inside a brace the name of the first member shows that the record is not empty. -/
theorem readValue_members {name : Option String} {value : Datum}
    {members : List (Option String × Datum)} {result : List (Option String × Datum) × List Char}
    (hread : readMembers steps (renderMembers layout ((name, value) :: members) ++ rest) =
      some result) :
    readValue (steps + 1) ('{' :: (renderMembers layout ((name, value) :: members) ++ rest)) =
      some (.record result.1, result.2) := by
  obtain ⟨behind, hmembers⟩ : ∃ behind,
      renderMembers layout ((name, value) :: members) ++ rest =
        layout.newline ++ '"' :: behind := by
    cases members with
    | nil => exact ⟨_, by simp [renderMembers, quoteText, quote]; rfl⟩
    | cons next members => exact ⟨_, by simp [renderMembers_cons_cons, quoteText, quote]; rfl⟩
  have hquote : isBlank '"' = false := rfl
  rw [hmembers, readMembers_newline] at hread
  rw [hmembers, readValue, skipBlanks_of_not_isBlank rfl]
  simp only [skipBlanks_newline, skipBlanks_of_not_isBlank hquote]
  change (readMembers steps _).map _ = _
  rw [hread, Option.map_some]

/-- Items that are read back one by one are read as a list, up to its closing bracket. -/
theorem readItems_renderItems {items : List Datum} (hne : items ≠ [])
    (hitems : ∀ d ∈ items, IsReadBack d)
    (hsteps : 2 * (renderItems layout items).length + 1 ≤ steps) :
    readItems steps (renderItems layout items ++ (closing.newline ++ ']' :: rest)) =
      some (items, rest) := by
  induction items generalizing steps with
  | nil => exact absurd rfl hne
  | cons item items ih =>
      obtain ⟨steps, rfl⟩ := Nat.exists_eq_succ_of_ne_zero (n := steps) (by omega)
      have hitem := hitems item List.mem_cons_self layout steps
      cases items with
      | nil =>
          simp only [renderItems, List.length_append] at hsteps
          have hread := hitem _ (endsNumber_newline ']' (.inl rfl) closing rest) (by omega)
          rw [renderItems, List.append_assoc, readItems_newline, readItems, hread]
          dsimp only
          rw [skipBlanks_newline, skipBlanks_of_not_isBlank rfl]
          rfl
      | cons next items =>
          rw [renderItems_cons_cons] at hsteps
          simp only [List.length_append, List.length_cons] at hsteps
          have hread := hitem _ (endsNumber_comma (renderItems layout (next :: items) ++
            (closing.newline ++ ']' :: rest))) (by omega)
          have hleft : 2 * (renderItems layout (next :: items)).length + 1 ≤ steps := by omega
          have hmore := ih (List.cons_ne_nil next items)
            (fun d hd => hitems d (List.mem_cons_of_mem item hd)) hleft
          rw [renderItems_cons_cons, List.append_assoc, List.append_assoc, readItems_newline,
            readItems, List.cons_append, hread]
          dsimp only
          rw [skipBlanks_of_not_isBlank rfl]
          change (readItems steps _).map _ = _
          rw [hmore, Option.map_some]

/-- One member is read: its name, its value, and then what follows decides. -/
theorem readMembers_cons {value : Datum} (text : String) (hvalue : IsReadBack value)
    (hrest : EndsNumber rest) (hsteps : 2 * (render layout value).length ≤ steps)
    (more : List Char) :
    (skipBlanks rest = '}' :: more →
      readMembers (steps + 1) (layout.newline ++ quoteText (some text) ++ layout.colon ++
        render layout value ++ rest) = some ([(some text, value)], more)) ∧
    (skipBlanks rest = ',' :: more →
      readMembers (steps + 1) (layout.newline ++ quoteText (some text) ++ layout.colon ++
        render layout value ++ rest) =
          (readMembers steps more).map fun read => ((some text, value) :: read.1, read.2)) := by
  have hread := hvalue layout steps rest hrest hsteps
  have hcolon : skipBlanks (layout.colon ++ (render layout value ++ rest)) =
      ':' :: (layout.colon.tail ++ (render layout value ++ rest)) := by cases layout <;> rfl
  have hbehind : readValue steps (layout.colon.tail ++ (render layout value ++ rest)) =
      some (value, rest) := by
    cases layout with
    | compact => exact hread
    | lines depth => exact (readValue_blank steps _).trans hread
  simp only [List.append_assoc, readMembers_newline]
  rw [quoteText_some, readMembers, skipBlanks_of_not_isBlank rfl]
  simp only [readText_quote, hcolon, hbehind]
  exact ⟨fun hmore => by simp only [hmore], fun hmore => by simp only [hmore]⟩

/-- Members whose values are read back one by one are read as members, up to the closing brace. -/
theorem readMembers_renderMembers {members : List (Option String × Datum)} (hne : members ≠ [])
    (hnames : ∀ m ∈ members, m.1.isSome = true) (hvalues : ∀ m ∈ members, IsReadBack m.2)
    (hsteps : 2 * (renderMembers layout members).length + 1 ≤ steps) :
    readMembers steps (renderMembers layout members ++ (closing.newline ++ '}' :: rest)) =
      some (members, rest) := by
  induction members generalizing steps with
  | nil => exact absurd rfl hne
  | cons m members ih =>
      obtain ⟨steps, rfl⟩ := Nat.exists_eq_succ_of_ne_zero (n := steps) (by omega)
      obtain ⟨name, value⟩ := m
      obtain ⟨text, rfl⟩ := Option.isSome_iff_exists.mp (hnames _ List.mem_cons_self)
      have hvalue : IsReadBack value := hvalues _ List.mem_cons_self
      cases members with
      | nil =>
          simp only [renderMembers, List.length_append] at hsteps
          rw [renderMembers]
          refine (readMembers_cons text hvalue (endsNumber_newline '}' (.inr rfl) closing rest)
            (by omega) rest).1 ?_
          rw [skipBlanks_newline, skipBlanks_of_not_isBlank rfl]
      | cons next members =>
          rw [renderMembers_cons_cons] at hsteps
          simp only [List.length_append, List.length_cons] at hsteps
          have hleft : 2 * (renderMembers layout (next :: members)).length + 1 ≤ steps := by omega
          have hmore := ih (List.cons_ne_nil next members)
            (fun m hm => hnames m (List.mem_cons_of_mem _ hm))
            (fun m hm => hvalues m (List.mem_cons_of_mem _ hm)) hleft
          have hroom : 2 * (render layout value).length ≤ steps := by omega
          have hcons := (readMembers_cons text hvalue
            (endsNumber_comma (renderMembers layout (next :: members) ++
              (closing.newline ++ '}' :: rest))) hroom _).2 (skipBlanks_of_not_isBlank rfl _)
          rw [renderMembers_cons_cons, List.append_assoc, List.cons_append, hcons, hmore,
            Option.map_some]

/-! ## Printable data -/

/-- Every printable datum is read back. -/
theorem isReadBack (h : d.IsPrintable) : IsReadBack d := by
  induction h with
  | null => exact isReadBack_of_succ .null fun _ _ _ _ _ => rfl
  | bool value => exact isReadBack_of_succ (.bool value) fun _ _ _ _ _ => by cases value <;> rfl
  | count n => exact isReadBack_ofNat n
  | string text => exact isReadBack_ofString text
  | @list items hitems ih =>
      refine isReadBack_of_succ (.list hitems) fun layout steps rest _ hsteps => ?_
      cases items with
      | nil => rfl
      | cons item items =>
          have htext : render layout (.list (item :: items)) ++ rest =
              '[' :: (renderItems layout.inner (item :: items) ++
                (layout.newline ++ ']' :: rest)) := by
            simp [render]
          have hlength : 2 * (renderItems layout.inner (item :: items)).length + 1 ≤ steps := by
            simp only [render, List.isEmpty_cons, Bool.false_eq_true, if_false, List.cons_append,
              List.length_cons, List.length_append] at hsteps
            omega
          rw [htext, readValue_items (hitems item List.mem_cons_self)
            (readItems_renderItems (List.cons_ne_nil item items) ih hlength)]
  | @record members hnames hvalues ih =>
      refine isReadBack_of_succ (.record hnames hvalues) fun layout steps rest _ hsteps => ?_
      cases members with
      | nil => rfl
      | cons m members =>
          have htext : render layout (.record (m :: members)) ++ rest =
              '{' :: (renderMembers layout.inner (m :: members) ++
                (layout.newline ++ '}' :: rest)) := by
            simp [render]
          have hlength : 2 * (renderMembers layout.inner (m :: members)).length + 1 ≤ steps := by
            simp only [render, List.isEmpty_cons, Bool.false_eq_true, if_false, List.cons_append,
              List.length_cons, List.length_append] at hsteps
            omega
          rw [htext, readValue_members
            (readMembers_renderMembers (List.cons_ne_nil m members) hnames ih hlength)]

/-- A whole text is read as the datum that was written. -/
theorem parse_render (h : d.IsPrintable) (layout : Layout) :
    parse (String.ofList (render layout d)) = some d := by
  have hends : EndsNumber [] := fun c hc => nomatch hc
  have hread := isReadBack h layout (2 * (render layout d).length + 2) [] hends (by omega)
  rw [List.append_nil] at hread
  simp [parse, hread, skipBlanks]

/-- What is laid out with one item per line is read again. -/
theorem parse_pretty (h : d.IsPrintable) : parse (pretty d) = some d :=
  parse_render h (.lines 0)

/-- What is written without any blank is read again. -/
theorem parse_compact (h : d.IsPrintable) : parse (compact d) = some d :=
  parse_render h .compact

end RouteCompiler.Json
