import Mathlib.Data.List.Nodup
import RouteCompiler.Datum.Codec

/-!
# Codecs that lose nothing

A record is written member by member, and members that say no more than their default are left
out.  It is read by the names of its members, and a member that is not there becomes its default.
So nothing is lost if names do not repeat, and if each member is left out only where it is its
default.  This module shows that for the general types, and reduces it for a record to its members.

Main definitions:

- `Datum.IsPrintable`: a datum that a text can show without loss.
- `LawfulCodec`: what is encoded is printable, and is decoded again.
- `Datum.written`: the members of a record that are written, by name.

Main results:

- Theorem `Datum.fields_ofMembers`: a record that was written is read as its written members.
- Theorem `Datum.Fields.optional_omitIf`: a member that is left out only where it is its default is
  read again.
-/

namespace RouteCompiler

namespace Datum

/-! ## Data that texts show -/

/-- A datum that a text can show without loss: quoted texts are texts, numbers are counts, and
unquoted scalars do not occur. -/
inductive IsPrintable : Datum → Prop
  | null : IsPrintable .null
  | bool (value : Bool) : IsPrintable (.bool value)
  | count (n : Nat) : IsPrintable (.ofNat n)
  | string (text : String) : IsPrintable (.ofString text)
  | list {items : List Datum} (hitems : ∀ d ∈ items, IsPrintable d) : IsPrintable (.list items)
  | record {members : List (Option String × Datum)} (hnames : ∀ m ∈ members, m.1.isSome = true)
      (hvalues : ∀ m ∈ members, IsPrintable m.2) : IsPrintable (.record members)

/-- A record is printable if the members that are written are. -/
theorem isPrintable_ofMembers {members : List Member}
    (h : ∀ m ∈ members, m.isWritten = true → m.value.IsPrintable) :
    (ofMembers members).IsPrintable := by
  refine .record (fun m hm => ?_) fun m hm => ?_
  all_goals obtain ⟨member, hmember, rfl⟩ := List.mem_map.mp hm
  · rfl
  · obtain ⟨hmem, hwritten⟩ := List.mem_filter.mp hmember
    exact h member hmem hwritten

/-- A printable datum says that there is nothing only where it is nothing. -/
theorem IsPrintable.isNothing {d : Datum} (h : d.IsPrintable) (hd : d ≠ .null) :
    d.isNothing? = some false := by
  cases h with
  | null => exact absurd rfl hd
  | bool | count | string | list | record => rfl

end Datum

/-! ## Lawful codecs -/

/-- What is encoded is decoded again, from a datum that a text can show. -/
class LawfulCodec (α : Type) [Codec α] : Prop where
  isPrintable_encode (a : α) : (encode a).IsPrintable
  decode_encode (a : α) : decode (encode a) = some a

export LawfulCodec (isPrintable_encode decode_encode)

/-! ## Lists of results -/

/-- Where each item of a list gives something, the list gives all that. -/
theorem mapM_eq_some_map {α β : Type} {f : α → Option β} {g : α → β} {l : List α}
    (h : ∀ a ∈ l, f a = some (g a)) : l.mapM f = some (l.map g) := by
  induction l with
  | nil => rfl
  | cons a l ih =>
      rw [List.mapM_cons, h a List.mem_cons_self, ih fun b hb => h b (List.mem_cons_of_mem a hb)]
      rfl

/-- What every item gives back after a change, the changed list gives back. -/
theorem mapM_map_eq_some {α β : Type} {f : β → Option α} {g : α → β} {l : List α}
    (h : ∀ a ∈ l, f (g a) = some a) : (l.map g).mapM f = some l := by
  have hall : l.mapM (f ∘ g) = some (l.map id) := mapM_eq_some_map h
  rw [List.mapM_map, hall, List.map_id]

/-! ## Scalars -/

namespace Datum

/-- Decimal digits spell the number whose digits they are. -/
theorem digitsValue_of_isDigit {cs : List Char} (hcs : cs ≠ [])
    (hdigits : ∀ c ∈ cs, c.isDigit = true) :
    digitsValue? 10 cs = some (Nat.ofDigitChars 10 cs 0) := by
  rw [digitsValue?, if_neg (by rwa [List.isEmpty_iff])]
  dsimp only
  rw [mapM_eq_some_map (g := fun c => c.toNat - '0'.toNat) fun c hc => ?_, Option.map_some,
    List.foldl_map]
  · simp only [Nat.ofDigitChars, Nat.mul_comm 10]
  · have hdigit : '0' ≤ c ∧ c ≤ '9' := by
      simpa [Char.isDigit, Char.le_def] using hdigits c hc
    have hle : c.toNat ≤ '9'.toNat := hdigit.2
    have hlt : c.toNat - 48 < 10 := Nat.lt_succ_of_le (Nat.sub_le_sub_right hle 48)
    simp only [if_pos hdigit, if_pos hlt]
    rfl

/-- The number of a count is that count, where 64 bits hold it. -/
theorem count_ofNat {n : Nat} (h : n < UInt64.size) : (ofNat n).count? = some n := by
  have hspelled : literalCount? (toString n) = some n := by
    rw [literalCount?, Nat.toString_eq_repr, Nat.toList_repr,
      digitsValue_of_isDigit Nat.toDigits_ne_nil fun c hc =>
        Nat.isDigit_of_mem_toDigits (by decide) (by decide) hc,
      Nat.ofDigitChars_ten_toDigits]
  change (literalCount? (toString n)).filter _ = some n
  rw [hspelled, Option.filter_some, if_pos (decide_eq_true h)]

end Datum

section General

variable {α : Type} [Codec α] [LawfulCodec α]

instance : LawfulCodec String where
  isPrintable_encode := .string
  decode_encode _ := rfl

instance : LawfulCodec UInt64 where
  isPrintable_encode n := .count n.toNat
  decode_encode n := by
    have hcount : (encode n : Datum).count? = some n.toNat := Datum.count_ofNat n.toNat_lt
    change (encode n : Datum).count?.map UInt64.ofNat = some n
    rw [hcount, Option.map_some, UInt64.ofNat_toNat]

instance : LawfulCodec (List α) where
  isPrintable_encode items := by
    refine .list fun d hd => ?_
    obtain ⟨a, -, rfl⟩ := List.mem_map.mp hd
    exact isPrintable_encode a
  decode_encode items := mapM_map_eq_some fun a _ => decode_encode a

/-- Something that is encoded is told from nothing, unless it is encoded as nothing. -/
theorem decode_encode_option (a : Option α) (h : ∀ a : α, encode a ≠ .null) :
    decode (encode a) = some a := by
  cases a with
  | none => rfl
  | some a =>
      change (encode a : Datum).isNothing?.bind _ = _
      rw [(isPrintable_encode a).isNothing (h a), Option.bind_some, if_neg Bool.false_ne_true]
      change (decode (encode a)).map some = some (some a)
      rw [decode_encode, Option.map_some]

theorem isPrintable_encode_option (a : Option α) : (encode a).IsPrintable := by
  cases a with
  | none => exact .null
  | some a => exact isPrintable_encode a

instance : LawfulCodec (Option String) where
  isPrintable_encode := isPrintable_encode_option
  decode_encode a := decode_encode_option a nofun

instance [Ord α] [Std.TransOrd α] : LawfulCodec (SortedSet α) where
  isPrintable_encode s := isPrintable_encode s.elements
  decode_encode s := by
    change (decode (encode s.elements) : Option (List α)).map .ofList = some s
    rw [decode_encode, Option.map_some, SortedSet.ofList_elements]

instance : LawfulCodec (SortedMap String α) where
  isPrintable_encode m := by
    refine .record (fun e he => ?_) fun e he => ?_
    all_goals obtain ⟨entry, -, rfl⟩ := List.mem_map.mp he
    · rfl
    · exact isPrintable_encode entry.2
  decode_encode m := by
    have hentries : (encode m : Datum).entries? =
        some (m.entries.map fun e => (e.1, encode e.2)) := by
      change List.mapM _ (List.map _ m.entries) = _
      rw [List.mapM_map]
      exact mapM_eq_some_map fun _ _ => rfl
    have hvalues : (m.entries.map fun e => (e.1, encode e.2)).mapM
        (fun e => (decode e.2 : Option α).map fun a => (e.1, a)) = some m.entries :=
      mapM_map_eq_some fun e _ => by rw [decode_encode, Option.map_some]
    change (encode m : Datum).entries?.bind _ = _
    rw [hentries, Option.bind_some]
    change Option.bind (List.mapM _ _) _ = _
    rw [hvalues, Option.bind_some, SortedMap.ofList_entries]
    rfl

end General

/-! ## Records -/

namespace Datum

namespace Member

-- The proofs are `(rfl)`, so that these equations rewrite: unfolding would leave the side
-- conditions below with members that no longer match.

@[simp] theorem name_always (name : String) (value : Datum) : (always name value).name = name :=
  (rfl)

@[simp] theorem name_omitIf (isLeftOut : Bool) (name : String) (value : Datum) :
    (omitIf isLeftOut name value).name = name :=
  (rfl)

@[simp] theorem value_always (name : String) (value : Datum) : (always name value).value = value :=
  (rfl)

@[simp] theorem value_omitIf (isLeftOut : Bool) (name : String) (value : Datum) :
    (omitIf isLeftOut name value).value = value :=
  (rfl)

end Member

/-- The members of a record that are written, by name. -/
def written (members : List Member) : Fields :=
  fun name => ((members.filter Member.isWritten).map fun m => (m.name, m.value)).lookup name

variable {name : String} {names : List String} {m : Member} {members : List Member}

theorem written_cons : written (m :: members) name =
    if m.isWritten ∧ m.name = name then some m.value else written members name := by
  by_cases hwritten : m.isWritten = true
  · by_cases hname : m.name = name
    · simp [written, hwritten, hname]
    · have hne : (name == m.name) = false := beq_false_of_ne (Ne.symm hname)
      simp [written, hwritten, hname, List.lookup_cons, hne]
  · simp [written, hwritten]

@[simp] theorem written_of_ne (h : m.name ≠ name) :
    written (m :: members) name = written members name := by
  rw [written_cons, if_neg fun hm => h hm.2]

/-- A name that no member has is not written. -/
theorem written_eq_none (h : ∀ m ∈ members, m.name ≠ name) : written members name = none := by
  induction members with
  | nil => rfl
  | cons m members ih =>
      rw [List.forall_mem_cons] at h
      rw [written_of_ne h.1, ih h.2]

@[simp] theorem written_always {value : Datum} :
    written (.always name value :: members) name = some value := by
  rw [written_cons, if_pos ⟨rfl, rfl⟩]
  rfl

@[simp] theorem written_omitIf {isLeftOut : Bool} {value : Datum}
    (h : ∀ m ∈ members, m.name ≠ name) :
    written (.omitIf isLeftOut name value :: members) name =
      if isLeftOut then none else some value := by
  rw [written_cons]
  cases isLeftOut with
  | false =>
      rw [if_pos ⟨rfl, rfl⟩]
      rfl
  | true =>
      rw [if_neg (fun hm => nomatch hm.1), written_eq_none h]
      rfl

/-- A record that was written is read as its written members, if no name repeats. -/
theorem fields_ofMembers (h : (members.map Member.name).Nodup) :
    (ofMembers members).fields? names = some (written members) := by
  have hall : ((members.filter Member.isWritten).map fun m => (some m.name, m.value)).mapM
      (fun m => m.1.map fun n => (n, m.2)) =
        some ((members.filter Member.isWritten).map fun m => (m.name, m.value)) := by
    rw [List.mapM_map]
    exact mapM_eq_some_map fun _ _ => rfl
  have hnodup : (((members.filter Member.isWritten).map fun m => (m.name, m.value)).map
      Prod.fst).Nodup := by
    rw [List.map_map]
    exact (List.filter_sublist.map _).nodup h
  rw [ofMembers, fields?]
  dsimp only
  rw [hall]
  exact if_pos (hnodup.filter _)

/-- What becomes of the written members becomes of a record whose members have the expected
names. -/
theorem bind_fields_ofMembers {β : Type} {read : Fields → Option β} {b : β}
    (hnames : members.map Member.name = names) (hnodup : names.Nodup)
    (h : read (written members) = some b) :
    ((ofMembers members).fields? names).bind read = some b := by
  rw [fields_ofMembers (hnames ▸ hnodup), Option.bind_some, h]

namespace Fields

variable {α : Type} [Codec α]

@[simp] theorem required_of_ne (h : m.name ≠ name) :
    (required (written (m :: members)) name : Option α) = required (written members) name := by
  rw [required, required, written_of_ne h]

@[simp] theorem optional_of_ne {default : α} (h : m.name ≠ name) :
    optional (written (m :: members)) name default = optional (written members) name default := by
  rw [optional, optional, written_of_ne h]

variable [LawfulCodec α] {a default : α}

/-- A member that is always written is read again. -/
@[simp] theorem required_always :
    required (written (.always name (encode a) :: members)) name = some a := by
  rw [required, written_always, Option.bind_some, decode_encode]

@[simp] theorem optional_always :
    optional (written (.always name (encode a) :: members)) name default = some a := by
  rw [optional, written_always]
  exact decode_encode a

/-- A member that is left out only where it is its default is read again. -/
@[simp] theorem optional_omitIf {isLeftOut : Bool} (hmembers : ∀ m ∈ members, m.name ≠ name)
    (h : isLeftOut = true → a = default) :
    optional (written (.omitIf isLeftOut name (encode a) :: members)) name default = some a := by
  rw [optional, written_omitIf hmembers]
  cases isLeftOut with
  | false => exact decode_encode a
  | true => exact congrArg some (h rfl).symm

end Fields

end Datum

end RouteCompiler
