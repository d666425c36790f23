import RouteCompiler.Generation.Config
import RouteCompiler.Proofs.Json.RoundTrip

/-!
# Snapshots that are stored

A snapshot is stored with all its parts: its group with endpoints and their characteristics, its
policies with their resources, and the packages that any of them needs.  Empty parts are left out,
and the reader takes what is left out for empty.  This module shows that the two agree in every
record, so that nothing of a snapshot is lost.

Main results:

- Instances of `LawfulCodec` for snapshots and their parts.
- Theorem `Snapshot.survives_storage`: a stored snapshot is read again, as a datum and as a text;
  and what has been read once does not change when it is stored and read again.
- Theorem `Snapshot.load_stored`: a snapshot is loaded from the file it was stored in.
-/

namespace RouteCompiler

open Datum

/-! ## Records -/

instance : LawfulCodec Coordinate where
  isPrintable_encode c := isPrintable_ofMembers (by simp [isPrintable_encode])
  decode_encode c := bind_fields_ofMembers rfl (by decide) (by simp)

instance : LawfulCodec Characteristic where
  isPrintable_encode c := isPrintable_ofMembers (by simp [isPrintable_encode])
  decode_encode c := bind_fields_ofMembers rfl (by decide) (by simp [SortedMap.isEmpty_iff])

instance : LawfulCodec Endpoint where
  isPrintable_encode e := isPrintable_ofMembers (by simp [isPrintable_encode])
  decode_encode e := bind_fields_ofMembers rfl (by decide)
    (by simp [SortedMap.isEmpty_iff, SortedSet.isEmpty_iff])

instance : LawfulCodec Resource where
  isPrintable_encode r := isPrintable_ofMembers (by simp [isPrintable_encode])
  decode_encode r := bind_fields_ofMembers rfl (by decide) (by simp [SortedSet.isEmpty_iff])

instance : LawfulCodec Policy where
  isPrintable_encode p := isPrintable_ofMembers (by simp [isPrintable_encode])
  decode_encode p := bind_fields_ofMembers rfl (by decide) (by simp [SortedSet.isEmpty_iff])

instance : LawfulCodec Group where
  isPrintable_encode g := isPrintable_ofMembers (by simp [isPrintable_encode])
  decode_encode g := bind_fields_ofMembers rfl (by decide) (by simp)

instance : LawfulCodec Snapshot where
  isPrintable_encode s := isPrintable_ofMembers (by simp [isPrintable_encode])
  decode_encode s := bind_fields_ofMembers rfl (by decide) (by simp [SortedMap.isEmpty_iff])

/-! ## Texts -/

/-- What a lawful codec writes in a text is read from that text. -/
theorem decode_parse_render {α : Type} [Codec α] [LawfulCodec α] (layout : Json.Layout) (a : α) :
    (Json.parse (String.ofList (Json.render layout (encode a)))).bind decode = some a := by
  rw [Json.parse_render (isPrintable_encode a), Option.bind_some, decode_encode]

namespace Snapshot

/-- Nothing of a snapshot is lost when it is stored as a datum or as a text in either layout; and
whatever datum a snapshot was read from, the snapshot stays the same when it is stored and read
again. -/
theorem survives_storage :
    (∀ s : Snapshot, decode (encode s) = some s ∧ ∀ layout : Json.Layout,
      (Json.parse (String.ofList (Json.render layout (encode s)))).bind decode = some s) ∧
    ∀ d : Datum, ((decode d : Option Snapshot).bind fun s => decode (encode s)) =
      (decode d : Option Snapshot) := by
  refine ⟨fun s => ⟨decode_encode s, fun layout => decode_parse_render layout s⟩, fun d => ?_⟩
  cases hread : (decode d : Option Snapshot) with
  | none => rfl
  | some s => rw [Option.bind_some, decode_encode]

/-- A snapshot is loaded from the file it was stored in. -/
theorem load_stored {read : FileReader} {path : String} {s : Snapshot}
    (hpath : Path.hasExtension "json" path = true)
    (hread : read path = .ok (Json.pretty (encode s))) : Snapshot.load read path = .ok s := by
  have htext : (Json.parse (Json.pretty (encode s))).bind decode = some s :=
    decode_parse_render (.lines 0) s
  rw [Snapshot.load, hread]
  change decodeFile decode path (Json.pretty (encode s)) = .ok s
  rw [decodeFile, if_pos hpath, htext]

end Snapshot

end RouteCompiler
