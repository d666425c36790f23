import RouteCompiler.Build.Config
import RouteCompiler.Proofs.Model.Storage

/-!
# Configurations that are stored

A configuration leaves out what shall be as usual, and is read with the usual values for what is
left out.  Only the probe has three cases: settings, nothing at all, and what is usual.  Where there
is to be no probe the member is left out, which says that the probe is as usual.  So exactly the
configurations with a probe are read again; any other one comes back with the probe of the user.

Main results:

- Theorem `GeneratorConfig.decode_encode`: what becomes of a stored configuration of generation.
- Theorem `Configuration.decode_encode`: so of a configuration of the program.
- Theorem `Configuration.survives_storage_iff`: which configurations are read again.
- Theorem `Configuration.load_stored`: what is loaded from the file a configuration was stored in.
-/

namespace RouteCompiler

open Datum

/-! ## Limits -/

instance : LawfulCodec SchedulerConfig where
  isPrintable_encode c := isPrintable_ofMembers (by simp [isPrintable_encode])
  decode_encode c := bind_fields_ofMembers rfl (by decide) (by simp)

instance : LawfulCodec ServerConfig where
  isPrintable_encode c := isPrintable_ofMembers (by simp [isPrintable_encode])
  decode_encode c := bind_fields_ofMembers rfl (by decide) (by simp)

/-! ## Probes -/

namespace ProbeConfig

theorem isPrintable_encode (c : ProbeConfig) : c.encode.IsPrintable :=
  isPrintable_ofMembers (by simp [LawfulCodec.isPrintable_encode])

/-- Both settings of a probe are written, so nothing depends on the user who reads them. -/
theorem decode_encode (home : String) (c : ProbeConfig) : decode home c.encode = some c := by
  unfold decode
  exact bind_fields_ofMembers rfl (by decide) (by simp)

end ProbeConfig

/-! ## Generation -/

namespace GeneratorConfig

theorem isPrintable_encode (c : GeneratorConfig) : c.encode.IsPrintable := by
  refine isPrintable_ofMembers ?_
  cases hprobe : c.probe with
  | none => simp [LawfulCodec.isPrintable_encode, IsPrintable.null]
  | some probe => simp [LawfulCodec.isPrintable_encode, ProbeConfig.isPrintable_encode]

/-- The configuration that is read where this one was stored: with the usual probe of the user
where there is none. -/
def withUsualProbe (home : String) (c : GeneratorConfig) : GeneratorConfig :=
  { c with probe := some (c.probe.getD (.default home)) }

theorem withUsualProbe_eq_self_iff {home : String} {c : GeneratorConfig} :
    c.withUsualProbe home = c ↔ c.probe ≠ none := by
  obtain ⟨base, components, probe⟩ := c
  cases probe <;> simp [withUsualProbe]

/-- A stored probe is told from nothing. -/
theorem decodeProbe_encode (home : String) (c : ProbeConfig) :
    decodeProbe home c.encode = some (some c) := by
  have hsomething : c.encode.isNothing? = some false := rfl
  rw [decodeProbe, hsomething, Option.bind_some, if_neg Bool.false_ne_true,
    ProbeConfig.decode_encode, Option.map_some]

/-- A stored configuration of generation comes back with the usual probe where it had none. -/
theorem decode_encode (home : String) (c : GeneratorConfig) :
    decode home c.encode = some (c.withUsualProbe home) := by
  refine bind_fields_ofMembers rfl (by decide) ?_
  cases hprobe : c.probe with
  | none => simp [withUsualProbe, hprobe]
  | some probe => simp [withUsualProbe, hprobe, decodeProbe_encode]

end GeneratorConfig

/-! ## The program -/

namespace Configuration

theorem isPrintable_encode (c : Configuration) : c.encode.IsPrintable :=
  isPrintable_ofMembers (by
    simp [LawfulCodec.isPrintable_encode, GeneratorConfig.isPrintable_encode])

/-- A stored configuration comes back with the usual probe where it had none. -/
theorem decode_encode (home : String) (c : Configuration) :
    decode home c.encode =
      some { c with generator := c.generator.withUsualProbe home } := by
  refine bind_fields_ofMembers rfl (by decide) ?_
  simp [GeneratorConfig.decode_encode]

/-- For every user, a stored configuration is read again, as a datum and as a text in either
layout, if and only if it has a probe; without one it comes back with the usual probe of the user,
and otherwise as it was. -/
theorem survives_storage_iff (home : String) :
    (∀ c : GeneratorConfig,
      GeneratorConfig.decode home c.encode = some (c.withUsualProbe home) ∧
      (GeneratorConfig.decode home c.encode = some c ↔ c.probe ≠ none) ∧
      ∀ layout : Json.Layout, (Json.parse (String.ofList (Json.render layout c.encode))).bind
        (GeneratorConfig.decode home) = some (c.withUsualProbe home)) ∧
    ∀ c : Configuration,
      decode home c.encode = some { c with generator := c.generator.withUsualProbe home } ∧
      (decode home c.encode = some c ↔ c.generator.probe ≠ none) ∧
      ∀ layout : Json.Layout, (Json.parse (String.ofList (Json.render layout c.encode))).bind
        (decode home) = some { c with generator := c.generator.withUsualProbe home } := by
  refine ⟨fun c => ⟨c.decode_encode home, ?_, fun layout => ?_⟩,
    fun c => ⟨c.decode_encode home, ?_, fun layout => ?_⟩⟩
  · rw [GeneratorConfig.decode_encode, Option.some_inj]
    exact GeneratorConfig.withUsualProbe_eq_self_iff
  · rw [Json.parse_render c.isPrintable_encode, Option.bind_some, GeneratorConfig.decode_encode]
  · rw [decode_encode, Option.some_inj]
    obtain ⟨builder, generator, deployRoot⟩ := c
    simpa using GeneratorConfig.withUsualProbe_eq_self_iff
  · rw [Json.parse_render c.isPrintable_encode, Option.bind_some, decode_encode]

/-- A configuration whose limits are sound is loaded from the file it was stored in, with the usual
probe where it had none. -/
theorem load_stored {home path : String} {read : FileReader} {c : Configuration}
    (hpath : Path.hasExtension "json" path = true)
    (hread : read path = .ok (Json.pretty c.encode)) (hlimits : c.builder.validate = .ok ()) :
    load home read path = .ok { c with generator := c.generator.withUsualProbe home } := by
  have htext : (Json.parse (Json.pretty c.encode)).bind (decode home) =
      some { c with generator := c.generator.withUsualProbe home } := by
    rw [Json.parse_pretty c.isPrintable_encode, Option.bind_some, decode_encode]
  have hfile : decodeFile (decode home) path (Json.pretty c.encode) =
      .ok { c with generator := c.generator.withUsualProbe home } := by
    rw [decodeFile, if_pos hpath, htext]
  rw [load, hread]
  simp only [Except.mapError, hfile, bind, Except.bind, hlimits]
  rfl

end Configuration

end RouteCompiler
