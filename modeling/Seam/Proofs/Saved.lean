import Seam.Proofs.Disk
import Seam.Proofs.Stored
import Seam.Settings.Store

/-!
Settings on a disk. Settings that are not admitted leave the disk as it is
(`Settings.save_of_check`); others, if their format gives them a text, are saved exactly where
something can be written (`Settings.save_eq_ok_iff`). With codecs that implement their formats
the text gives them back, so they are loaded as they were saved (`Settings.load_of_save`).
-/
namespace Seam.Settings

/-- What an action on settings gives on a disk, and the disk that it leaves. -/
def run {β : Type} (action : ExceptT (Fault Float) (StateM Disk) β) (d : Disk) : Except (Fault Float) β × Disk :=
  action.run.run d

section Run

variable {β γ : Type} {f : β → ExceptT (Fault Float) (StateM Disk) γ} {b : β} {d d' : Disk}
  {result : Except (Fault Float) β}

private theorem run_bind {action : ExceptT (Fault Float) (StateM Disk) β} (given : run action d = (.ok b, d')) :
    run (action >>= f) d = run (f b) d' := by
  simp only [run, ExceptT.run_bind, StateT.run_bind] at given ⊢
  rw [given]
  rfl

/-- What is decided without the disk leaves it as it is. -/
private theorem run_ok (given : result = .ok b) : run (ExceptT.mk (pure result) >>= f) d = run (f b) d := by
  rw [given]
  rfl

private theorem run_error {cause : Fault Float} (failed : result = .error cause) :
    run (ExceptT.mk (pure result) >>= f) d = (.error cause, d) := by
  rw [failed]
  rfl

private theorem run_monadLift {action : StateM Disk β} (given : action d = (b, d')) :
    run (monadLift action >>= f) d = run (f b) d' := by
  refine run_bind ?_
  show (Except.ok (action d).1, (action d).2) = _
  rw [given]

end Run

variable {config : Config Float} {path : String} {d : Disk} {format : Format}

private theorem check_eq_ok (valid : config.tuning.check = .ok ()) : check config = .ok () := by
  rw [check, valid]
  rfl

section Codecs

variable [Codecs Float]

/-- Settings that are not admitted leave the disk as it is. -/
theorem save_of_check {cause : Tuning.Fault Float} (wrong : config.tuning.check = .error cause) (path : String) (d : Disk) :
    run (save config path) d = (.error (.invalidSetting cause), d) := by
  have refused : check config = .error (.invalidSetting cause) := by
    rw [check, wrong]
    rfl
  exact run_error refused

/-- Settings that are admitted go into a file below the directories that are made for it. -/
private theorem save_of_writable (valid : config.tuning.check = .ok ())
    (told : (Format.ofPath path : Except (Fault Float) Format) = .ok format) {text : String}
    (given : format.write config = .ok text) (writable : d.Writable path) :
    ∃ (made : Disk) (place : Place), made.place? path = some place ∧
      run (save config path) d = (.ok (), made.put place text) := by
  obtain ⟨made, place, there, found, free⟩ := writable.exists_place?
  refine ⟨made, place, found, ?_⟩
  have written : run (do
      if !(← (Files.write path text : StateM Disk Bool)) then throw .inaccessible) made =
      (.ok (), made.put place text) := run_monadLift (Disk.write_eq found free _)
  rw [save, run_ok (check_eq_ok valid), run_ok told, run_ok given, Path.parent?]
  cases parents : (Path.names path).dropLast with
  | nil =>
    rw [parents] at there
    cases there
    exact written
  | cons parent others =>
    have above := Disk.createDirectories_ofNames (d := d) (parents ▸ List.cons_ne_nil parent others)
    rw [if_pos (Path.isFollowable_ofNames writable.followable), there, parents] at above
    exact (run_monadLift above).trans written

/-- Admitted settings are only saved where something can be written. -/
private theorem writable_of_save (valid : config.tuning.check = .ok ())
    (told : (Format.ofPath path : Except (Fault Float) Format) = .ok format) {text : String}
    (given : format.write config = .ok text) (saved : (run (save config path) d).1 = .ok ()) : d.Writable path := by
  have written (e : Disk) (done : (run (do
      if !(← (Files.write path text : StateM Disk Bool)) then throw .inaccessible) e).1 = .ok ()) :
      ∃ place, e.place? path = some place ∧ e.isDirectory place = false := by
    refine Disk.exists_place?_of_write text ?_
    by_contra failed
    rw [Bool.not_eq_true] at failed
    rw [run_monadLift (Prod.ext failed rfl)] at done
    cases done
  rw [save, run_ok (check_eq_ok valid), run_ok told, run_ok given, Path.parent?] at saved
  cases parents : (Path.names path).dropLast with
  | nil =>
    rw [parents] at saved
    obtain ⟨place, found, free⟩ := written d saved
    exact .of_place? (by rw [parents]; rfl) found free
  | cons parent others =>
    have above := Disk.createDirectories_ofNames (d := d) (parents ▸ List.cons_ne_nil parent others)
    rw [parents] at saved above
    split at above
    · cases there : d.makeDirectories (d.origin path) (parent :: others) with
      | none =>
        rw [there] at above
        dsimp only at saved
        rw [run_monadLift above] at saved
        cases saved
      | some made =>
        rw [there] at above
        dsimp only at saved
        rw [run_monadLift above] at saved
        obtain ⟨place, found, free⟩ := written made saved
        exact .of_place? (parents ▸ there) found free
    · dsimp only at saved
      rw [run_monadLift above] at saved
      cases saved

/-- Admitted settings that have a text are saved exactly where something can be written. -/
theorem save_eq_ok_iff (valid : config.tuning.check = .ok ())
    (told : (Format.ofPath path : Except (Fault Float) Format) = .ok format) {text : String}
    (given : format.write config = .ok text) :
    (run (save config path) d).1 = .ok () ↔ d.Writable path := by
  refine ⟨writable_of_save valid told given, fun writable => ?_⟩
  obtain ⟨made, place, -, saved⟩ := save_of_writable valid told given writable
  rw [saved]

/-- The settings of a file are those that its text gives, if they are admitted. -/
private theorem load_of_read (valid : config.tuning.check = .ok ())
    (told : (Format.ofPath path : Except (Fault Float) Format) = .ok format) {place : Place} {text : String}
    (found : d.place? path = some place) (holds : d.file? place = some text) (read : format.read text = .ok config) :
    run (load path) d = (.ok config, d) := by
  have opened : (Files.read? path : StateM Disk (Option String)) d = (some text, d) := by rw [Disk.read?_eq found, holds]
  have behind : run (load path) d = run (do
      let config ← ExceptT.mk (pure (format.read text))
      ExceptT.mk (pure (check config))
      return config) d := (run_ok told).trans (run_monadLift opened)
  rw [behind, run_ok read, run_ok (check_eq_ok valid)]
  rfl

/-- A format gives admitted settings a text, and its codec's reader gives them back where it restores their lengths. -/
private theorem read_of_write {decimal : Float → Decimal} {number? : Decimal → Option Float}
    (implements : (format.codec : Codec Float).Implements decimal number?) (valid : config.tuning.check = .ok ())
    (restores : ∀ entry ∈ config.tuning.entries, number? (decimal entry.2) = some entry.2) :
    ∃ text, format.write config = .ok text ∧ format.read text = .ok config := by
  obtain ⟨text, written, read⟩ := implements.read_write (Tuning.isFinite_of_check valid) restores
  refine ⟨text, ?_, ?_⟩
  · rw [Format.write, written]
  · rw [Format.read, read]

/-- Settings that are not admitted are not saved, and the disk stays as it is. Settings that are admitted are saved
    wherever something can be written, and they are loaded as they were saved. Of the codecs it is assumed that they
    implement their formats, that the decimal which one writes for a finite number denotes it, and that such a
    decimal, where it is written for one of the lengths, is read as the number that it denotes. -/
theorem load_of_save {decimal : Format → Float → Decimal} {number? : Format → Decimal → Option Float}
    (implements : ∀ format : Format, (format.codec : Codec Float).Implements (decimal format) (number? format))
    (denotes : ∀ format x, Scalar.isFinite x = true → Scalar.ofDecimal (decimal format x) = x) (config : Config Float)
    (restores : ∀ format, ∀ entry ∈ config.tuning.entries, Scalar.ofDecimal (decimal format entry.2) = entry.2 →
      number? format (decimal format entry.2) = some entry.2) (path : String) (d : Disk) :
    (∀ cause, config.tuning.check = .error cause → run (save config path) d = (.error (.invalidSetting cause), d)) ∧
    (config.tuning.check = .ok () → d.Writable path →
      (Path.extension? path = some "json" ∨ Path.extension? path = some "toml") →
        ∃ saved, run (save config path) d = (.ok (), saved) ∧ run (load path) saved = (.ok config, saved)) := by
  refine ⟨fun cause wrong => save_of_check wrong path d, fun valid writable named => ?_⟩
  obtain ⟨format, told⟩ : ∃ format, (Format.ofPath path : Except (Fault Float) Format) = .ok format := by
    rcases named with json | toml
    · exact ⟨.json, by simp [Format.ofPath, json]⟩
    · exact ⟨.toml, by simp [Format.ofPath, toml]⟩
  obtain ⟨text, given, read⟩ := read_of_write (implements format) valid fun entry listed =>
    restores format entry listed (denotes format entry.2 (Tuning.isFinite_of_check valid entry listed))
  obtain ⟨made, place, found, saved⟩ := save_of_writable valid told given writable
  refine ⟨_, saved, load_of_read valid told ?_ (Disk.file?_put made place text) read⟩
  rw [Disk.place?_put, found]

end Codecs

/-- Settings of which none is the standard but the height of layers. -/
def coarse : Config Float := ⟨⟨0.2, 3.5, 0.25, 1.75⟩, ⟨.crlf, false⟩⟩

/-- The settings above in both formats, below a directory that is not there, and the same with a height below zero. -/
theorem load_of_save_coarse :
    (∃ saved, run (save coarse "nested/config.toml") (Disk.empty "work") = (.ok (), saved) ∧
      run (load "nested/config.toml") saved = (.ok coarse, saved)) ∧
    (∃ saved, run (save coarse "nested/config.json") (Disk.empty "work") = (.ok (), saved) ∧
      run (load "nested/config.json") saved = (.ok coarse, saved)) ∧
    run (save ⟨{ coarse.tuning with layerHeight := -0.2 }, coarse.output⟩ "nested/config.toml") (Disk.empty "work") =
      (.error (.invalidSetting (.outOfRange "layer_height" (-0.2) 0)), Disk.empty "work") := by
  have valid : coarse.tuning.check = .ok () := by decide +kernel
  have wrong : Tuning.check { coarse.tuning with layerHeight := -0.2 } = .error (.outOfRange "layer_height" (-0.2) 0) := by
    decide +kernel
  have restores {config : Config Float}
      (json : ∀ entry ∈ config.tuning.entries, Json.number? (Scalar.decimal .even entry.2) = some entry.2) :
      ∀ format : Format, ∀ entry ∈ config.tuning.entries, Scalar.ofDecimal (format.decimal entry.2) = entry.2 →
        format.number? (format.decimal entry.2) = some entry.2
    | .json, entry, listed, _ => json entry listed
    | .toml, _, _, denotes => congrArg some denotes
  have saves := load_of_save Format.implements_codec Format.ofDecimal_decimal coarse (restores (by decide +kernel))
  refine ⟨?_, ?_, ?_⟩
  · exact (saves "nested/config.toml" (Disk.empty "work")).2 valid (.of_place? rfl rfl rfl) (.inr (by decide +kernel))
  · exact (saves "nested/config.json" (Disk.empty "work")).2 valid (.of_place? rfl rfl rfl) (.inl (by decide +kernel))
  · exact (load_of_save Format.implements_codec Format.ofDecimal_decimal _ (restores (by decide +kernel)) "nested/config.toml"
      (Disk.empty "work")).1 _ wrong

end Seam.Settings
