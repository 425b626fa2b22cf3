import Piezo.Proofs.Mixing

/-!
Unison: a wave that is pulled from a speaker and the same wave rendered from a recording are in the
same half of their period in every sample. And the same commands leave the same channels sounding,
whatever time goes by in a recording and whatever is pulled from a speaker between them.
-/

namespace Piezo

open Wave Speaker

namespace Happening

def command? : Happening → Option Command
  | .perform command => some command
  | .advance _ => none

/-- The commands among what happens. -/
def commands (later : List Happening) : List Command := later.filterMap command?

end Happening

theorem Recording.sounding_after (r : Recording) (later : List Happening) :
    (r.after later).sounding = (Happening.commands later).foldl Soundings.perform r.sounding := by
  induction later generalizing r with
  | nil => rfl
  | cons happening rest ih => cases happening <;> exact ih _

namespace Wave

variable {now frequency ms rate : UInt32} {c : Channel}

/-- A recording on whose channel one tone has sounded from the start. -/
def held (now : UInt32) (c : Channel) (frequency ms : UInt32) : Recording :=
  (({ now } : Recording).perform (.emit c frequency)).advance ms

theorem channelEvents_held :
    channelEvents (held now c frequency ms) c = [⟨now, .emit c frequency⟩] := by
  simp [held, Recording.advance, Recording.perform, channelEvents, Event.channel, Command.channel]

theorem log_held : log (held now c frequency ms) c = [(0, some frequency)] := by
  rw [log, channelEvents_held]
  simp [Clock.elapsed_self, Event.frequency?, Command.frequency?]

theorem span_held : span (held now c frequency ms) c = ms.toNat := by
  rw [span, channelEvents_held]
  exact congrArg UInt32.toNat (Clock.elapsed_add now ms)

/-- A tone that sounds from the start is as old in each sample as that sample's number. -/
theorem render_held (now : UInt32) (c : Channel) (frequency ms rate : UInt32)
    (amplitude : Float32) :
    (render (held now c frequency ms) c rate amplitude).toList =
      (List.range (ms.toNat * rate.toNat / 1000)).map fun i =>
        level (phaseAfter frequency rate i) amplitude := by
  have inTime : InTime (held now c frequency ms) c :=
    ⟨by simp [log_held], by simp [log_held]⟩
  rw [render_toList inTime, log_held, span_held]
  refine List.map_congr_left fun i hi => ?_
  simp [sampleAt, onset]

end Wave

namespace Speaker

open Use

/-- How a speaker is used that sounds one tone from the start and gives so many samples. -/
def drone (d : Channel) (frequency : UInt32) (count : Nat) : List Use :=
  .perform (.emit d frequency) :: List.replicate count .pull

theorem before_pulls (count n : Nat) : before (List.replicate count .pull) n = [] := by
  induction count generalizing n with
  | zero => rfl
  | succ count ih =>
    cases n with
    | zero => rfl
    | succ n => exact ih n

theorem chords_drone (d : Channel) (frequency : UInt32) (count k : Nat) :
    chords (drone d frequency count) k = [frequency] := by
  rw [chords, drone, before, before_pulls, ← Soundings.frequencies_foldl_perform]
  rfl

/-- The waves of one frequency add up to one wave that has all of the volume. -/
theorem mixed_singleton (volume : Float32) (rate frequency : UInt32) (age : Nat) :
    mixed volume rate [frequency] age =
      0.0 + level (phaseAfter frequency rate age) (volume / 1.0) := by
  have whole : [frequency].length.toUInt64.toFloat32 = 1.0 :=
    show (1 : Nat).toUInt64.toFloat32 = 1.0 by decide
  simp only [mixed, whole, List.map_cons, List.map_nil, List.foldl_cons, List.foldl_nil, level,
    isHigh, decide_eq_true_eq]

/-- A look at an unchanged table leaves the wave alone, so that it too is as old in each sample as
that sample's number. -/
theorem pull_drone (rate : UInt32) (volume : Float32) (d : Channel) (frequency : UInt32)
    (count : Nat) :
    ((fresh rate volume).after (drone d frequency count)).pull.1 =
      some (0.0 + level (phaseAfter frequency rate count) (volume / 1.0)) := by
  have counted : pulls (drone d frequency count) = count := by simp [pulls, drone]
  have live : Use.finish ∉ drone d frequency count := by simp [drone]
  obtain ⟨b, change, sample⟩ := (follows_after rate volume (drone d frequency count)).pull live
  have hb : b = 0 := change.changes.resolve_right fun ne =>
    ne ((chords_drone ..).trans (chords_drone ..).symm)
  rw [sample, counted, chords_drone, hb, Nat.mul_zero, Nat.sub_zero, mixed_singleton]

end Speaker

open Speaker in
/-- One tone from the start sounds alike in a recording and from a speaker: in every sample of the
rendering both waves are in the half of their period that the same phase is in, however often the
speaker has looked at its table by then. And if the same commands are among what happens in a
recording and what a speaker is used for, the same channels sound, with the same frequencies. -/
theorem live_like_recorded (now frequency ms rate : UInt32) (c d : Channel)
    (amplitude volume : Float32) :
    (let rendered := render (held now c frequency ms) c rate amplitude
      let high (i : Nat) : Prop := phaseAfter frequency rate i < 0.5
      rendered.size = ms.toNat * rate.toNat / 1000 ∧
        ∀ i < rendered.size,
          rendered[i]? = some (if high i then amplitude else -amplitude) ∧
            ((fresh rate volume).after (drone d frequency i)).pull.1 =
              some (0.0 + if high i then volume / 1.0 else -(volume / 1.0))) ∧
      ∀ (later : List Happening) (uses : List Use),
        Happening.commands later = Use.commands uses → ∀ channel : Channel,
          (({ now } : Recording).after later).sounding.get? channel =
            ((fresh rate volume).after uses).sounding.get? channel := by
  constructor
  · intro rendered high
    have samples := render_held now c frequency ms rate amplitude
    have counted : rendered.size = ms.toNat * rate.toNat / 1000 := by
      rw [← Array.length_toList, samples, List.length_map, List.length_range]
    refine ⟨counted, fun i hi => ⟨?_, ?_⟩⟩
    · rw [← Array.getElem?_toList, samples, List.getElem?_map,
        List.getElem?_range (counted ▸ hi)]
      simp [level, isHigh, high]
    · rw [pull_drone]
      simp [level, isHigh, high]
  · intro later uses same channel
    rw [Recording.sounding_after, (follows_after rate volume uses).sounding, same]

open Speaker in
/-- Sample 100 lies behind the speaker's second look at its table. And three commands leave one of
two channels sounding, with a pause between them or with a sample and the end. -/
theorem live_like_recorded_past_look :
    let rendered := render (held 7 ⟨2⟩ 440 20) ⟨2⟩ 8000 0.25
    let later : List Happening :=
      [.perform (.emit ⟨0⟩ 500), .advance 30, .perform (.emit ⟨1⟩ 700), .perform (.silence ⟨0⟩)]
    let uses : List Use :=
      [.perform (.emit ⟨0⟩ 500), .perform (.emit ⟨1⟩ 700), .pull, .perform (.silence ⟨0⟩), .finish]
    rendered[100]? = some (if phaseAfter 440 8000 100 < 0.5 then (0.25 : Float32) else -0.25) ∧
      ((fresh 8000 1.0).after (drone ⟨0⟩ 440 100)).pull.1 =
        some (0.0 + if phaseAfter 440 8000 100 < 0.5 then 1.0 / 1.0 else -(1.0 / 1.0)) ∧
      (({ now := 7 } : Recording).after later).sounding.get? ⟨1⟩ = some 700 ∧
      ((fresh 8000 1.0).after uses).sounding.get? ⟨1⟩ = some 700 := by
  intro rendered later uses
  obtain ⟨⟨counted, alike⟩, together⟩ := live_like_recorded 7 440 20 8000 ⟨2⟩ ⟨0⟩ 0.25 1.0
  have inside : 100 < rendered.size := by
    rw [counted]
    decide
  have sounds := together later uses rfl ⟨1⟩
  exact ⟨(alike 100 inside).1, (alike 100 inside).2, rfl, sounds.symm.trans rfl⟩

end Piezo
