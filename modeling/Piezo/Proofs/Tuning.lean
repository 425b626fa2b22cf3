import Mathlib.Tactic.SplitIfs
import Piezo.Proofs.Audible
import Piezo.Proofs.Precision

/-!
Tuning: pitches made in floats, from a reference and a power of two.

A reference has few bits and no octave is out of a float's reach, so the product of the two is exact,
and all that is lost is lost in rounding it to whole hertz. What comes out is the pitch in integers.
-/

namespace Piezo.Pitch

open Precision

/-- The frequency of a letter, made in floats. -/
def frequencyInFloats (range : FrequencyRange) (letter : UInt8) (sharp : Bool) (octave : UInt8) :
    UInt32 :=
  match semitone? letter with
  | none => 0
  | some semitone =>
    let raised := semitone + sharp.toNat
    let (index, octave) :=
      if 12 ≤ raised then (raised - 12, (octave.toNat : Int) + 1)
      else (raised, (octave.toNat : Int))
    let reference := (UInt32.ofNat (references.getD index 0)).toFloat
    let pitch := (nearest (reference * power 2.0 (octave - 4))).toUInt64
    if pitch ≤ 0xFFFFFFFF ∧ range.contains pitch.toUInt32 then pitch.toUInt32 else 0

/-- What a letter sounds in octave 4, and by how many octaves it is higher than it is called. A sharp
is the next semitone, which for `b` is the `c` of the next octave. -/
def key? (letter : UInt8) (sharp : Bool) : Option (Nat × Nat) :=
  if letter = 'c'.toUInt8 then some (if sharp then 277 else 262, 0)
  else if letter = 'd'.toUInt8 then some (if sharp then 311 else 294, 0)
  else if letter = 'e'.toUInt8 then some (if sharp then 349 else 330, 0)
  else if letter = 'f'.toUInt8 then some (if sharp then 370 else 349, 0)
  else if letter = 'g'.toUInt8 then some (if sharp then 415 else 392, 0)
  else if letter = 'a'.toUInt8 then some (if sharp then 466 else 440, 0)
  else if letter = 'b'.toUInt8 then some (if sharp then (262, 1) else (494, 0))
  else none

theorem key?_eq (letter : UInt8) (sharp : Bool) :
    key? letter sharp = (semitone? letter).map fun semitone =>
      (references.getD ((semitone + sharp.toNat) % 12) 0, (semitone + sharp.toNat) / 12) := by
  have letters : 'c'.toUInt8 = 99 ∧ 'd'.toUInt8 = 100 ∧ 'e'.toUInt8 = 101 ∧ 'f'.toUInt8 = 102 ∧
      'g'.toUInt8 = 103 ∧ 'a'.toUInt8 = 97 ∧ 'b'.toUInt8 = 98 := by decide
  obtain ⟨c, d, e, f, g, a, b⟩ := letters
  rw [key?, c, d, e, f, g, a, b]
  unfold semitone?
  cases sharp <;> simp only [Bool.false_eq_true, if_true, if_false] <;> split_ifs <;> rfl

theorem semitone?_lt {letter : UInt8} {semitone : Nat} (h : semitone? letter = some semitone) :
    semitone < 12 := by
  unfold semitone? at h
  split_ifs at h <;> cases h <;> decide

theorem references_bounds {i : Nat} (h : i < 12) :
    0 < references.getD i 0 ∧ references.getD i 0 < UInt32.size := by
  revert i
  decide

theorem transpose_eq_rounded (reference octave : Nat) :
    transpose reference octave = rounded reference (octave - 4) := by
  have low : (octave : Int) - 4 - octave = .negSucc 3 := by omega
  rw [transpose, Nat.shiftLeft_eq, ← rounded_scale reference _ octave, low]
  rfl

/-- In integers, octave by octave. -/
theorem transpose_eq (reference octave : Nat) :
    transpose reference octave =
      if 4 ≤ octave then reference * 2 ^ (octave - 4)
      else (reference + 2 ^ (4 - octave - 1)) / 2 ^ (4 - octave) := by
  rw [transpose_eq_rounded]
  split
  · next high =>
    have exponent : (octave : Int) - 4 = .ofNat (octave - 4) := by
      rw [Int.ofNat_eq_natCast]
      omega
    rw [exponent, rounded]
  · next low =>
    have exponent : (octave : Int) - 4 = .negSucc (4 - octave - 1) := by omega
    have next : 4 - octave - 1 + 1 = 4 - octave := by omega
    rw [exponent, rounded, next]

/-- 65.5 Hz. -/
example : transpose 262 2 = 66 := by decide

/-- Nothing is lost before the pitch is rounded. -/
theorem nearest_pitch {reference : UInt32} (pos : 0 < reference.toNat) {octave : Nat}
    (reach : octave ≤ 256) :
    (nearest (reference.toFloat * power 2.0 (octave - 4))).toUInt64.toNat =
      min (transpose reference.toNat octave) (2 ^ 64 - 1) := by
  have holds := holds_toFloat pos
  have log := log2_le holds.pos holds.lt
  have inReach : InReach reference.toNat (0 + (octave - 4)) := by
    unfold InReach
    omega
  have factor : Holds (power 2.0 (octave - 4)) 1 (octave - 4) :=
    holds_power_two (by omega) (by omega)
  rw [(holds.mul_power factor inReach).toUInt64_nearest, transpose_eq_rounded, Int.zero_add]

/-- A pitch that is too great for 32 bits is out of range, also if it was cut down to 64. -/
theorem in_word {pitch : UInt64} {exact : Nat} (h : pitch.toNat = min exact (2 ^ 64 - 1))
    (range : FrequencyRange) :
    (if pitch ≤ 0xFFFFFFFF ∧ range.contains pitch.toUInt32 then pitch.toUInt32 else 0) =
      if exact < UInt32.size ∧ range.contains (UInt32.ofNat exact) then UInt32.ofNat exact
      else 0 := by
  have fits : pitch ≤ 0xFFFFFFFF ↔ exact < UInt32.size := by
    rw [UInt64.le_iff_toNat_le, h, UInt32.size]
    simp only [UInt64.reduceToNat]
    omega
  by_cases small : exact < UInt32.size
  · have same : pitch.toUInt32 = UInt32.ofNat exact := by
      rw [UInt32.size] at small
      rw [← UInt32.toNat_inj, UInt64.toNat_toUInt32, h, UInt32.toNat_ofNat']
      omega
    simp only [fits, same]
  · simp only [fits, small, false_and, if_false]

theorem toNat_in_word (range : FrequencyRange) (pitch : Nat) :
    (if pitch < UInt32.size ∧ range.contains (UInt32.ofNat pitch) then UInt32.ofNat pitch
      else 0).toNat =
      if pitch ≤ 2 ^ 32 - 1 ∧ range.min.toNat ≤ pitch ∧ pitch ≤ range.max.toNat then pitch
      else 0 := by
  by_cases small : pitch < UInt32.size
  · have word : (UInt32.ofNat pitch).toNat = pitch := UInt32.toNat_ofNat_of_lt' small
    have fits : pitch ≤ 2 ^ 32 - 1 := Nat.le_sub_one_of_lt small
    simp only [small, fits, true_and, FrequencyRange.contains, Bool.and_eq_true,
      decide_eq_true_eq, UInt32.le_iff_toNat_le, word]
    split
    · exact word
    · rfl
  · have great : ¬ pitch ≤ 2 ^ 32 - 1 := by
      rw [UInt32.size] at small
      omega
    simp only [small, great, false_and, if_false, UInt32.reduceToNat]

/-- A semitone past the last is one of the next octave. -/
theorem carried {raised : Nat} (h : raised < 24) (octave : Nat) :
    (if 12 ≤ raised then (raised - 12, (octave : Int) + 1) else (raised, (octave : Int))) =
      (raised % 12, ((octave + raised / 12 : Nat) : Int)) := by
  split <;> refine Prod.ext ?_ ?_ <;> dsimp only <;> omega

theorem frequencyInFloats_eq (range : FrequencyRange) (letter : UInt8) (sharp : Bool)
    (octave : UInt8) :
    frequencyInFloats range letter sharp octave = frequency range letter sharp octave := by
  unfold frequencyInFloats frequency
  cases h : semitone? letter with
  | none => rfl
  | some semitone =>
    have reach := octave.toNat_lt
    have small := semitone?_lt h
    have sharpened := Bool.toNat_le sharp
    simp only [hertz]
    generalize hraised : semitone + sharp.toNat = raised
    rw [carried (by omega)]
    obtain ⟨pos, lt⟩ := references_bounds (Nat.mod_lt raised (by decide : 0 < 12))
    have reference : (UInt32.ofNat (references.getD (raised % 12) 0)).toNat =
        references.getD (raised % 12) 0 := UInt32.toNat_ofNat_of_lt' lt
    have pitch := nearest_pitch (reference.symm ▸ pos)
      (by omega : octave.toNat + raised / 12 ≤ 256)
    rw [reference] at pitch
    exact in_word pitch range

/-- What is made in floats is exact: the frequency of a letter is the whole number nearest to its
pitch, halves rounded up, if that fits 32 bits and is in range. Otherwise, and for what is no letter
of a pitch, it is 0. So it is never out of range, and no octave is so high that it comes round. -/
theorem frequency_exact (range : FrequencyRange) (letter : UInt8) (sharp : Bool)
    (octave : UInt8) :
    let found := frequency range letter sharp octave
    found = frequencyInFloats range letter sharp octave ∧
      found.toNat = (match key? letter sharp with
        | none => 0
        | some (base, up) =>
          let o := octave.toNat + up
          let pitch :=
            if 4 ≤ o then base * 2 ^ (o - 4) else (base + 2 ^ (4 - o - 1)) / 2 ^ (4 - o)
          if pitch ≤ 2 ^ 32 - 1 ∧ range.min.toNat ≤ pitch ∧ pitch ≤ range.max.toNat then pitch
          else 0) ∧
      (found = 0 ∨ range.min ≤ found ∧ found ≤ range.max) := by
  intro found
  refine ⟨(frequencyInFloats_eq ..).symm, ?_, ?_⟩
  · simp only [found, frequency, key?_eq]
    cases semitone? letter with
    | none => rfl
    | some semitone =>
      let heard (pitch : Nat) :=
        if pitch ≤ 2 ^ 32 - 1 ∧ range.min.toNat ≤ pitch ∧ pitch ≤ range.max.toNat then pitch
        else 0
      change _ = heard (if _ then _ else _)
      rw [← transpose_eq]
      exact toNat_in_word ..
  · simpa [found, FrequencyRange.contains] using frequency_inRange range letter sharp octave

end Piezo.Pitch
