import Piezo.Settings

/-!
Pitch and length: from a letter and an octave to hertz, and from a tempo and a divisor to
milliseconds.

Both are exact. A frequency is a reference frequency of octave 4 times a power of two, rounded to
the nearest integer with halves going up; a length is cut down to whole milliseconds.
-/

namespace Piezo.Pitch

/-- The twelve semitones of octave 4 in hertz, from C. -/
def references : List Nat := [262, 277, 294, 311, 330, 349, 370, 392, 415, 440, 466, 494]

/-- Semitones from C up to a letter, given in lower case. Any other letter is a rest. -/
def semitone? (letter : UInt8) : Option Nat :=
  if letter = 99 then some 0
  else if letter = 100 then some 2
  else if letter = 101 then some 4
  else if letter = 102 then some 5
  else if letter = 103 then some 7
  else if letter = 97 then some 9
  else if letter = 98 then some 11
  else none

/-- The integer nearest to `reference * 2 ^ octave / 2 ^ 4`, halves rounded up. -/
def transpose (reference octave : Nat) : Nat := (reference <<< octave + 8) / 16

/-- The pitch in hertz of a letter that is no rest. The semitone after B is the C of the next
octave. -/
def hertz (semitone octave : Nat) : Nat :=
  transpose (references.getD (semitone % 12) 0) (octave + semitone / 12)

/-- The frequency of a letter, or 0 if the letter is a rest or its pitch is out of range. -/
def frequency (range : FrequencyRange) (letter : UInt8) (sharp : Bool) (octave : UInt8) :
    UInt32 :=
  match semitone? letter with
  | none => 0
  | some semitone =>
    let pitch := hertz (semitone + sharp.toNat) octave.toNat
    if pitch < UInt32.size ∧ range.contains (UInt32.ofNat pitch) then UInt32.ofNat pitch else 0

/-- Milliseconds of a quarter note at a tempo in beats a minute. -/
def quarter (tempo : UInt32) : UInt32 := 60000 / max tempo 1

/-- Milliseconds of a note. The divisor 4 is a quarter note, 8 an eighth; a dot makes a note longer
by half, and no note is longer than the longest that can be written. -/
def length (quarter divisor : UInt32) (dotted : Bool) : UInt16 :=
  let plain := quarter.toNat * 4 / max divisor.toNat 1
  UInt16.ofNat (min (if dotted then plain + plain / 2 else plain) 65535)

end Piezo.Pitch
