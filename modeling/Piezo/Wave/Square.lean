/-!
Square waves: the phase of a wave and the half of it that the phase is in.

A phase is the part of a period that has passed, from 0 up to but not including 1.
-/

namespace Piezo.Wave

/-- The phase one sample later, for a frequency and a sample rate in hertz. -/
def nextPhase (phase : Float) (frequency rate : UInt32) : Float :=
  let moved := phase + frequency.toFloat / rate.toFloat
  moved - moved.floor

/-- A wave is high in the first half of its period. -/
def isHigh (phase : Float) : Bool := phase < 0.5

/-- The sample of a wave at a phase. -/
def level (phase : Float) (amplitude : Float32) : Float32 :=
  if isHigh phase then amplitude else -amplitude

end Piezo.Wave
