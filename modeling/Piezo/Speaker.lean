import Piezo.Command
import Piezo.Error
import Piezo.Wave.Export

/-!
Speakers: square waves for every channel that sounds, mixed live.

Commands go to the speaker's table at any time. The mixer looks at the table once in 64 samples,
and unless something has changed since, every wave goes on undisturbed.
-/

namespace Piezo

/-- The source of a speaker's samples. -/
structure Mixer where
  rate : UInt32
  volume : Float32
  frequencies : List UInt32 := []
  /-- The phases of the waves, in the order of their frequencies. -/
  phases : List Float := []
  /-- Samples left until the table is looked at again. -/
  left : Nat := 0

namespace Mixer

/-- Samples between two looks at the table. -/
def batch : Nat := 64

/-- Looks at the table. Other frequencies than before begin afresh, all of them. -/
def refresh (m : Mixer) (sounding : Soundings) : Mixer :=
  let pending := sounding.frequencies
  if pending = m.frequencies then { m with left := batch }
  else
    { m with frequencies := pending, phases := List.replicate pending.length 0.0, left := batch }

/-- The sum of the waves, each with an equal part of the volume. -/
def mix (m : Mixer) : Float32 :=
  match m.frequencies with
  | [] => 0.0
  | frequencies =>
    let gain := m.volume / frequencies.length.toUInt64.toFloat32
    (frequencies.zip m.phases).foldl (fun sum (_, phase) => sum + Wave.level phase gain) 0.0

def next (m : Mixer) : Mixer :=
  { m with
    phases := List.zipWith (fun frequency phase => Wave.nextPhase phase frequency m.rate)
      m.frequencies m.phases
    left := m.left - 1 }

/-- The mixer as it is for the next sample, with a new look at the table if it is time for one. -/
def ready (m : Mixer) (sounding : Soundings) : Mixer :=
  if m.left = 0 then m.refresh sounding else m

/-- One sample, and the mixer after it. -/
def sample (m : Mixer) (sounding : Soundings) : Float32 × Mixer :=
  let m := m.ready sounding
  (m.mix, m.next)

end Mixer

/-- What a speaker tells its device to do. -/
inductive DeviceCall where
  | pause
  | play
  | stop
deriving DecidableEq, Repr

/-- How an audio device answers when it is opened. -/
inductive Device where
  | ready
  | noStream (reason : String)
  | noSink (reason : String)
deriving DecidableEq, Repr

/-- A speaker, from its opening on. -/
structure Speaker where
  mixer : Mixer
  sounding : Soundings := {}
  finished : Bool := false
  isOpen : Bool := true
  calls : List DeviceCall := []

namespace Speaker

/-- Opens a device; the volume is brought between 0 and 1. -/
def connect (device : Device) (rate : UInt32) (volume : Float32) : Except Error Speaker :=
  match device with
  | .noStream reason => .error (.audioDevice ("failed to create audio stream: " ++ reason))
  | .noSink reason => .error (.audioDevice ("failed to create audio sink: " ++ reason))
  | .ready => .ok { mixer := { rate, volume := Wave.clamp volume 0.0 1.0 } }

def perform (s : Speaker) (command : Command) : Speaker :=
  { s with sounding := s.sounding.perform command }

/-- One sample for the device; none once the sound has ended. -/
def pull (s : Speaker) : Option Float32 × Speaker :=
  if s.finished then (none, s)
  else
    let (sample, mixer) := s.mixer.sample s.sounding
    (some sample, { s with mixer })

/-- Appends at most `count` samples, as many as there are. -/
def pullFrom : Nat → Speaker → Array Float32 → Array Float32 × Speaker
  | 0, s, done => (done, s)
  | count + 1, s, done =>
    match s.pull with
    | (none, s) => (done, s)
    | (some sample, s) => pullFrom count s (done.push sample)

/-- At most `count` samples, as many as there are. -/
def pullMany (s : Speaker) (count : Nat) : Array Float32 × Speaker := pullFrom count s #[]

/-- Calls the device, unless the speaker has let go of it. -/
def tell (s : Speaker) (call : DeviceCall) : Speaker :=
  if s.isOpen then { s with calls := s.calls ++ [call] } else s

def pause (s : Speaker) : Speaker := s.tell .pause

def play (s : Speaker) : Speaker := s.tell .play

def finish (s : Speaker) : Speaker := { s with finished := true }

/-- Ends the sound, stops the device and lets go of it. -/
def close (s : Speaker) : Speaker := { s.finish.tell .stop with isOpen := false }

end Speaker

end Piezo
