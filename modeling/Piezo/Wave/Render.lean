import Piezo.Recording
import Piezo.Wave.Square

/-!
Rendering: the sound of one channel of a recording, as samples.

The samples cover the time from the channel's first event to the recording's clock. A sample obeys
the last event that is not later than its own millisecond, and each event starts a wave afresh.
-/

namespace Piezo.Wave

structure Voice where
  /-- Events not yet heard: their offsets from the first one, and the frequencies they ask for. -/
  pending : List (Nat × Option UInt32)
  frequency : Option UInt32 := none
  phase : Float := 0.0

namespace Voice

/-- Hears every pending event up to the first that is later than `ms`. -/
def catchUp (ms : Nat) : List (Nat × Option UInt32) → Option UInt32 → Float → Voice
  | [], frequency, phase => ⟨[], frequency, phase⟩
  | (offset, next) :: rest, frequency, phase =>
    if offset ≤ ms then catchUp ms rest next 0.0 else ⟨(offset, next) :: rest, frequency, phase⟩

def atTime (v : Voice) (ms : Nat) : Voice := catchUp ms v.pending v.frequency v.phase

def sample (v : Voice) (amplitude : Float32) : Float32 :=
  match v.frequency with
  | some _ => level v.phase amplitude
  | none => 0.0

def next (v : Voice) (rate : UInt32) : Voice :=
  match v.frequency with
  | some frequency => { v with phase := nextPhase v.phase frequency rate }
  | none => v

end Voice

/-- The millisecond in which a sample lies. -/
def sampleTime (rate : UInt32) (i : Nat) : Nat := i * 1000 / rate.toNat

/-- How many samples a number of milliseconds has room for. -/
def sampleCount (rate : UInt32) (ms : Nat) : Nat := ms * rate.toNat / 1000

/-- Appends `count` samples of a voice, of which `i` have gone before. -/
def samplesFrom (rate : UInt32) (amplitude : Float32) :
    Nat → Nat → Voice → Array Float32 → Array Float32
  | 0, _, _, done => done
  | count + 1, i, v, done =>
    let v := v.atTime (sampleTime rate i)
    samplesFrom rate amplitude count (i + 1) (v.next rate) (done.push (v.sample amplitude))

def channelEvents (r : Recording) (channel : Channel) : List Event :=
  r.events.toList.filter (·.channel = channel)

/-- The samples of one channel; none if nothing was ever recorded on it. -/
def render (r : Recording) (channel : Channel) (rate : UInt32) (amplitude : Float32) :
    Array Float32 :=
  match channelEvents r channel with
  | [] => #[]
  | first :: rest =>
    let offset (e : Event) := (Clock.elapsed e.time first.time).toNat
    let pending := (first :: rest).map fun e => (offset e, e.frequency?)
    let count := sampleCount rate (Clock.elapsed r.now first.time).toNat
    samplesFrom rate amplitude count 0 { pending } #[]

end Piezo.Wave
