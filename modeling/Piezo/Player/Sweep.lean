import Piezo.Clock
import Piezo.Player.Turn

/-!
Sweeps: a frequency that moves by equal steps, each held for the same time.

The first step that would pass the last frequency ends the sweep.
-/

namespace Piezo

/-- The frequencies and the pace of a sweep. -/
structure Ramp where
  first : UInt32
  last : UInt32
  step : Int32
  duration : UInt32
deriving DecidableEq, Repr

namespace Ramp

def check (range : FrequencyRange) (ramp : Ramp) : Except Error Unit := do
  range.check ramp.first
  range.check ramp.last
  if ramp.step = 0 then .error .zeroStep
  checkDuration ramp.duration

/-- The frequency one step on, unless it passes the last one in the direction of the step. -/
def next? (ramp : Ramp) (frequency : UInt32) : Option UInt32 :=
  let next : Int := frequency.toNat + ramp.step.toInt
  let past : Prop := if 0 < ramp.step.toInt then ramp.last.toNat < next else next < ramp.last.toNat
  if past then none else some (UInt32.ofNat next.toNat)

end Ramp

structure Sweep where
  ramp : Ramp
  frequency : UInt32
  since : UInt32
deriving DecidableEq, Repr

structure SweepPlayer where
  channel : Channel
  settings : Settings := {}
  sweep : Option Sweep := none
  lease : Option Lease := none
deriving DecidableEq, Repr

namespace SweepPlayer

def isActive (p : SweepPlayer) : Bool := p.sweep.isSome

def frequency? (p : SweepPlayer) : Option UInt32 := p.sweep.map (·.frequency)

/-- Silences the channel and gives it back. -/
def finish (p : SweepPlayer) (leases : Leases) (notices : List Notice) : Turn SweepPlayer where
  player := { p with sweep := none, lease := none }
  leases := leases.releaseAny p.lease
  commands := [.silence p.channel]
  notices := notices

def enter (p : SweepPlayer) (now : UInt32) (ramp : Ramp) (lease : Lease) (leases : Leases) :
    Turn SweepPlayer where
  player := { p with sweep := some ⟨ramp, ramp.first, now⟩, lease := some lease }
  leases := leases
  commands := [.emit p.channel ramp.first]
  notices := [.sweepStarted p.channel ramp.first ramp.last ramp.step ramp.duration]

/-- Sweeps along a ramp, in place of any sweep already there. -/
def start (p : SweepPlayer) (leases : Leases) (now : UInt32) (ramp : Ramp) :
    Attempt SweepPlayer :=
  Attempt.start p .sweep p.channel p.lease leases (ramp.check p.settings.range) (p.enter now ramp)

def tick (p : SweepPlayer) (leases : Leases) (now : UInt32) : Turn SweepPlayer :=
  match p.sweep with
  | none => { player := p, leases }
  | some sweep =>
    if Clock.elapsed now sweep.since < sweep.ramp.duration then { player := p, leases }
    else
      match sweep.ramp.next? sweep.frequency with
      | some frequency =>
        { player := { p with sweep := some { sweep with frequency, since := now } }
          leases
          commands := [.emit p.channel frequency] }
      | none => p.finish leases [.sweepFinished p.channel sweep.frequency]

def stop (p : SweepPlayer) (leases : Leases) : Turn SweepPlayer :=
  if p.isActive then p.finish leases [.stopped .sweep p.channel] else { player := p, leases }

end SweepPlayer

end Piezo
