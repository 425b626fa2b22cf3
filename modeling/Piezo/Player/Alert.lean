import Piezo.Clock
import Piezo.Player.Turn

/-!
Alerts: one frequency sounded a number of times, with silent gaps between.

The last tone ends the alert; no gap follows it.
-/

namespace Piezo

/-- The tones and gaps of an alert. -/
structure Pattern where
  count : UInt32
  frequency : UInt32
  duration : UInt32
  lapse : UInt32
deriving DecidableEq, Repr

namespace Pattern

def check (range : FrequencyRange) (pattern : Pattern) : Except Error Unit := do
  if pattern.count = 0 then .error .zeroCount
  range.check pattern.frequency
  checkDuration pattern.duration

end Pattern

inductive AlertPhase where
  | idle
  | sounding (pattern : Pattern) (since : UInt32)
  | gap (pattern : Pattern) (since : UInt32)
deriving DecidableEq, Repr

structure AlertPlayer where
  channel : Channel
  settings : Settings := {}
  phase : AlertPhase := .idle
  /-- Tones completed since the last start. -/
  completed : UInt32 := 0
  lease : Option Lease := none
deriving DecidableEq, Repr

namespace AlertPlayer

def isActive (p : AlertPlayer) : Bool := p.phase ≠ .idle

/-- Whether a tone sounds, as opposed to a gap. -/
def isToneOn (p : AlertPlayer) : Bool :=
  match p.phase with
  | .sounding .. => true
  | _ => false

/-- Silences the channel and gives it back. -/
def finish (p : AlertPlayer) (leases : Leases) (notices : List Notice) : Turn AlertPlayer where
  player := { p with phase := .idle, lease := none }
  leases := leases.releaseAny p.lease
  commands := [.silence p.channel]
  notices := notices

def enter (p : AlertPlayer) (now : UInt32) (pattern : Pattern) (lease : Lease) (leases : Leases) :
    Turn AlertPlayer where
  player := { p with phase := .sounding pattern now, completed := 0, lease := some lease }
  leases := leases
  commands := [.emit p.channel pattern.frequency]
  notices :=
    [.alertStarted p.channel pattern.count pattern.frequency pattern.duration pattern.lapse]

/-- Sounds a pattern, in place of any pattern already there. -/
def start (p : AlertPlayer) (leases : Leases) (now : UInt32) (pattern : Pattern) :
    Attempt AlertPlayer :=
  Attempt.start p .alert p.channel p.lease leases (pattern.check p.settings.range)
    (p.enter now pattern)

def tick (p : AlertPlayer) (leases : Leases) (now : UInt32) : Turn AlertPlayer :=
  match p.phase with
  | .idle => { player := p, leases }
  | .sounding pattern since =>
    if Clock.elapsed now since < pattern.duration then { player := p, leases }
    else
      let completed := p.completed + 1
      if pattern.count ≤ completed then
        { p with completed }.finish leases [.alertFinished p.channel]
      else
        { player := { p with completed, phase := .gap pattern now }
          leases
          commands := [.silence p.channel] }
  | .gap pattern since =>
    if Clock.elapsed now since < pattern.lapse then { player := p, leases }
    else
      { player := { p with phase := .sounding pattern now }
        leases
        commands := [.emit p.channel pattern.frequency] }

def stop (p : AlertPlayer) (leases : Leases) : Turn AlertPlayer :=
  if p.isActive then p.finish leases [.stopped .alert p.channel] else { player := p, leases }

end AlertPlayer

end Piezo
