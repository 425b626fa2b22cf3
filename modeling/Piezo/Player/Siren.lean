import Piezo.Clock
import Piezo.Player.Turn

/-!
Sirens: two frequencies in turn for a total time.

The low one comes first, and they change places each time a fixed part of the total has passed.
-/

namespace Piezo

/-- The frequencies and the total time of a siren. -/
structure Wail where
  low : UInt32
  high : UInt32
  total : UInt32
deriving DecidableEq, Repr

namespace Wail

def check (range : FrequencyRange) (wail : Wail) : Except Error Unit := do
  range.check wail.low
  range.check wail.high
  checkDuration wail.total

/-- Milliseconds from one flip to the next, at least one; no division counts as a single one. -/
def interval (wail : Wail) (divisions : UInt32) : UInt32 :=
  max (wail.total / max divisions 1) 1

end Wail

structure Alternation where
  wail : Wail
  interval : UInt32
  since : UInt32
  flipped : UInt32
  isLow : Bool
deriving DecidableEq, Repr

namespace Alternation

def frequency (a : Alternation) : UInt32 := if a.isLow then a.wail.low else a.wail.high

/-- The other frequency, from now on. -/
def flip (a : Alternation) (now : UInt32) : Alternation :=
  { a with isLow := !a.isLow, flipped := now }

end Alternation

structure SirenPlayer where
  channel : Channel
  settings : Settings := {}
  alternation : Option Alternation := none
  lease : Option Lease := none
deriving DecidableEq, Repr

namespace SirenPlayer

def isActive (p : SirenPlayer) : Bool := p.alternation.isSome

def frequency? (p : SirenPlayer) : Option UInt32 := p.alternation.map (·.frequency)

/-- Silences the channel and gives it back. -/
def finish (p : SirenPlayer) (leases : Leases) (notices : List Notice) : Turn SirenPlayer where
  player := { p with alternation := none, lease := none }
  leases := leases.releaseAny p.lease
  commands := [.silence p.channel]
  notices := notices

def enter (p : SirenPlayer) (now : UInt32) (wail : Wail) (lease : Lease) (leases : Leases) :
    Turn SirenPlayer :=
  let interval := wail.interval p.settings.sirenDivisions
  { player := { p with alternation := some ⟨wail, interval, now, now, true⟩, lease := some lease }
    leases
    commands := [.emit p.channel wail.low]
    notices := [.sirenStarted p.channel wail.low wail.high wail.total interval] }

/-- Wails for a total time, in place of any siren already there. -/
def start (p : SirenPlayer) (leases : Leases) (now : UInt32) (wail : Wail) :
    Attempt SirenPlayer :=
  Attempt.start p .siren p.channel p.lease leases (wail.check p.settings.range) (p.enter now wail)

def tick (p : SirenPlayer) (leases : Leases) (now : UInt32) : Turn SirenPlayer :=
  match p.alternation with
  | none => { player := p, leases }
  | some alternation =>
    if alternation.wail.total ≤ Clock.elapsed now alternation.since then
      p.finish leases [.sirenFinished p.channel]
    else if alternation.interval ≤ Clock.elapsed now alternation.flipped then
      let alternation := alternation.flip now
      { player := { p with alternation := some alternation }
        leases
        commands := [.emit p.channel alternation.frequency] }
    else { player := p, leases }

def stop (p : SirenPlayer) (leases : Leases) : Turn SirenPlayer :=
  if p.isActive then p.finish leases [.stopped .siren p.channel] else { player := p, leases }

end SirenPlayer

end Piezo
