import Piezo.Clock
import Piezo.Player.Turn

/-!
Tones: one frequency, or a rest, held for a fixed time.
-/

namespace Piezo

/-- A tone or a rest in progress. -/
structure Hold where
  /-- The frequency; 0 for a rest. -/
  frequency : UInt32
  duration : UInt32
  since : UInt32
deriving DecidableEq, Repr

namespace Hold

/-- A frequency must be in range unless it is a rest, and the time must not be zero. -/
def check (range : FrequencyRange) (frequency duration : UInt32) : Except Error Unit := do
  if frequency ≠ 0 then range.check frequency
  checkDuration duration

def command (channel : Channel) (frequency : UInt32) : Command :=
  if frequency = 0 then .silence channel else .emit channel frequency

def isOver (h : Hold) (now : UInt32) : Bool := h.duration ≤ Clock.elapsed now h.since

def remaining (h : Hold) (now : UInt32) : UInt32 :=
  Clock.remaining h.duration (Clock.elapsed now h.since)

end Hold

structure TonePlayer where
  channel : Channel
  settings : Settings := {}
  hold : Option Hold := none
  lease : Option Lease := none
deriving DecidableEq, Repr

namespace TonePlayer

def isActive (p : TonePlayer) : Bool := p.hold.isSome

/-- The frequency being held; 0 during a rest. -/
def frequency? (p : TonePlayer) : Option UInt32 := p.hold.map (·.frequency)

def remaining? (p : TonePlayer) (now : UInt32) : Option UInt32 := p.hold.map (·.remaining now)

/-- Lets go of the tone and gives the channel back, without a command. -/
def reset (p : TonePlayer) (leases : Leases) : Turn TonePlayer where
  player := { p with hold := none, lease := none }
  leases := leases.releaseAny p.lease

/-- Silences the channel and gives it back. -/
def finish (p : TonePlayer) (leases : Leases) (notices : List Notice) : Turn TonePlayer :=
  { p.reset leases with commands := [.silence p.channel], notices }

def sound (p : TonePlayer) (leases : Leases) (now frequency duration : UInt32) :
    Turn TonePlayer where
  player := { p with hold := some ⟨frequency, duration, now⟩ }
  leases := leases
  commands := [Hold.command p.channel frequency]

def enter (p : TonePlayer) (now frequency duration : UInt32) (lease : Lease) (leases : Leases) :
    Turn TonePlayer :=
  { { p with lease := some lease }.sound leases now frequency duration with
    notices := [.toneStarted p.channel frequency duration] }

/-- Holds a tone, in place of any tone already there. -/
def start (p : TonePlayer) (leases : Leases) (now frequency duration : UInt32) :
    Attempt TonePlayer :=
  Attempt.start p .tone p.channel p.lease leases
    (Hold.check p.settings.range frequency duration) (p.enter now frequency duration)

/-- Holds a tone for an owner that has the channel already; no lease is taken. -/
def playNote (p : TonePlayer) (leases : Leases) (now frequency duration : UInt32) :
    Except Error (Turn TonePlayer) := do
  Hold.check p.settings.range frequency duration
  return p.sound leases now frequency duration

def tick (p : TonePlayer) (leases : Leases) (now : UInt32) : Turn TonePlayer :=
  match p.hold with
  | none => { player := p, leases }
  | some hold => if hold.isOver now then p.finish leases [] else { player := p, leases }

def stop (p : TonePlayer) (leases : Leases) : Turn TonePlayer :=
  if p.isActive then p.finish leases [.stopped .tone p.channel] else { player := p, leases }

end TonePlayer

end Piezo
