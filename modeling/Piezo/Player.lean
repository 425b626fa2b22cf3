import Piezo.Player.Alert
import Piezo.Player.Melody
import Piezo.Player.Siren
import Piezo.Player.Sweep

/-!
Players: small state machines that drive one channel each.

A start checks what is asked for, takes the channel and issues the first command; a tick compares
the clock with the time of the last change and moves the machine on. Nothing waits. An idle player
does nothing when it is ticked or stopped.
-/

namespace Piezo

inductive Player where
  | tone (player : TonePlayer)
  | melody (player : MelodyPlayer)
  | alert (player : AlertPlayer)
  | sweep (player : SweepPlayer)
  | siren (player : SirenPlayer)
deriving DecidableEq, Repr

inductive Request where
  | tone (frequency duration : UInt32)
  | melody (melody : Melody) (repeats : UInt8)
  | tune (source : Tune.Source) (repeats : UInt8)
  | alert (pattern : Pattern)
  | sweep (ramp : Ramp)
  | siren (wail : Wail)

namespace Attempt

variable {α β : Type}

def map (f : α → β) (a : Attempt α) : Attempt β :=
  { a.toTurn.map f with verdict := a.verdict }

end Attempt

namespace Player

/-- A player that has played nothing yet. -/
def idle (kind : Kind) (channel : Channel) (settings : Settings) : Player :=
  match kind with
  | .tone => .tone { channel, settings }
  | .melody => .melody { tone := { channel, settings } }
  | .alert => .alert { channel, settings }
  | .sweep => .sweep { channel, settings }
  | .siren => .siren { channel, settings }

def kind : Player → Kind
  | .tone _ => .tone
  | .melody _ => .melody
  | .alert _ => .alert
  | .sweep _ => .sweep
  | .siren _ => .siren

def channel : Player → Channel
  | .tone p => p.channel
  | .melody p => p.channel
  | .alert p => p.channel
  | .sweep p => p.channel
  | .siren p => p.channel

def isActive : Player → Bool
  | .tone p => p.isActive
  | .melody p => p.isActive
  | .alert p => p.isActive
  | .sweep p => p.isActive
  | .siren p => p.isActive

def lease : Player → Option Lease
  | .tone p => p.lease
  | .melody p => p.lease
  | .alert p => p.lease
  | .sweep p => p.lease
  | .siren p => p.lease

/-- Starts what is asked for, if the player is of the kind that plays it. -/
def start? (p : Player) (leases : Leases) (now : UInt32) (request : Request) :
    Option (Attempt Player) :=
  match p, request with
  | .tone p, .tone frequency duration =>
    some ((p.start leases now frequency duration).map .tone)
  | .melody p, .melody m repeats => some ((p.start leases now m repeats).map .melody)
  | .melody p, .tune source repeats => some ((p.startTune leases now source repeats).map .melody)
  | .alert p, .alert pattern => some ((p.start leases now pattern).map .alert)
  | .sweep p, .sweep ramp => some ((p.start leases now ramp).map .sweep)
  | .siren p, .siren wail => some ((p.start leases now wail).map .siren)
  | _, _ => none

def tick (p : Player) (leases : Leases) (now : UInt32) : Turn Player :=
  match p with
  | .tone p => (p.tick leases now).map .tone
  | .melody p => (p.tick leases now).map .melody
  | .alert p => (p.tick leases now).map .alert
  | .sweep p => (p.tick leases now).map .sweep
  | .siren p => (p.tick leases now).map .siren

def stop (p : Player) (leases : Leases) : Turn Player :=
  match p with
  | .tone p => (p.stop leases).map .tone
  | .melody p => (p.stop leases).map .melody
  | .alert p => (p.stop leases).map .alert
  | .sweep p => (p.stop leases).map .sweep
  | .siren p => (p.stop leases).map .siren

/-- What becomes of the lease table when the player is dropped. -/
def drop (p : Player) (leases : Leases) : Leases := leases.releaseAny p.lease

end Player

namespace Request

def kind : Request → Kind
  | .tone .. => .tone
  | .melody .. | .tune .. => .melody
  | .alert _ => .alert
  | .sweep _ => .sweep
  | .siren _ => .siren

end Request

end Piezo
