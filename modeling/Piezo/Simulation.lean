import Piezo.Player
import Piezo.Recording

/-!
Simulations: players driven against recordings.
-/

namespace Piezo

/-- A player that is being driven, its lease table, and the notices it has given. -/
structure Driven where
  player : Player
  leases : Leases
  notices : List Notice := []

namespace Player

/-- A player as something that can be ticked until it is idle. -/
def machine : Machine Driven where
  isActive d := d.player.isActive
  tick d now :=
    let turn := d.player.tick d.leases now
    (⟨turn.player, turn.leases, d.notices ++ turn.notices⟩, turn.commands)

/-- Ticks a player every `step` milliseconds until it is idle or `limit` milliseconds are spent. -/
def runUntilIdle (p : Player) (leases : Leases) (step limit : UInt32) (recording : Recording) :
    Run Driven :=
  machine.runUntilIdle step limit ⟨p, leases, []⟩ recording

end Player

end Piezo
