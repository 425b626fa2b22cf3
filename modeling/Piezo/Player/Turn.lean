import Piezo.Command
import Piezo.Lease
import Piezo.Notice
import Piezo.Settings

/-!
Turns: what one call on a player yields.

A player never acts by itself. A call gives it the lease table and the clock's reading, which holds
for the whole call, and gets back the player and the table as they are afterwards, the commands for
the output in order, and the notices.
-/

namespace Piezo

/-- A player and its surroundings after a call. -/
structure Turn (Player : Type) where
  player : Player
  leases : Leases
  commands : List Command := []
  notices : List Notice := []

/-- A turn that may have been refused. -/
structure Attempt (Player : Type) extends Turn Player where
  verdict : Except Error Unit

namespace Turn

variable {α β : Type}

def map (f : α → β) (t : Turn α) : Turn β :=
  { player := f t.player, leases := t.leases, commands := t.commands, notices := t.notices }

end Turn

/-- No player holds a tone, or repeats one, for no time at all. -/
def checkDuration (duration : UInt32) : Except Error Unit :=
  if duration = 0 then .error .zeroDuration else .ok ()

namespace Attempt

variable {Player : Type}

/-- A start goes through its checks first and takes the channel last, unless the player has it
already. A failed check is noted, a busy channel is not, and neither changes anything. -/
def start (player : Player) (kind : Kind) (channel : Channel) (held : Option Lease)
    (leases : Leases) (checked : Except Error Unit) (enter : Lease → Leases → Turn Player) :
    Attempt Player :=
  match checked with
  | .error error => ⟨⟨player, leases, [], [.refused kind channel error]⟩, .error error⟩
  | .ok () =>
    match leases.secure held channel with
    | .error error => ⟨⟨player, leases, [], []⟩, .error error⟩
    | .ok (lease, leases) => ⟨enter lease leases, .ok ()⟩

/-- A start is refused by a check, or refused because the channel is taken, or goes on with the
channel's lease. -/
theorem start_cases (player : Player) (kind : Kind) (channel : Channel) (held : Option Lease)
    (leases : Leases) (checked : Except Error Unit) (enter : Lease → Leases → Turn Player) :
    (∃ error, checked = .error error ∧
        start player kind channel held leases checked enter =
          ⟨⟨player, leases, [], [.refused kind channel error]⟩, .error error⟩) ∨
      (checked = .ok () ∧ ∃ error, leases.secure held channel = .error error ∧
        start player kind channel held leases checked enter =
          ⟨⟨player, leases, [], []⟩, .error error⟩) ∨
      (checked = .ok () ∧ ∃ lease t, leases.secure held channel = .ok (lease, t) ∧
        start player kind channel held leases checked enter = ⟨enter lease t, .ok ()⟩) := by
  cases checked with
  | error error => exact .inl ⟨error, rfl, rfl⟩
  | ok done =>
    cases hs : leases.secure held channel with
    | error error => exact .inr (.inl ⟨rfl, error, rfl, by simp only [start, hs]⟩)
    | ok secured => exact .inr (.inr ⟨rfl, secured.1, secured.2, rfl, by simp only [start, hs]⟩)

/-- What holds of the player left alone, whatever is noted of it, and of the way on once the checks
are passed, holds of every start. -/
theorem start_meets {player : Player} {kind : Kind} {channel : Channel} {held : Option Lease}
    {leases : Leases} {checked : Except Error Unit} {enter : Lease → Leases → Turn Player}
    {P : Turn Player → Prop} (refused : ∀ notices, P { player, leases, notices })
    (entered : checked = .ok () → ∀ lease t, P (enter lease t)) :
    P (start player kind channel held leases checked enter).toTurn := by
  obtain ⟨error, -, hs⟩ | ⟨-, error, -, hs⟩ | ⟨hc, lease, t, -, hs⟩ :=
    start_cases player kind channel held leases checked enter
  · rw [hs]
    exact refused _
  · rw [hs]
    exact refused []
  · rw [hs]
    exact entered hc lease t

/-- What is let in has passed the checks and goes on with a lease. -/
theorem entered {player : Player} {kind : Kind} {channel : Channel} {held : Option Lease}
    {leases : Leases} {checked : Except Error Unit} {enter : Lease → Leases → Turn Player}
    (h : (start player kind channel held leases checked enter).verdict = .ok ()) :
    checked = .ok () ∧ ∃ lease t,
      (start player kind channel held leases checked enter).toTurn = enter lease t := by
  obtain ⟨error, -, hs⟩ | ⟨-, error, -, hs⟩ | ⟨hc, lease, t, -, hs⟩ :=
    start_cases player kind channel held leases checked enter
  · simp [hs] at h
  · simp [hs] at h
  · exact ⟨hc, lease, t, by rw [hs]⟩

end Attempt

end Piezo
