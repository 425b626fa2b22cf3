import Piezo.Clock
import Piezo.Command

/-!
Recordings: an output that only remembers.

A recording notes each command with the time of its own clock, and that clock moves only when it is
told to. `runUntilIdle` drives a machine against one.
-/

namespace Piezo

open Text

/-- A command and the time at which it was issued. -/
structure Event where
  time : UInt32
  command : Command
deriving DecidableEq, Repr

namespace Event

def channel (e : Event) : Channel := e.command.channel

def frequency? (e : Event) : Option UInt32 := e.command.frequency?

def text (e : Event) : String :=
  Decimal.padded 7 e.time.toNat ++ " ms  " ++ e.channel.text ++
    match e.frequency? with
    | some frequency => "  tone " ++ Decimal.text frequency.toNat ++ " Hz"
    | none => "  silence"

end Event

structure Recording where
  now : UInt32 := 0
  events : Array Event := #[]
  sounding : Soundings := {}

namespace Recording

/-- Moves the clock on; it wraps. -/
def advance (r : Recording) (ms : UInt32) : Recording := { r with now := r.now + ms }

def setTime (r : Recording) (now : UInt32) : Recording := { r with now }

def perform (r : Recording) (command : Command) : Recording :=
  { r with
    events := r.events.push ⟨r.now, command⟩
    sounding := r.sounding.perform command }

def performAll (r : Recording) (commands : List Command) : Recording :=
  commands.foldl perform r

/-- Forgets the events, but neither the time nor what sounds. -/
def clear (r : Recording) : Recording := { r with events := #[] }

/-- All frequencies that were emitted, in order. -/
def frequencies (r : Recording) : List UInt32 := r.events.toList.filterMap Event.frequency?

def emitCount (r : Recording) : Nat := r.frequencies.length

def silenceCount (r : Recording) : Nat := r.events.size - r.emitCount

end Recording

/-- Anything that can be ticked until it is idle. -/
structure Machine (State : Type) where
  isActive : State → Bool
  /-- The state after a tick at a time, and the commands that it issues. -/
  tick : State → UInt32 → State × List Command

structure Run (State : Type) where
  state : State
  recording : Recording
  spent : UInt32

namespace Machine

variable {State : Type}

theorem remaining_lt {spent limit step : UInt32} (h : spent < limit) (positive : 0 < step) :
    limit.toNat - (Clock.addCapped spent step).toNat < limit.toNat - spent.toNat := by
  rw [UInt32.lt_iff_toNat_lt] at h positive
  have := limit.toNat_lt
  rw [Clock.toNat_addCapped, UInt32.size]
  simp only [UInt32.reduceToNat] at positive
  omega

def resume (m : Machine State) (step limit : UInt32) (positive : 0 < step) (run : Run State) :
    Run State :=
  if m.isActive run.state ∧ run.spent < limit then
    let recording := run.recording.advance step
    let (state, commands) := m.tick run.state recording.now
    m.resume step limit positive
      ⟨state, recording.performAll commands, Clock.addCapped run.spent step⟩
  else run
termination_by limit.toNat - run.spent.toNat
decreasing_by exact remaining_lt (by simp_all) positive

/-- Moves the clock by `step` and ticks, over and over, until the machine is idle or `limit` is
spent. A step of zero counts as one. -/
def runUntilIdle (m : Machine State) (step limit : UInt32) (state : State)
    (recording : Recording) : Run State :=
  m.resume (if step = 0 then 1 else step) limit
    (by split
        · decide
        · next h => exact UInt32.pos_iff_ne_zero.mpr h)
    ⟨state, recording, 0⟩

end Machine

end Piezo
