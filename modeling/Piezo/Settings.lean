import Piezo.Error

/-!
Settings: the limits and timing constants that the parser and the players share.

Every field has a default that suits common hardware. Any values can be put together; `validate`
says which of them a program may run with.
-/

namespace Piezo

/-- The frequencies that an output accepts, both ends included. -/
structure FrequencyRange where
  min : UInt32 := 31
  max : UInt32 := 65535
deriving DecidableEq, Repr

namespace FrequencyRange

def contains (r : FrequencyRange) (frequency : UInt32) : Bool :=
  r.min ≤ frequency && frequency ≤ r.max

def check (r : FrequencyRange) (frequency : UInt32) : Except Error Unit :=
  if r.contains frequency then .ok () else .error (.frequencyOutOfRange frequency r.min r.max)

end FrequencyRange

/-- How much of a tune is read. -/
structure Limits where
  /-- Notes kept; any further ones are dropped. -/
  notes : UInt64 := 100
  /-- Bytes of text kept. -/
  bytes : UInt64 := 255
deriving DecidableEq, Repr

structure Settings where
  range : FrequencyRange := {}
  /-- Milliseconds that a melody waits after each note before the next one. -/
  settleMargin : UInt32 := 50
  /-- A siren flips this many times in its total time. -/
  sirenDivisions : UInt32 := 10
  limits : Limits := {}
deriving DecidableEq, Repr

namespace Settings

/-- The most bytes of text that valid settings may ask for. -/
def mostBytes : Nat := 65536

/-- The first fault, in the order in which they are reported. -/
def fault? (s : Settings) : Option SettingsFault :=
  if s.range.min = 0 then some .zeroMinimum
  else if s.range.max < s.range.min then some (.emptyRange s.range.min s.range.max)
  else if s.sirenDivisions = 0 then some .zeroDivisions
  else if s.limits.notes = 0 ∨ s.limits.bytes = 0 then some .zeroLimits
  else if mostBytes < s.limits.bytes.toNat then some (.sourceLimit s.limits.bytes.toNat mostBytes)
  else none

def validate (s : Settings) : Except Error Unit :=
  match s.fault? with
  | some fault => .error (.settings fault)
  | none => .ok ()

end Settings

end Piezo
