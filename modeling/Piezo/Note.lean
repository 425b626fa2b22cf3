import Piezo.Text.Decimal

/-!
Notes and melodies.
-/

namespace Piezo

open Text

/-- A pitch in hertz held for some milliseconds; the frequency 0 is a rest. -/
structure Note where
  frequency : UInt32 := 0
  duration : UInt16 := 0
deriving DecidableEq, Repr, Inhabited

namespace Note

def rest (duration : UInt16) : Note := { duration }

def isRest (n : Note) : Bool := n.frequency = 0

def text (n : Note) : String :=
  let length := Decimal.text n.duration.toNat ++ "ms"
  if n.isRest then "rest " ++ length else Decimal.text n.frequency.toNat ++ "Hz " ++ length

end Note

/-- Who keeps a melody's notes. -/
inductive Keeping where
  /-- The caller keeps them, for any number of plays. -/
  | shared
  /-- Whoever holds the melody has the only copy and lets go of it when playback ends. -/
  | owned
deriving DecidableEq, Repr

structure Melody where
  notes : Array Note
  keeping : Keeping := .owned
deriving DecidableEq, Repr

namespace Melody

def size (m : Melody) : Nat := m.notes.size

def isOwned (m : Melody) : Bool := m.keeping = .owned

/-- Milliseconds that the notes of one pass last. -/
def duration (m : Melody) : Nat := m.notes.foldl (fun ms n => ms + n.duration.toNat) 0

end Melody

end Piezo
