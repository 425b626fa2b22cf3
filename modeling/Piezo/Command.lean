import Piezo.Channel

/-!
Commands to the output, and the table of what sounds after them.
-/

namespace Piezo

inductive Command where
  /-- Start a square wave on a channel, or retune the one that is there. -/
  | emit (channel : Channel) (frequency : UInt32)
  | silence (channel : Channel)
deriving DecidableEq, Repr

namespace Command

def channel : Command → Channel
  | .emit channel _ => channel
  | .silence channel => channel

def frequency? : Command → Option UInt32
  | .emit _ frequency => some frequency
  | .silence _ => none

end Command

/-- The channels that sound, each with its frequency, in the order of their numbers. -/
structure Soundings where
  entries : List (Channel × UInt32) := []
deriving DecidableEq, Repr

namespace Soundings

/-- The entries with one frequency put at a channel. -/
def put (channel : Channel) (frequency : UInt32) :
    List (Channel × UInt32) → List (Channel × UInt32)
  | [] => [(channel, frequency)]
  | (c, f) :: rest =>
    if channel.number < c.number then (channel, frequency) :: (c, f) :: rest
    else if channel = c then (channel, frequency) :: rest
    else (c, f) :: put channel frequency rest

def insert (s : Soundings) (channel : Channel) (frequency : UInt32) : Soundings :=
  ⟨put channel frequency s.entries⟩

def erase (s : Soundings) (channel : Channel) : Soundings :=
  ⟨s.entries.filter (·.1 ≠ channel)⟩

def get? (s : Soundings) (channel : Channel) : Option UInt32 :=
  (s.entries.find? (·.1 = channel)).map Prod.snd

def frequencies (s : Soundings) : List UInt32 := s.entries.map Prod.snd

def perform (s : Soundings) : Command → Soundings
  | .emit channel frequency => s.insert channel frequency
  | .silence channel => s.erase channel

@[simp] theorem get?_empty (channel : Channel) : ({} : Soundings).get? channel = none := rfl

theorem get?_insert (s : Soundings) (channel other : Channel) (frequency : UInt32) :
    (s.insert channel frequency).get? other =
      if other = channel then some frequency else s.get? other := by
  obtain ⟨entries⟩ := s
  simp only [insert, get?]
  induction entries with
  | nil => by_cases h : channel = other <;> simp [put, h, eq_comm]
  | cons entry rest ih =>
    obtain ⟨c, f⟩ := entry
    unfold put
    by_cases same : channel = c
    · subst same
      by_cases h : channel = other
      · simp [UInt8.lt_irrefl, h]
      · have : other ≠ channel := fun e => h e.symm
        simp [UInt8.lt_irrefl, h, this]
    · by_cases before : channel.number < c.number
      · rw [if_pos before]
        by_cases h : channel = other
        · simp [h]
        · have : other ≠ channel := fun e => h e.symm
          simp [h, this]
      · simp only [before, if_false, same]
        by_cases h : c = other
        · have : other ≠ channel := fun e => same (e.symm.trans h.symm)
          simp [h, this]
        · simpa [h] using ih

theorem get?_erase (s : Soundings) (channel other : Channel) :
    (s.erase channel).get? other = if other = channel then none else s.get? other := by
  obtain ⟨entries⟩ := s
  simp only [erase, get?, List.find?_filter]
  by_cases h : other = channel
  · subst h
    simp
  · simp only [h, if_false]
    congr 2
    funext entry
    by_cases e : entry.1 = other
    · simp [e, h]
    · simp [e]

end Soundings

end Piezo
