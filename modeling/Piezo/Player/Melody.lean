import Piezo.Player.Tone
import Piezo.Tune

/-!
Melodies played note by note.

Each note is held for its length, then a settling margin passes before the next one begins, so that
two notes of one pitch are heard as two. Only ticks move a melody on, by one note at most each.
The notes are held by a tone player that takes no lease of its own.
-/

namespace Piezo

/-- A melody without notes cannot be played. -/
def Melody.check (m : Melody) : Except Error Unit :=
  if m.size = 0 then .error .emptyMelody else .ok ()

/-- How far the playing of a melody has come. -/
structure Playback where
  melody : Melody
  index : Nat
  /-- The pass that is current, from 0. -/
  pass : UInt8
  passes : UInt8
  since : UInt32
deriving DecidableEq, Repr

namespace Playback

def note? (p : Playback) : Option Note := p.melody.notes[p.index]?

/-- The note after the current one, of this pass or the next, begun now; none after the last. -/
def next? (p : Playback) (now : UInt32) : Option Playback :=
  if p.index + 1 < p.melody.size then some { p with index := p.index + 1, since := now }
  else if p.pass + 1 < p.passes then
    some { p with index := 0, pass := p.pass + 1, since := now }
  else none

end Playback

/-- Plays a melody a number of times. -/
structure MelodyPlayer where
  /-- Holds the current note, on the melody's own lease. -/
  tone : TonePlayer
  playback : Option Playback := none
  lease : Option Lease := none
  /-- Counts the notes begun since the last start; it wraps. -/
  counted : UInt32 := 0
deriving DecidableEq, Repr

namespace MelodyPlayer

def channel (p : MelodyPlayer) : Channel := p.tone.channel

def settings (p : MelodyPlayer) : Settings := p.tone.settings

def isActive (p : MelodyPlayer) : Bool := p.playback.isSome

/-- How many notes have begun since the last start, as far as they can be counted. -/
def begun (p : MelodyPlayer) : Nat := p.counted.toNat

/-- From the beginning of a note to the earliest beginning of the next. -/
def wait (p : MelodyPlayer) (note : Note) : UInt32 :=
  Clock.addCapped note.duration.toUInt32 p.settings.settleMargin

/-- Begins a note. One that cannot be played is a silence. -/
def play (p : MelodyPlayer) (leases : Leases) (now : UInt32) (note : Note) :
    Turn MelodyPlayer :=
  let p := { p with counted := p.counted + 1 }
  match p.tone.playNote leases now note.frequency note.duration.toUInt32 with
  | .ok turn => turn.map fun tone => { p with tone }
  | .error error =>
    { (p.tone.reset leases).map fun tone => { p with tone } with
      commands := [.silence p.channel]
      notices := [.notPlayed p.channel note error] }

/-- Silences the channel, gives it back and lets go of the melody. -/
def finish (p : MelodyPlayer) (leases : Leases) (ending : Ending) : Turn MelodyPlayer :=
  let reset := p.tone.reset leases
  { player := { p with tone := reset.player, playback := none, lease := none }
    leases := reset.leases.releaseAny p.lease
    commands := [.silence p.channel]
    notices := p.playback.toList.map fun playback =>
      .melodyEnded p.channel ending p.begun playback.melody.isOwned }

/-- Begins the first note of a melody on a lease; no repeats count as one. -/
def enter (p : MelodyPlayer) (now : UInt32) (melody : Melody) (repeats : UInt8) (lease : Lease)
    (leases : Leases) : Turn MelodyPlayer :=
  let passes := max repeats 1
  let playback : Playback := ⟨melody, 0, 0, passes, now⟩
  let p := { p with playback := some playback, lease := some lease, counted := 0 }
  let turn := p.play leases now (playback.note?.getD default)
  { turn with
    notices := .melodyStarted p.channel melody.size passes melody.isOwned :: turn.notices }

/-- Plays a melody from its first note, in place of any melody already there. -/
def start (p : MelodyPlayer) (leases : Leases) (now : UInt32) (melody : Melody) (repeats : UInt8) :
    Attempt MelodyPlayer :=
  Attempt.start p .melody p.channel p.lease leases melody.check (p.enter now melody repeats)

def startTune (p : MelodyPlayer) (leases : Leases) (now : UInt32) (source : Tune.Source)
    (repeats : UInt8) : Attempt MelodyPlayer :=
  let reading := Tune.notices p.settings source
  match Tune.read p.settings source with
  | .error error => { player := p, leases, notices := reading, verdict := .error error }
  | .ok tune =>
    let attempt := p.start leases now tune.melody repeats
    { attempt with notices := reading ++ attempt.notices }

/-- Ends the current note's tone if its time is over. -/
def settle (p : MelodyPlayer) (leases : Leases) (now : UInt32) : Turn MelodyPlayer :=
  (p.tone.tick leases now).map fun tone => { p with tone }

/-- Goes on to the next note, or finishes after the last, if the current note's time and margin are
over. -/
def advance (p : MelodyPlayer) (leases : Leases) (now : UInt32) : Turn MelodyPlayer :=
  match p.playback with
  | none => { player := p, leases }
  | some playback =>
    if Clock.elapsed now playback.since < p.wait (playback.note?.getD default) then
      { player := p, leases }
    else
      match playback.next? now with
      | none => p.finish leases .finished
      | some playback =>
        { p with playback := some playback }.play leases now (playback.note?.getD default)

def tick (p : MelodyPlayer) (leases : Leases) (now : UInt32) : Turn MelodyPlayer :=
  if p.isActive then
    let settled := p.settle leases now
    let advanced := settled.player.advance settled.leases now
    { advanced with
      commands := settled.commands ++ advanced.commands
      notices := settled.notices ++ advanced.notices }
  else { player := p, leases }

def stop (p : MelodyPlayer) (leases : Leases) : Turn MelodyPlayer :=
  if p.isActive then p.finish leases .stopped else { player := p, leases }

end MelodyPlayer

end Piezo
