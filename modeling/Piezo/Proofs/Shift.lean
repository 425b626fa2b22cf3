import Piezo.Simulation
import Piezo.Wave.Render

/-!
Shifted time: players and recordings as they would be if the clock had shown another value from the
beginning.

Every time that is kept is only ever subtracted from the clock's reading, so a shift of both, which
may wrap, is noticed by no call.
-/

namespace Piezo

variable (d : UInt32)

@[simp] theorem Clock.elapsed_shift (now since : UInt32) :
    elapsed (now + d) (since + d) = elapsed now since := by
  unfold elapsed
  grind

/-- A turn of a renamed player is renamed along with it. -/
theorem Attempt.start_map {α β : Type} (f : α → β) (p : α) (kind : Kind) (channel : Channel)
    (held : Option Lease) (leases : Leases) (checked : Except Error Unit)
    {enter : Lease → Leases → Turn α} {enter' : Lease → Leases → Turn β}
    (h : ∀ lease t, enter' lease t = (enter lease t).map f) :
    start (f p) kind channel held leases checked enter' =
      (start p kind channel held leases checked enter).map f := by
  unfold start
  cases checked with
  | error error => rfl
  | ok =>
    cases leases.secure held channel with
    | error error => rfl
    | ok secured =>
      simp only [h]
      rfl

/-- A hold that began later by a shift of the clock. -/
def Hold.shift (h : Hold) : Hold := { h with since := h.since + d }

namespace TonePlayer

def shift (p : TonePlayer) : TonePlayer := { p with hold := p.hold.map (Hold.shift d) }

variable (p : TonePlayer) (leases : Leases) (now : UInt32)

theorem start_shift (frequency duration : UInt32) :
    (p.shift d).start leases (now + d) frequency duration =
      (p.start leases now frequency duration).map (shift d) :=
  Attempt.start_map (shift d) p _ _ _ _ _ fun _ _ => rfl

theorem playNote_shift (frequency duration : UInt32) :
    (p.shift d).playNote leases (now + d) frequency duration =
      (p.playNote leases now frequency duration).map (Turn.map (shift d)) := by
  unfold playNote
  change (Hold.check p.settings.range frequency duration).bind _ = _
  cases Hold.check p.settings.range frequency duration <;> rfl

theorem tick_shift :
    (p.shift d).tick leases (now + d) = (p.tick leases now).map (shift d) := by
  unfold tick
  cases hp : p.hold with
  | none => simp [shift, hp, Turn.map]
  | some h =>
    have hq : (p.shift d).hold = some (h.shift d) := by simp [shift, hp]
    have ho : (h.shift d).isOver (now + d) = h.isOver now := by simp [Hold.isOver, Hold.shift]
    simp only [hq, ho]
    split <;> rfl

theorem stop_shift : (p.shift d).stop leases = (p.stop leases).map (shift d) := by
  unfold stop isActive
  cases hp : p.hold <;> simp [shift, hp, Turn.map, finish, reset]

end TonePlayer

/-- A playing whose current note began later by a shift of the clock. -/
def Playback.shift (b : Playback) : Playback := { b with since := b.since + d }

namespace MelodyPlayer

def shift (p : MelodyPlayer) : MelodyPlayer :=
  { p with tone := p.tone.shift d, playback := p.playback.map (Playback.shift d) }

variable (p : MelodyPlayer) (leases : Leases) (now : UInt32)

theorem play_shift (note : Note) :
    (p.shift d).play leases (now + d) note = (p.play leases now note).map (shift d) := by
  unfold play
  simp only [shift, TonePlayer.playNote_shift]
  cases p.tone.playNote leases now note.frequency note.duration.toUInt32 <;> rfl

theorem finish_shift (ending : Ending) :
    (p.shift d).finish leases ending = (p.finish leases ending).map (shift d) := by
  unfold finish
  cases hp : p.playback <;> simp [shift, hp, Turn.map, TonePlayer.shift, TonePlayer.reset, channel,
    begun, Playback.shift]

theorem start_shift (m : Melody) (repeats : UInt8) :
    (p.shift d).start leases (now + d) m repeats =
      (p.start leases now m repeats).map (shift d) := by
  refine Attempt.start_map (shift d) p _ _ _ _ _ fun lease t => ?_
  unfold enter
  dsimp only
  have h := play_shift d
    { p with playback := some ⟨m, 0, 0, max repeats 1, now⟩, lease := some lease, counted := 0 }
    t now (Playback.note? ⟨m, 0, 0, max repeats 1, now⟩ |>.getD default)
  exact congrArg
    (fun turn : Turn MelodyPlayer =>
      { turn with
        notices :=
          .melodyStarted p.channel m.size (max repeats 1) m.isOwned :: turn.notices }) h

theorem startTune_shift (source : Tune.Source) (repeats : UInt8) :
    (p.shift d).startTune leases (now + d) source repeats =
      (p.startTune leases now source repeats).map (shift d) := by
  have hread : Tune.read (p.shift d).settings source = Tune.read p.settings source := rfl
  unfold startTune
  rw [hread]
  cases Tune.read p.settings source with
  | error error => rfl
  | ok tune =>
    simp only [start_shift]
    rfl

theorem settle_shift :
    (p.shift d).settle leases (now + d) = (p.settle leases now).map (shift d) := by
  unfold settle
  simp only [shift, TonePlayer.tick_shift]
  rfl

theorem next?_shift (b : Playback) :
    (b.shift d).next? (now + d) = (b.next? now).map (Playback.shift d) := by
  unfold Playback.next? Playback.shift
  split
  · simp
  · split <;> simp

theorem advance_shift :
    (p.shift d).advance leases (now + d) = (p.advance leases now).map (shift d) := by
  unfold advance
  cases hp : p.playback with
  | none => simp [shift, hp, Turn.map]
  | some b =>
    have hnote : (b.shift d).note? = b.note? := rfl
    have hwait (n : Note) : (p.shift d).wait n = p.wait n := rfl
    have hsince : (b.shift d).since = b.since + d := rfl
    have hq : (p.shift d).playback = some (b.shift d) := by simp [shift, hp]
    simp only [hq, hnote, hwait, hsince, Clock.elapsed_shift, next?_shift]
    split
    · simp [Turn.map]
    · cases b.next? now with
      | none => exact finish_shift d p leases .finished
      | some c => exact play_shift d { p with playback := some c } leases now _

theorem tick_shift :
    (p.shift d).tick leases (now + d) = (p.tick leases now).map (shift d) := by
  unfold tick
  have hactive : (p.shift d).isActive = p.isActive := by simp [isActive, shift]
  rw [hactive]
  split
  · simp only [settle_shift, Turn.map, advance_shift]
  · rfl

theorem stop_shift : (p.shift d).stop leases = (p.stop leases).map (shift d) := by
  unfold stop
  have hactive : (p.shift d).isActive = p.isActive := by simp [isActive, shift]
  rw [hactive]
  split
  · exact finish_shift d p leases .stopped
  · rfl

end MelodyPlayer

def AlertPhase.shift : AlertPhase → AlertPhase
  | .idle => .idle
  | .sounding pattern since => .sounding pattern (since + d)
  | .gap pattern since => .gap pattern (since + d)

namespace AlertPlayer

def shift (p : AlertPlayer) : AlertPlayer := { p with phase := p.phase.shift d }

variable (p : AlertPlayer) (leases : Leases) (now : UInt32)

theorem start_shift (pattern : Pattern) :
    (p.shift d).start leases (now + d) pattern = (p.start leases now pattern).map (shift d) :=
  Attempt.start_map (shift d) p _ _ _ _ _ fun _ _ => rfl

theorem tick_shift :
    (p.shift d).tick leases (now + d) = (p.tick leases now).map (shift d) := by
  unfold tick
  cases hp : p.phase with
  | idle => simp [shift, hp, AlertPhase.shift, Turn.map]
  | sounding pattern since =>
    have hq : (p.shift d).phase = .sounding pattern (since + d) := by
      simp [shift, hp, AlertPhase.shift]
    have hc : (p.shift d).completed = p.completed := rfl
    simp only [hq, hc, Clock.elapsed_shift]
    split
    · rfl
    · split <;> rfl
  | gap pattern since =>
    have hq : (p.shift d).phase = .gap pattern (since + d) := by simp [shift, hp, AlertPhase.shift]
    simp only [hq, Clock.elapsed_shift]
    split <;> rfl

theorem stop_shift : (p.shift d).stop leases = (p.stop leases).map (shift d) := by
  unfold stop isActive
  cases hp : p.phase <;> simp [shift, hp, AlertPhase.shift, Turn.map, finish]

end AlertPlayer

def Sweep.shift (s : Sweep) : Sweep := { s with since := s.since + d }

namespace SweepPlayer

def shift (p : SweepPlayer) : SweepPlayer := { p with sweep := p.sweep.map (Sweep.shift d) }

variable (p : SweepPlayer) (leases : Leases) (now : UInt32)

theorem start_shift (ramp : Ramp) :
    (p.shift d).start leases (now + d) ramp = (p.start leases now ramp).map (shift d) :=
  Attempt.start_map (shift d) p _ _ _ _ _ fun _ _ => rfl

theorem tick_shift :
    (p.shift d).tick leases (now + d) = (p.tick leases now).map (shift d) := by
  unfold tick
  cases hp : p.sweep with
  | none => simp [shift, hp, Turn.map]
  | some s =>
    have hq : (p.shift d).sweep = some (s.shift d) := by simp [shift, hp]
    simp only [hq, Sweep.shift, Clock.elapsed_shift]
    split
    · rfl
    · cases s.ramp.next? s.frequency <;> rfl

theorem stop_shift : (p.shift d).stop leases = (p.stop leases).map (shift d) := by
  unfold stop isActive
  cases hp : p.sweep <;> simp [shift, hp, Turn.map, finish]

end SweepPlayer

/-- Both the beginning of the siren and its last flip are shifted. -/
def Alternation.shift (a : Alternation) : Alternation :=
  { a with since := a.since + d, flipped := a.flipped + d }

namespace SirenPlayer

def shift (p : SirenPlayer) : SirenPlayer :=
  { p with alternation := p.alternation.map (Alternation.shift d) }

variable (p : SirenPlayer) (leases : Leases) (now : UInt32)

theorem start_shift (wail : Wail) :
    (p.shift d).start leases (now + d) wail = (p.start leases now wail).map (shift d) :=
  Attempt.start_map (shift d) p _ _ _ _ _ fun _ _ => rfl

theorem tick_shift :
    (p.shift d).tick leases (now + d) = (p.tick leases now).map (shift d) := by
  unfold tick
  cases hp : p.alternation with
  | none => simp [shift, hp, Turn.map]
  | some a =>
    have hq : (p.shift d).alternation = some (a.shift d) := by simp [shift, hp]
    simp only [hq, Alternation.shift, Clock.elapsed_shift]
    split
    · rfl
    · split <;> rfl

theorem stop_shift : (p.shift d).stop leases = (p.stop leases).map (shift d) := by
  unfold stop isActive
  cases hp : p.alternation <;> simp [shift, hp, Turn.map, finish]

end SirenPlayer

namespace Player

/-- The player as it would be if the clock had been ahead from the beginning. -/
def shift : Player → Player
  | .tone p => .tone (p.shift d)
  | .melody p => .melody (p.shift d)
  | .alert p => .alert (p.shift d)
  | .sweep p => .sweep (p.shift d)
  | .siren p => .siren (p.shift d)

variable (p : Player) (leases : Leases) (now : UInt32)

theorem start?_shift (request : Request) :
    (p.shift d).start? leases (now + d) request =
      (p.start? leases now request).map (Attempt.map (shift d)) := by
  cases p <;> cases request <;>
    simp only [shift, start?, TonePlayer.start_shift, MelodyPlayer.start_shift,
      MelodyPlayer.startTune_shift, AlertPlayer.start_shift, SweepPlayer.start_shift,
      SirenPlayer.start_shift] <;>
    rfl

theorem tick_shift :
    (p.shift d).tick leases (now + d) = (p.tick leases now).map (shift d) := by
  cases p <;>
    simp only [shift, tick, TonePlayer.tick_shift, MelodyPlayer.tick_shift,
      AlertPlayer.tick_shift, SweepPlayer.tick_shift, SirenPlayer.tick_shift] <;>
    rfl

theorem stop_shift : (p.shift d).stop leases = (p.stop leases).map (shift d) := by
  cases p <;>
    simp only [shift, stop, TonePlayer.stop_shift, MelodyPlayer.stop_shift,
      AlertPlayer.stop_shift, SweepPlayer.stop_shift, SirenPlayer.stop_shift] <;>
    rfl

theorem isActive_shift : (p.shift d).isActive = p.isActive := by
  cases p with
  | tone p => exact Option.isSome_map
  | melody p => exact Option.isSome_map
  | alert p => cases hp : p.phase <;> simp [shift, isActive, AlertPlayer.isActive,
      AlertPlayer.shift, AlertPhase.shift, hp]
  | sweep p => exact Option.isSome_map
  | siren p => exact Option.isSome_map

theorem drop_shift : (p.shift d).drop leases = p.drop leases := by
  cases p <;> rfl

/-- What only players of one kind can tell. -/
inductive Detail where
  | tone (frequency remaining : Option UInt32)
  | melody (melody : Option Melody) (note : Option Nat) (pass : Option UInt8) (begun : Nat)
  | alert (completed : UInt32) (isToneOn : Bool)
  | sweep (frequency : Option UInt32)
  | siren (frequency : Option UInt32)
deriving DecidableEq, Repr

/-- What a player tells when it is asked at a time. -/
structure Display where
  channel : Channel
  isActive : Bool
  lease : Option Lease
  detail : Detail
deriving DecidableEq, Repr

def detail (p : Player) (now : UInt32) : Detail :=
  match p with
  | .tone p => .tone p.frequency? (p.remaining? now)
  | .melody p => .melody (p.playback.map (·.melody)) (p.playback.map (·.index))
      (p.playback.map (·.pass)) p.begun
  | .alert p => .alert p.completed p.isToneOn
  | .sweep p => .sweep p.frequency?
  | .siren p => .siren p.frequency?

def display (p : Player) (now : UInt32) : Display :=
  ⟨p.channel, p.isActive, p.lease, p.detail now⟩

theorem detail_shift : (p.shift d).detail (now + d) = p.detail now := by
  cases p with
  | tone p =>
    cases hp : p.hold <;>
      simp [shift, detail, TonePlayer.shift, TonePlayer.frequency?, TonePlayer.remaining?,
        Hold.shift, Hold.remaining, hp]
  | melody p =>
    cases hp : p.playback <;>
      simp [shift, detail, MelodyPlayer.shift, MelodyPlayer.begun, Playback.shift, hp]
  | alert p =>
    cases hp : p.phase <;>
      simp [shift, detail, AlertPlayer.shift, AlertPhase.shift, AlertPlayer.isToneOn, hp]
  | sweep p =>
    cases hp : p.sweep <;>
      simp [shift, detail, SweepPlayer.shift, SweepPlayer.frequency?, Sweep.shift, hp]
  | siren p =>
    cases hp : p.alternation <;>
      simp [shift, detail, SirenPlayer.shift, SirenPlayer.frequency?, Alternation.frequency,
        Alternation.shift, hp]

theorem display_shift : (p.shift d).display (now + d) = p.display now := by
  have hchannel : (p.shift d).channel = p.channel := by cases p <;> rfl
  have hlease : (p.shift d).lease = p.lease := by cases p <;> rfl
  simp only [display, hchannel, hlease, isActive_shift, detail_shift]

end Player

def Event.shift (e : Event) : Event := { e with time := e.time + d }

namespace Recording

def shift (r : Recording) : Recording :=
  { r with now := r.now + d, events := r.events.map (Event.shift d) }

variable (r : Recording)

theorem advance_shift (ms : UInt32) : (r.shift d).advance ms = (r.advance ms).shift d := by
  simp only [advance, shift]
  ac_rfl

theorem perform_shift (command : Command) :
    (r.shift d).perform command = (r.perform command).shift d := by
  simp [perform, shift, Event.shift]

theorem performAll_shift (commands : List Command) :
    (r.shift d).performAll commands = (r.performAll commands).shift d := by
  induction commands generalizing r with
  | nil => rfl
  | cons c rest ih =>
    change ((r.shift d).perform c).performAll rest = _
    rw [perform_shift]
    exact ih (r.perform c)

end Recording

theorem Wave.channelEvents_shift (r : Recording) (channel : Channel) :
    channelEvents (r.shift d) channel = (channelEvents r channel).map (Event.shift d) := by
  unfold channelEvents Recording.shift
  rw [Array.toList_map, List.filter_map]
  rfl

/-- A sample is placed by the time from the first event, so a shift does not move it. -/
theorem Wave.render_shift (r : Recording) (channel : Channel) (rate : UInt32)
    (amplitude : Float32) :
    render (r.shift d) channel rate amplitude = render r channel rate amplitude := by
  unfold render
  rw [channelEvents_shift]
  cases channelEvents r channel with
  | nil => rfl
  | cons first rest =>
    have hnow : (r.shift d).now = r.now + d := rfl
    have htime (e : Event) : (e.shift d).time = e.time + d := rfl
    have hfrequency (e : Event) : (e.shift d).frequency? = e.frequency? := rfl
    simp only [List.map_cons, List.map_map, Function.comp_def, hnow, htime, hfrequency,
      Clock.elapsed_shift]

end Piezo
