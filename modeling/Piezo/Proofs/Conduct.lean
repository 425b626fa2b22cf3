import Piezo.Player
import Piezo.Proofs.Playback

/-!
Conduct: what holds of every player, whatever it plays. An active player has its channel's lease and
an idle one has none, and the last command of a tick or a stop says what the channel sounds.
-/

namespace Piezo

namespace Leases

/-- Adding the given back channel to the table yields the old one again. -/
theorem release_perm {t : Leases} (lease : Lease) (h : lease.channel ∈ t.channels) :
    ((t.release lease).channels ++ [lease.channel]).Perm t.channels :=
  List.perm_append_comm.trans (List.perm_cons_erase h).symm

theorem of_acquire_eq_ok {t u : Leases} {lease : Lease} {channel : Channel}
    (h : t.acquire channel = .ok (lease, u)) :
    lease = ⟨channel⟩ ∧ u.channels = channel :: t.channels := by
  unfold acquire at h
  split at h
  · cases h
  · cases h
    exact ⟨rfl, rfl⟩

end Leases

namespace Hold

@[simp] theorem channel_command (channel : Channel) (frequency : UInt32) :
    (command channel frequency).channel = channel := by
  unfold command
  split <;> rfl

@[simp] theorem frequency?_command (channel : Channel) (frequency : UInt32) :
    (command channel frequency).frequency? = (some frequency).filter (· ≠ 0) := by
  by_cases hf : frequency = 0 <;> simp [command, Command.frequency?, Option.filter, hf]

end Hold

namespace Player

/-- The frequency that an active player has its channel sound; none in a rest or a gap. -/
def voice : Player → Option UInt32
  | .tone p => p.frequency?.filter (· ≠ 0)
  | .melody p => p.tone.frequency?.filter (· ≠ 0)
  | .alert p =>
    match p.phase with
    | .sounding pattern _ => some pattern.frequency
    | _ => none
  | .sweep p => p.frequency?
  | .siren p => p.frequency?

/-- The leases inside a player, that of the tone inside a melody included. -/
def held : Player → List Lease
  | .melody p => p.lease.toList ++ p.tone.lease.toList
  | p => p.lease.toList

/-- The tone inside a melody never has a lease, and is in step with the melody. -/
def Inner : Player → Prop
  | .melody m => m.tone.lease = none ∧ m.InStep
  | _ => True

theorem Inner.melody {m : MelodyPlayer} (ht : m.tone.lease = none) (hm : m.InStep) :
    (Player.melody m).Inner :=
  ⟨ht, hm⟩

/-- An active player has its own channel's lease and an idle one none. -/
structure Coherent (p : Player) : Prop where
  lease : p.lease = if p.isActive then some ⟨p.channel⟩ else none
  inner : p.Inner

variable {p q : Player} {leases : Leases}

theorem Coherent.lease_of_active (h : p.Coherent) (hp : p.isActive = true) :
    p.lease = some ⟨p.channel⟩ := by
  rw [h.lease, if_pos hp]

theorem Coherent.held_eq (h : p.Coherent) :
    p.held = if p.isActive then [⟨p.channel⟩] else [] := by
  have hp : p.held = p.lease.toList := by
    cases p with
    | melody m => simp [held, Player.lease, h.inner.1]
    | _ => rfl
  rw [hp, h.lease]
  split <;> rfl

theorem Coherent.voice_of_idle (h : p.Coherent) (hi : p.isActive = false) : p.voice = none := by
  cases p with
  | tone p =>
    simp only [isActive, TonePlayer.isActive, Option.isSome_eq_false_iff,
      Option.isNone_iff_eq_none] at hi
    simp [voice, TonePlayer.frequency?, hi]
  | melody p =>
    simp only [isActive, MelodyPlayer.isActive, Option.isSome_eq_false_iff,
      Option.isNone_iff_eq_none] at hi
    simp [voice, TonePlayer.frequency?, h.inner.2.hold_eq_none hi]
  | alert p =>
    have hi : p.phase = .idle := by simpa [isActive, AlertPlayer.isActive] using hi
    simp [voice, hi]
  | sweep p =>
    simp only [isActive, SweepPlayer.isActive, Option.isSome_eq_false_iff,
      Option.isNone_iff_eq_none] at hi
    simp [voice, SweepPlayer.frequency?, hi]
  | siren p =>
    simp only [isActive, SirenPlayer.isActive, Option.isSome_eq_false_iff,
      Option.isNone_iff_eq_none] at hi
    simp [voice, SirenPlayer.frequency?, hi]

theorem isActive_idle (kind : Kind) (channel : Channel) (settings : Settings) :
    (idle kind channel settings).isActive = false := by
  cases kind <;> rfl

theorem idle_coherent (kind : Kind) (channel : Channel) (settings : Settings) :
    (idle kind channel settings).Coherent := by
  cases kind
  case melody => exact ⟨rfl, rfl, rfl⟩
  all_goals exact ⟨rfl, trivial⟩

/-- What a tick or a stop may do to a player and to its surroundings. -/
structure Proper (p : Player) (leases : Leases) (turn : Turn Player) : Prop where
  coherent : turn.player.Coherent
  channel : turn.player.channel = p.channel
  /-- The channels in the table and in the hands of the player are traded, none lost or made up. -/
  balance : (turn.leases.channels ++ p.held.map Lease.channel).Perm
    (leases.channels ++ turn.player.held.map Lease.channel)
  commands : ∀ c ∈ turn.commands, c.channel = p.channel
  quiet : turn.commands = [] → turn.player.isActive = p.isActive ∧ turn.player.voice = p.voice
  loud : ∀ c, turn.commands.getLast? = some c → p.isActive = true ∧ turn.player.voice = c.frequency?

theorem Proper.still (h : p.Coherent) (notices : List Notice) :
    Proper p leases { player := p, leases, notices } where
  coherent := h
  channel := rfl
  balance := .refl _
  commands := by simp
  quiet _ := ⟨rfl, rfl⟩
  loud := by simp

theorem Proper.onward (h : p.Coherent) (hp : p.isActive = true) (hq : q.Inner)
    (hl : q.lease = p.lease) (ha : q.isActive = true) (hc : q.channel = p.channel) {c : Command}
    (hcc : c.channel = p.channel) (hv : q.voice = c.frequency?) (notices : List Notice) :
    Proper p leases { player := q, leases, commands := [c], notices } := by
  have hcoherent : q.Coherent := ⟨by rw [hl, h.lease_of_active hp, ha, hc]; rfl, hq⟩
  constructor
  case coherent => exact hcoherent
  case channel => exact hc
  case balance => rw [h.held_eq, hcoherent.held_eq, hp, ha, hc]
  case commands => simpa using hcc
  case quiet => simp
  case loud => simpa using ⟨hp, hv⟩

theorem Proper.ended (h : p.Coherent) (hp : p.isActive = true) (hl : p.channel ∈ leases.channels)
    (hq : q.Inner) (hn : q.lease = none) (ha : q.isActive = false) (hc : q.channel = p.channel)
    (notices : List Notice) :
    Proper p leases
      { player := q
        leases := leases.releaseAny p.lease
        commands := [.silence p.channel]
        notices } := by
  have hcoherent : q.Coherent := ⟨by rw [hn, ha]; rfl, hq⟩
  constructor
  case coherent => exact hcoherent
  case channel => exact hc
  case balance =>
    rw [h.held_eq, hcoherent.held_eq, h.lease, hp, ha]
    simpa [Leases.releaseAny] using Leases.release_perm ⟨p.channel⟩ hl
  case commands => simp [Command.channel]
  case quiet => simp
  case loud => simpa [Command.frequency?] using ⟨hp, hcoherent.voice_of_idle ha⟩

/-- Only an active player is active after a tick or a stop. -/
theorem Proper.wasActive {turn : Turn Player} (h : Proper p leases turn)
    (ha : turn.player.isActive = true) : p.isActive = true := by
  cases hc : turn.commands with
  | nil => exact (h.quiet hc).1 ▸ ha
  | cons c rest =>
    exact (h.loud _ (by rw [hc, List.getLast?_cons])).1

/-- What an active player issues until it is idle ends with a silence. -/
theorem Proper.getLast?_of_ended {turn : Turn Player} (k : Proper p leases turn)
    (hp : p.isActive = true) (hi : turn.player.isActive = false) :
    turn.commands.getLast? = some (.silence p.channel) := by
  cases hc : turn.commands.getLast? with
  | none =>
    have quiet := (k.quiet (List.getLast?_eq_none_iff.mp hc)).1
    rw [hp, hi] at quiet
    cases quiet
  | some c =>
    have hv := (k.loud c hc).2
    rw [k.coherent.voice_of_idle hi] at hv
    have hch := k.commands c (List.mem_of_getLast? hc)
    cases c with
    | emit channel frequency => cases hv
    | silence channel => rw [← hch]; rfl

/-- One call after another, taken together. -/
theorem Proper.trans {first second : Turn Player} (h : Proper p leases first)
    (k : Proper first.player first.leases second) (notices : List Notice) :
    Proper p leases
      { second with commands := first.commands ++ second.commands, notices } where
  coherent := k.coherent
  channel := k.channel.trans h.channel
  balance := by
    have hb := List.perm_iff_count.mp h.balance
    have kb := List.perm_iff_count.mp k.balance
    simp only [List.count_append] at hb kb
    refine List.perm_iff_count.mpr fun c => ?_
    simp only [List.count_append]
    have := hb c
    have := kb c
    omega
  commands := by
    intro c hc
    rcases List.mem_append.mp hc with hc | hc
    · exact h.commands c hc
    · exact (k.commands c hc).trans h.channel
  quiet := by
    intro hc
    obtain ⟨hf, hs⟩ := List.append_eq_nil_iff.mp hc
    obtain ⟨ha, hv⟩ := h.quiet hf
    obtain ⟨ka, kv⟩ := k.quiet hs
    exact ⟨ka.trans ha, kv.trans hv⟩
  loud := by
    intro c hc
    cases hs : second.commands with
    | nil =>
      obtain ⟨ka, kv⟩ := k.quiet hs
      simp only [hs, List.append_nil] at hc
      obtain ⟨ha, hv⟩ := h.loud c hc
      exact ⟨ha, kv.trans hv⟩
    | cons d rest =>
      rw [List.getLast?_append, hs, List.getLast?_cons, Option.some_or] at hc
      obtain ⟨ka, kv⟩ := k.loud c (by rw [hs, List.getLast?_cons, hc])
      exact ⟨h.wasActive ka, kv⟩

variable {now : UInt32}

/-- An active player's channel is in the table. -/
def Listed (p : Player) (leases : Leases) : Prop :=
  p.isActive = true → p.channel ∈ leases.channels

theorem Proper.listed {turn : Turn Player} (h : p.Coherent) (k : Proper p leases turn)
    (hl : p.Listed leases) : turn.player.Listed turn.leases := by
  intro ha
  have hp := k.wasActive ha
  have hb := k.balance
  rw [h.held_eq, k.coherent.held_eq, hp, ha, k.channel] at hb
  rw [k.channel]
  exact ((List.perm_append_right_iff _).mp hb).mem_iff.mpr (hl hp)

theorem tone_tick_proper {p : TonePlayer} (h : (Player.tone p).Coherent)
    (hl : (Player.tone p).Listed leases) :
    Proper (.tone p) leases ((p.tick leases now).map .tone) := by
  obtain ⟨ht, _⟩ | ⟨ht, hold, hh, _⟩ := p.tick_cases leases now
  · rw [ht]
    exact .still h []
  · have hp : (Player.tone p).isActive = true := by simp [isActive, TonePlayer.isActive, hh]
    rw [ht]
    apply Proper.ended h hp (hl hp) <;> trivial

theorem alert_tick_proper {p : AlertPlayer} (h : (Player.alert p).Coherent)
    (hl : (Player.alert p).Listed leases) :
    Proper (.alert p) leases ((p.tick leases now).map .alert) := by
  obtain ⟨ht, _⟩ | ⟨w, since, hw, _, _, ht⟩ | ⟨w, since, hw, _, _, ht⟩ | ⟨w, since, hw, _, ht⟩ :=
    p.tick_cases leases now
  · rw [ht]
    exact .still h []
  all_goals
    have hp : (Player.alert p).isActive = true := by simp [isActive, AlertPlayer.isActive, hw]
    rw [ht]
  · apply Proper.ended h hp (hl hp) <;> trivial
  · apply Proper.onward h hp <;> trivial
  · apply Proper.onward h hp <;> trivial

theorem sweep_tick_proper {p : SweepPlayer} (h : (Player.sweep p).Coherent)
    (hl : (Player.sweep p).Listed leases) :
    Proper (.sweep p) leases ((p.tick leases now).map .sweep) := by
  obtain ⟨ht, _⟩ | ⟨s, frequency, hs, _, _, ht⟩ | ⟨s, hs, _, _, ht⟩ := p.tick_cases leases now
  · rw [ht]
    exact .still h []
  all_goals
    have hp : (Player.sweep p).isActive = true := by simp [isActive, SweepPlayer.isActive, hs]
    rw [ht]
  · apply Proper.onward h hp <;> trivial
  · apply Proper.ended h hp (hl hp) <;> trivial

theorem siren_tick_proper {p : SirenPlayer} (h : (Player.siren p).Coherent)
    (hl : (Player.siren p).Listed leases) :
    Proper (.siren p) leases ((p.tick leases now).map .siren) := by
  obtain ⟨ht, _⟩ | ⟨a, ha, _, _, ht⟩ | ⟨a, ha, _, ht⟩ := p.tick_cases leases now
  · rw [ht]
    exact .still h []
  all_goals
    have hp : (Player.siren p).isActive = true := by simp [isActive, SirenPlayer.isActive, ha]
    rw [ht]
  · apply Proper.onward h hp <;> trivial
  · apply Proper.ended h hp (hl hp) <;> trivial

/-- Beginning a note issues one command, and the tone holds what that command sounds. -/
theorem melody_play_turn {p : MelodyPlayer} (ht : p.tone.lease = none) (leases : Leases)
    (now : UInt32) (n : Note) :
    ∃ tone c notices,
      p.play leases now n =
          { player := { p with tone, counted := p.counted + 1 }, leases, commands := [c],
            notices } ∧
        tone.lease = none ∧ tone.channel = p.channel ∧ c.channel = p.channel ∧
        tone.frequency?.filter (· ≠ 0) = c.frequency? := by
  by_cases hn : n.IsPlayable p.settings.range
  · exact ⟨_, _, _, MelodyPlayer.play_of_isPlayable leases now hn, ht, rfl,
      Hold.channel_command .., (Hold.frequency?_command ..).symm⟩
  · obtain ⟨error, he⟩ := MelodyPlayer.play_of_not_isPlayable leases now hn
    rw [ht] at he
    exact ⟨_, _, _, he, rfl, rfl, rfl, rfl⟩

theorem melody_finish_proper {p : MelodyPlayer} (h : (Player.melody p).Coherent)
    (hp : p.isActive = true) (hl : (Player.melody p).Listed leases) (ending : Ending) :
    Proper (.melody p) leases ((p.finish leases ending).map .melody) := by
  unfold MelodyPlayer.finish TonePlayer.reset
  rw [h.inner.1]
  apply Proper.ended h hp (hl hp) <;> trivial

theorem melody_settle_proper {p : MelodyPlayer} (h : (Player.melody p).Coherent)
    (hp : p.isActive = true) :
    Proper (.melody p) leases ((p.settle leases now).map .melody) := by
  have hin := MelodyPlayer.settle_inStep leases now h.inner.2
  obtain ⟨ht, _⟩ | ⟨ht, _⟩ := MelodyPlayer.settle_cases leases now p
  · rw [ht]
    exact .still h []
  · rw [ht] at hin
    rw [ht, h.inner.1]
    apply Proper.onward h hp (Inner.melody rfl hin) <;> trivial

theorem melody_advance_proper {p : MelodyPlayer} (h : (Player.melody p).Coherent)
    (hl : (Player.melody p).Listed leases) :
    Proper (.melody p) leases ((p.advance leases now).map .melody) := by
  have hin := MelodyPlayer.advance_inStep leases now h.inner.2
  cases hb : p.playback with
  | none =>
    unfold MelodyPlayer.advance
    rw [hb]
    exact .still h []
  | some b =>
    have hp : (Player.melody p).isActive = true := by simp [isActive, MelodyPlayer.isActive, hb]
    obtain ⟨n, hn, _⟩ := h.inner.2.onNote hb
    obtain ⟨_, ha⟩ | ⟨_, _, ha⟩ | ⟨_, c, m, _, _, _, ha⟩ :=
      MelodyPlayer.advance_cases leases now hb hn
    · rw [ha]
      exact .still h []
    · rw [ha]
      exact melody_finish_proper h hp hl .finished
    · obtain ⟨tone, command, notices, ht, hlease, hc, hcc, hv⟩ :=
        melody_play_turn (p := { p with playback := some c }) h.inner.1 leases now m
      rw [ha, ht] at hin
      rw [ha, ht]
      exact .onward h hp (.melody hlease hin) rfl rfl hc hcc hv notices

theorem melody_tick_proper {p : MelodyPlayer} (h : (Player.melody p).Coherent)
    (hl : (Player.melody p).Listed leases) :
    Proper (.melody p) leases ((p.tick leases now).map .melody) := by
  unfold MelodyPlayer.tick
  by_cases hp : p.isActive
  · have hs : Proper (.melody p) leases ((p.settle leases now).map .melody) :=
      melody_settle_proper h hp
    rw [if_pos hp]
    exact hs.trans (melody_advance_proper hs.coherent (hs.listed h hl)) _
  · rw [if_neg hp]
    exact .still h []

/-- Every tick is proper, whatever kind of player it is that ticks. -/
theorem tick_proper (h : p.Coherent) (hl : p.Listed leases) :
    Proper p leases (p.tick leases now) := by
  cases p with
  | tone p => exact tone_tick_proper h hl
  | melody p => exact melody_tick_proper h hl
  | alert p => exact alert_tick_proper h hl
  | sweep p => exact sweep_tick_proper h hl
  | siren p => exact siren_tick_proper h hl

theorem tick_idle (p : Player) (leases : Leases) (now : UInt32) (hi : p.isActive = false) :
    p.tick leases now = { player := p, leases } := by
  cases p with
  | tone p =>
    have hold : p.hold = none := by simpa [isActive, TonePlayer.isActive] using hi
    simp only [tick, TonePlayer.tick, hold]
    rfl
  | melody p => exact congrArg (Turn.map Player.melody) (if_neg (by simpa [isActive] using hi))
  | alert p =>
    have phase : p.phase = .idle := by simpa [isActive, AlertPlayer.isActive] using hi
    simp only [tick, AlertPlayer.tick, phase]
    rfl
  | sweep p =>
    have sweep : p.sweep = none := by simpa [isActive, SweepPlayer.isActive] using hi
    simp only [tick, SweepPlayer.tick, sweep]
    rfl
  | siren p =>
    have alternation : p.alternation = none := by simpa [isActive, SirenPlayer.isActive] using hi
    simp only [tick, SirenPlayer.tick, alternation]
    rfl

theorem stop_idle (p : Player) (leases : Leases) (hi : p.isActive = false) :
    p.stop leases = { player := p, leases } := by
  have hn : ¬ p.isActive = true := by simp [hi]
  cases p with
  | tone p => exact congrArg (Turn.map Player.tone) (if_neg hn)
  | melody p => exact congrArg (Turn.map Player.melody) (if_neg hn)
  | alert p => exact congrArg (Turn.map Player.alert) (if_neg hn)
  | sweep p => exact congrArg (Turn.map Player.sweep) (if_neg hn)
  | siren p => exact congrArg (Turn.map Player.siren) (if_neg hn)

/-- A stop ends what an active player plays, with one silence. -/
theorem stop_active (leases : Leases) (hp : p.isActive = true) :
    (p.stop leases).player.isActive = false ∧
      (p.stop leases).commands = [.silence p.channel] := by
  cases p <;>
    simp only [stop, TonePlayer.stop, MelodyPlayer.stop, AlertPlayer.stop, SweepPlayer.stop,
      SirenPlayer.stop] <;>
    rw [if_pos (by exact hp)] <;>
    exact ⟨rfl, rfl⟩

/-- A stop leaves no player active. -/
theorem isActive_stop (p : Player) (leases : Leases) :
    (p.stop leases).player.isActive = false := by
  cases hp : p.isActive with
  | false => rwa [stop_idle p leases hp]
  | true => exact (stop_active leases hp).1

theorem stop_proper (h : p.Coherent) (hl : p.Listed leases) :
    Proper p leases (p.stop leases) := by
  cases hp : p.isActive with
  | false =>
    rw [stop_idle p leases hp]
    exact .still h []
  | true =>
    cases p with
    | tone p =>
      change Proper _ leases ((p.stop leases).map .tone)
      rw [TonePlayer.stop, if_pos (c := p.isActive) hp]
      apply Proper.ended h hp (hl hp) <;> trivial
    | melody p =>
      change Proper _ leases ((p.stop leases).map .melody)
      rw [MelodyPlayer.stop, if_pos (c := p.isActive) hp]
      exact melody_finish_proper h hp hl .stopped
    | alert p =>
      change Proper _ leases ((p.stop leases).map .alert)
      rw [AlertPlayer.stop, if_pos (c := p.isActive) hp]
      apply Proper.ended h hp (hl hp) <;> trivial
    | sweep p =>
      change Proper _ leases ((p.stop leases).map .sweep)
      rw [SweepPlayer.stop, if_pos (c := p.isActive) hp]
      apply Proper.ended h hp (hl hp) <;> trivial
    | siren p =>
      change Proper _ leases ((p.stop leases).map .siren)
      rw [SirenPlayer.stop, if_pos (c := p.isActive) hp]
      apply Proper.ended h hp (hl hp) <;> trivial

end Player

end Piezo
