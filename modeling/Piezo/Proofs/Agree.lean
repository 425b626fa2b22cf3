import Piezo.Proofs.Admission

/-!
Agreement: of the lease table, a call notices only whether the player's own channel is leased, and
it gives no command and changes nothing in the table for any other channel.
-/

namespace Piezo

namespace Leases

variable {t u : Leases} {c : Channel}

theorem isLeased_release (t : Leases) (lease : Lease) (c : Channel) :
    (t.release lease).isLeased c = (decide (c ≠ lease.channel) && t.isLeased c) := by
  simp only [isLeased, mem_release, Bool.decide_and]

theorem isLeased_releaseAny (h : u.isLeased c = t.isLeased c) (held : Option Lease) :
    (u.releaseAny held).isLeased c = (t.releaseAny held).isLeased c := by
  cases held with
  | none => exact h
  | some lease => simp only [releaseAny, isLeased_release, h]

/-- Whether a channel can be had depends on nothing but whether it is leased. -/
theorem acquire_cases (t : Leases) (c : Channel) :
    (t.isLeased c = true ∧ t.acquire c = .error (.channelBusy c)) ∨
      (t.isLeased c = false ∧
        ∃ t', t.acquire c = .ok (⟨c⟩, t') ∧ t'.channels = c :: t.channels) := by
  by_cases hc : c ∈ t.channels
  · exact .inl ⟨by simp [isLeased, hc], by simp [acquire, hc]⟩
  · exact .inr ⟨by simp [isLeased, hc], ⟨c :: t.channels, List.nodup_cons.mpr ⟨hc, t.distinct⟩⟩,
      by simp [acquire, hc], rfl⟩

theorem isLeased_of_cons {t' : Leases} {d : Channel} (h : t'.channels = d :: t.channels)
    (c : Channel) : t'.isLeased c = (decide (c = d) || t.isLeased c) := by
  simp only [isLeased, h, List.mem_cons, Bool.decide_or]

/-- Tables that agree on a channel are refused together or secure it together. -/
theorem secure_cases (h : u.isLeased c = t.isLeased c) (held : Option Lease) :
    (∃ error, t.secure held c = .error error ∧ u.secure held c = .error error) ∨
      ∃ lease t' u', t.secure held c = .ok (lease, t') ∧ u.secure held c = .ok (lease, u') ∧
        u'.isLeased c = t'.isLeased c := by
  cases held with
  | some lease => exact .inr ⟨lease, t, u, rfl, rfl, h⟩
  | none =>
    obtain ⟨ht, ha⟩ | ⟨ht, t', ha, hl⟩ := t.acquire_cases c <;>
      obtain ⟨hu, hb⟩ | ⟨hu, u', hb, hm⟩ := u.acquire_cases c
    · exact .inl ⟨_, ha, hb⟩
    · rw [hu, ht] at h
      cases h
    · rw [hu, ht] at h
      cases h
    · exact .inr ⟨_, t', u', ha, hb, by rw [isLeased_of_cons hl, isLeased_of_cons hm, h]⟩

end Leases

/-- Two turns that differ in nothing but what their lease tables say of other channels. -/
structure Turn.Agree {α : Type} (c : Channel) (a b : Turn α) : Prop where
  player : b.player = a.player
  commands : b.commands = a.commands
  notices : b.notices = a.notices
  leased : b.leases.isLeased c = a.leases.isLeased c

structure Attempt.Agree {α : Type} (c : Channel) (a b : Attempt α) : Prop
    extends Turn.Agree c a.toTurn b.toTurn where
  verdict : b.verdict = a.verdict

section Agree

variable {α β : Type} {c : Channel} {t u : Leases}

theorem Turn.Agree.map {a b : Turn α} (h : a.Agree c b) (f : α → β) :
    (a.map f).Agree c (b.map f) where
  player := congrArg f h.player
  commands := h.commands
  notices := h.notices
  leased := h.leased

theorem Attempt.Agree.map {a b : Attempt α} (h : a.Agree c b) (f : α → β) :
    (a.map f).Agree c (b.map f) where
  toAgree := h.toAgree.map f
  verdict := h.verdict

theorem Attempt.start_agree (player : α) (kind : Kind) (held : Option Lease)
    (h : u.isLeased c = t.isLeased c) (checked : Except Error Unit)
    {enter : Lease → Leases → Turn α}
    (agree : ∀ lease t u, u.isLeased c = t.isLeased c → (enter lease t).Agree c (enter lease u)) :
    (start player kind c held t checked enter).Agree c
      (start player kind c held u checked enter) := by
  unfold start
  cases checked with
  | error error => exact ⟨⟨rfl, rfl, rfl, h⟩, rfl⟩
  | ok =>
    obtain ⟨error, ht, hu⟩ | ⟨lease, t', u', ht, hu, h'⟩ := Leases.secure_cases h held
    · simp only [ht, hu]
      exact ⟨⟨rfl, rfl, rfl, h⟩, rfl⟩
    · simp only [ht, hu]
      exact ⟨agree lease t' u' h', rfl⟩

end Agree

variable {c : Channel} {t u : Leases} (h : u.isLeased c = t.isLeased c) (now : UInt32)
include h

namespace TonePlayer

variable (p : TonePlayer)

theorem reset_agree : (p.reset t).Agree c (p.reset u) :=
  ⟨rfl, rfl, rfl, Leases.isLeased_releaseAny h p.lease⟩

theorem tick_agree : (p.tick t now).Agree c (p.tick u now) := by
  unfold tick
  cases p.hold with
  | none => exact ⟨rfl, rfl, rfl, h⟩
  | some hold =>
    dsimp only
    split
    · exact ⟨rfl, rfl, rfl, (p.reset_agree h).leased⟩
    · exact ⟨rfl, rfl, rfl, h⟩

theorem stop_agree : (p.stop t).Agree c (p.stop u) := by
  unfold stop
  split
  · exact ⟨rfl, rfl, rfl, (p.reset_agree h).leased⟩
  · exact ⟨rfl, rfl, rfl, h⟩

end TonePlayer

namespace MelodyPlayer

variable (p : MelodyPlayer)

theorem play_agree (note : Note) : (p.play t now note).Agree c (p.play u now note) := by
  unfold play TonePlayer.playNote
  cases hc : Hold.check p.tone.settings.range note.frequency note.duration.toUInt32 with
  | error error =>
    simp only [hc]
    exact ⟨rfl, rfl, rfl, (p.tone.reset_agree h).leased⟩
  | ok =>
    simp only [hc]
    exact ⟨rfl, rfl, rfl, h⟩

theorem finish_agree (ending : Ending) : (p.finish t ending).Agree c (p.finish u ending) :=
  ⟨rfl, rfl, rfl, Leases.isLeased_releaseAny (p.tone.reset_agree h).leased p.lease⟩

theorem enter_agree (m : Melody) (repeats : UInt8) (lease : Lease) :
    (p.enter now m repeats lease t).Agree c (p.enter now m repeats lease u) := by
  have k := play_agree h now
    { p with playback := some ⟨m, 0, 0, max repeats 1, now⟩, lease := some lease, counted := 0 }
    (Playback.note? ⟨m, 0, 0, max repeats 1, now⟩ |>.getD default)
  exact { k with notices := congrArg (List.cons _) k.notices }

theorem start_agree (hc : p.channel = c) (m : Melody) (repeats : UInt8) :
    (p.start t now m repeats).Agree c (p.start u now m repeats) := by
  subst hc
  exact Attempt.start_agree p _ _ h _ fun lease _ _ h => p.enter_agree h now m repeats lease

theorem startTune_agree (hc : p.channel = c) (source : Tune.Source) (repeats : UInt8) :
    (p.startTune t now source repeats).Agree c (p.startTune u now source repeats) := by
  unfold startTune
  cases Tune.read p.settings source with
  | error error => exact ⟨⟨rfl, rfl, rfl, h⟩, rfl⟩
  | ok tune =>
    have k := p.start_agree h now hc tune.melody repeats
    exact { k with notices := congrArg (_ ++ ·) k.notices }

theorem settle_agree : (p.settle t now).Agree c (p.settle u now) :=
  (p.tone.tick_agree h now).map _

theorem advance_agree : (p.advance t now).Agree c (p.advance u now) := by
  unfold advance
  cases p.playback with
  | none => exact ⟨rfl, rfl, rfl, h⟩
  | some b =>
    dsimp only
    split
    · exact ⟨rfl, rfl, rfl, h⟩
    · cases b.next? now with
      | none => exact p.finish_agree h .finished
      | some b => exact play_agree h now { p with playback := some b } _

theorem tick_agree : (p.tick t now).Agree c (p.tick u now) := by
  unfold tick
  split
  · have ks := p.settle_agree h now
    have ka := (p.settle t now).player.advance_agree ks.leased now
    dsimp only
    rw [ks.player, ks.commands, ks.notices]
    exact { ka with
      commands := congrArg (_ ++ ·) ka.commands
      notices := congrArg (_ ++ ·) ka.notices }
  · exact ⟨rfl, rfl, rfl, h⟩

theorem stop_agree : (p.stop t).Agree c (p.stop u) := by
  unfold stop
  split
  · exact p.finish_agree h .stopped
  · exact ⟨rfl, rfl, rfl, h⟩

end MelodyPlayer

namespace AlertPlayer

variable (p : AlertPlayer)

theorem finish_agree (notices : List Notice) : (p.finish t notices).Agree c (p.finish u notices) :=
  ⟨rfl, rfl, rfl, Leases.isLeased_releaseAny h p.lease⟩

theorem tick_agree : (p.tick t now).Agree c (p.tick u now) := by
  unfold tick
  cases p.phase with
  | idle => exact ⟨rfl, rfl, rfl, h⟩
  | sounding pattern since =>
    dsimp only
    split
    · exact ⟨rfl, rfl, rfl, h⟩
    · split
      · exact finish_agree h { p with completed := p.completed + 1 } _
      · exact ⟨rfl, rfl, rfl, h⟩
  | gap pattern since =>
    dsimp only
    split <;> exact ⟨rfl, rfl, rfl, h⟩

theorem stop_agree : (p.stop t).Agree c (p.stop u) := by
  unfold stop
  split
  · exact p.finish_agree h _
  · exact ⟨rfl, rfl, rfl, h⟩

end AlertPlayer

namespace SweepPlayer

variable (p : SweepPlayer)

theorem finish_agree (notices : List Notice) : (p.finish t notices).Agree c (p.finish u notices) :=
  ⟨rfl, rfl, rfl, Leases.isLeased_releaseAny h p.lease⟩

theorem tick_agree : (p.tick t now).Agree c (p.tick u now) := by
  unfold tick
  cases p.sweep with
  | none => exact ⟨rfl, rfl, rfl, h⟩
  | some s =>
    dsimp only
    split
    · exact ⟨rfl, rfl, rfl, h⟩
    · cases s.ramp.next? s.frequency with
      | some frequency => exact ⟨rfl, rfl, rfl, h⟩
      | none => exact p.finish_agree h _

theorem stop_agree : (p.stop t).Agree c (p.stop u) := by
  unfold stop
  split
  · exact p.finish_agree h _
  · exact ⟨rfl, rfl, rfl, h⟩

end SweepPlayer

namespace SirenPlayer

variable (p : SirenPlayer)

theorem finish_agree (notices : List Notice) : (p.finish t notices).Agree c (p.finish u notices) :=
  ⟨rfl, rfl, rfl, Leases.isLeased_releaseAny h p.lease⟩

theorem tick_agree : (p.tick t now).Agree c (p.tick u now) := by
  unfold tick
  cases p.alternation with
  | none => exact ⟨rfl, rfl, rfl, h⟩
  | some a =>
    dsimp only
    split
    · exact p.finish_agree h _
    · split <;> exact ⟨rfl, rfl, rfl, h⟩

theorem stop_agree : (p.stop t).Agree c (p.stop u) := by
  unfold stop
  split
  · exact p.finish_agree h _
  · exact ⟨rfl, rfl, rfl, h⟩

end SirenPlayer

namespace Player

variable (p : Player)

/-- The first turn does no more with the table than hand it on, but that a melody's first note may
be refused. -/
theorem start?_agree (hc : p.channel = c) (request : Request) :
    Option.Rel (Attempt.Agree c) (p.start? t now request) (p.start? u now request) := by
  subst hc
  cases p <;> cases request <;> first | exact .none | refine .some (Attempt.Agree.map ?_ _)
  case tone.tone p frequency duration =>
    exact Attempt.start_agree p _ _ h _ fun _ _ _ h => ⟨rfl, rfl, rfl, h⟩
  case melody.melody p m repeats => exact p.start_agree h now rfl m repeats
  case melody.tune p source repeats => exact p.startTune_agree h now rfl source repeats
  case alert.alert p pattern =>
    exact Attempt.start_agree p _ _ h _ fun _ _ _ h => ⟨rfl, rfl, rfl, h⟩
  case sweep.sweep p ramp =>
    exact Attempt.start_agree p _ _ h _ fun _ _ _ h => ⟨rfl, rfl, rfl, h⟩
  case siren.siren p wail =>
    exact Attempt.start_agree p _ _ h _ fun _ _ _ h => ⟨rfl, rfl, rfl, h⟩

theorem tick_agree : (p.tick t now).Agree c (p.tick u now) := by
  cases p with
  | tone p => exact (p.tick_agree h now).map _
  | melody p => exact (p.tick_agree h now).map _
  | alert p => exact (p.tick_agree h now).map _
  | sweep p => exact (p.tick_agree h now).map _
  | siren p => exact (p.tick_agree h now).map _

theorem stop_agree : (p.stop t).Agree c (p.stop u) := by
  cases p with
  | tone p => exact (p.stop_agree h).map _
  | melody p => exact (p.stop_agree h).map _
  | alert p => exact (p.stop_agree h).map _
  | sweep p => exact (p.stop_agree h).map _
  | siren p => exact (p.stop_agree h).map _

theorem drop_agree : (p.drop u).isLeased c = (p.drop t).isLeased c :=
  Leases.isLeased_releaseAny h p.lease

end Player

namespace Player

omit h

/-- A turn that has to do with the player's own channel only. -/
structure Local (p : Player) (leases : Leases) (turn : Turn Player) : Prop where
  channel : turn.player.channel = p.channel
  commands : ∀ command ∈ turn.commands, command.channel = p.channel
  leased : ∀ c, c ≠ p.channel → turn.leases.isLeased c = leases.isLeased c

variable {p q : Player} {leases : Leases} {turn : Turn Player}

/-- An even trade with a player is about its channel only. -/
theorem isLeased_of_trade (hp : p.Coherent) (hq : q.Coherent) (hc : q.channel = p.channel)
    (balance : (u.channels ++ p.held.map Lease.channel).Perm
      (t.channels ++ q.held.map Lease.channel)) (hne : c ≠ p.channel) :
    u.isLeased c = t.isLeased c := by
  have held : ∀ {r : Player}, r.Coherent → r.channel = p.channel →
      c ∉ r.held.map Lease.channel := by
    intro r hr hrc hm
    rw [hr.held_eq, hrc] at hm
    split at hm <;> simp [hne] at hm
  have hm := balance.mem_iff (a := c)
  simp only [List.mem_append, held hp rfl, held hq hc, or_false] at hm
  simp only [Leases.isLeased, hm]

theorem Proper.isLocal (h : p.Coherent) (k : p.Proper leases turn) : p.Local leases turn where
  channel := k.channel
  commands := k.commands
  leased _ hne := isLeased_of_trade h k.coherent k.channel k.balance hne

theorem Decided.isLocal (h : p.Coherent) {conditions : List Condition} {attempt : Attempt Player}
    (k : Decided p leases conditions attempt) : p.Local leases attempt.toTurn := by
  cases hv : attempt.verdict with
  | ok =>
    have ha := k.admitted hv
    obtain ⟨command, hc, hcc, -⟩ := ha.command
    constructor
    case channel => exact ha.channel
    case commands => simp [hc, hcc]
    case leased => exact fun _ hne => isLeased_of_trade h ha.coherent ha.channel ha.balance hne
  | error error =>
    obtain ⟨hq, hl, hc⟩ := k.refused error hv
    constructor
    case channel => rw [hq]
    case commands => simp [hc]
    case leased => simp [hl]

theorem isLeased_drop (h : p.Coherent) (leases : Leases) (hne : c ≠ p.channel) :
    (p.drop leases).isLeased c = leases.isLeased c := by
  rw [drop, h.lease]
  split
  · simp [Leases.releaseAny, Leases.isLeased_release, hne]
  · rfl

end Player

end Piezo
