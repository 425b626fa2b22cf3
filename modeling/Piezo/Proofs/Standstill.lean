import Piezo.Proofs.Calls
import Piezo.Proofs.Timing
import Piezo.Proofs.Wailing

/-!
Standstill: at one reading of the clock, one tick does all there is to do.

A tick may end a tone and begin the next note at once, but whatever it begins lasts, so a second
tick at the same reading finds nothing due. What makes it last is checked when a player starts. Only
the gaps of an alert and the notes of a melody may be asked for without any length.
-/

namespace Piezo

/-- The notes still to come are notes of the melody. -/
theorem Playback.mem_of_mem_remaining {b : Playback} {n : Note} (h : n ∈ b.remaining) :
    n ∈ b.melody.notes := by
  rw [remaining, List.mem_append, List.mem_flatten] at h
  rw [← Array.mem_toList_iff]
  rcases h with h | ⟨pass, hp, h⟩
  · exact List.mem_of_mem_drop h
  · exact List.eq_of_mem_replicate hp ▸ h

namespace Player

/-- What each kind of player checks of the lengths it is asked for, or makes of them. -/
def Lasting : Player → Prop
  | .tone _ => True
  | .melody p => p.InStep
  | .alert p => ∀ w since, p.phase = .sounding w since ∨ p.phase = .gap w since → w.duration ≠ 0
  | .sweep p => ∀ s, p.sweep = some s → s.ramp.duration ≠ 0
  | .siren p => ∀ a, p.alternation = some a → a.interval ≠ 0

/-- No gap and no note passes in no time. -/
def Unhurried : Player → Prop
  | .melody p => p.settings.settleMargin ≠ 0 ∨
      ∀ b, p.playback = some b → ∀ n ∈ b.melody.notes, n.duration ≠ 0
  | .alert p => ∀ w since, p.phase = .sounding w since ∨ p.phase = .gap w since → w.lapse ≠ 0
  | _ => True

/-- Nothing is due yet. -/
def Waits (now : UInt32) : Player → Prop
  | .tone p => ∀ h, p.hold = some h → ¬ h.isOver now
  | .melody p => (∀ h, p.tone.hold = some h → ¬ h.isOver now) ∧
      ∀ b, p.playback = some b → ∃ n, b.OnNote n ∧ Clock.elapsed now b.since < p.wait n
  | .alert p =>
      (∀ w since, p.phase = .sounding w since → Clock.elapsed now since < w.duration) ∧
        ∀ w since, p.phase = .gap w since → Clock.elapsed now since < w.lapse
  | .sweep p => ∀ s, p.sweep = some s → Clock.elapsed now s.since < s.ramp.duration
  | .siren p => ∀ a, p.alternation = some a →
      Clock.elapsed now a.since < a.wail.total ∧ Clock.elapsed now a.flipped < a.interval

/-- What a tick at this reading leaves of a player: one that lasts, and to which nothing is due now
unless something passes in no time. -/
structure Ticked (now : UInt32) (p q : Player) : Prop where
  lasting : q.Lasting
  waits : p.Unhurried → q.Waits now

variable {p : Player} {leases : Leases} {now : UInt32}

theorem lasting_idle (kind : Kind) (channel : Channel) (settings : Settings) :
    (idle kind channel settings).Lasting := by
  cases kind <;> simp [idle, Lasting, MelodyPlayer.InStep]

theorem melody_start_lasting {p : MelodyPlayer} (h : (Player.melody p).Lasting) (m : Melody)
    (repeats : UInt8) : (Player.melody (p.start leases now m repeats).player).Lasting := by
  refine Attempt.start_meets (P := fun turn => (Player.melody turn.player).Lasting) (fun _ => h)
    fun hc lease t => ?_
  have hm : m.size ≠ 0 := by
    intro he
    simp [Melody.check, he] at hc
  obtain ⟨n, notices, hn, he⟩ := MelodyPlayer.enter_spec t now p hm repeats lease
  rw [he]
  exact MelodyPlayer.play_inStep t now rfl hn rfl

theorem alert_start_lasting {p : AlertPlayer} (h : (Player.alert p).Lasting) (pattern : Pattern) :
    (Player.alert (p.start leases now pattern).player).Lasting := by
  refine Attempt.start_meets (P := fun turn => (Player.alert turn.player).Lasting) (fun _ => h)
    fun hc lease t => ?_
  rw [alert_check] at hc
  have holds := Condition.holds_of_verdict hc (c := ⟨pattern.duration ≠ 0, .zeroDuration⟩)
    (by simp [Request.conditions])
  rintro w since (hw | hw) <;> cases hw
  exact of_decide_eq_true holds

theorem sweep_start_lasting {p : SweepPlayer} (h : (Player.sweep p).Lasting) (ramp : Ramp) :
    (Player.sweep (p.start leases now ramp).player).Lasting := by
  refine Attempt.start_meets (P := fun turn => (Player.sweep turn.player).Lasting) (fun _ => h)
    fun hc lease t => ?_
  rw [sweep_check] at hc
  have holds := Condition.holds_of_verdict hc (c := ⟨ramp.duration ≠ 0, .zeroDuration⟩)
    (by simp [Request.conditions])
  rintro s ⟨⟩
  exact of_decide_eq_true holds

theorem siren_start_lasting {p : SirenPlayer} (h : (Player.siren p).Lasting) (wail : Wail) :
    (Player.siren (p.start leases now wail).player).Lasting := by
  refine Attempt.start_meets (P := fun turn => (Player.siren turn.player).Lasting) (fun _ => h)
    fun _ lease t => ?_
  rintro a ⟨⟩ (hi : wail.interval p.settings.sirenDivisions = 0)
  have positive := wail.interval_pos p.settings.sirenDivisions
  rw [hi] at positive
  exact Nat.lt_irrefl 0 positive

theorem start?_lasting (h : p.Lasting) {request : Request} {attempt : Attempt Player}
    (ha : p.start? leases now request = some attempt) : attempt.player.Lasting := by
  cases p <;> cases request <;> simp only [start?, reduceCtorEq, Option.some.injEq] at ha <;>
    subst ha
  case tone.tone => trivial
  case melody.melody p m repeats => exact melody_start_lasting h m repeats
  case melody.tune p source repeats =>
    unfold MelodyPlayer.startTune
    cases Tune.read p.settings source with
    | error error => exact h
    | ok tune => exact melody_start_lasting h tune.melody repeats
  case alert.alert p pattern => exact alert_start_lasting h pattern
  case sweep.sweep p ramp => exact sweep_start_lasting h ramp
  case siren.siren p wail => exact siren_start_lasting h wail

theorem tone_ticked (p : TonePlayer) :
    Ticked now (.tone p) (.tone (p.tick leases now).player) := by
  refine ⟨trivial, fun _ => ?_⟩
  obtain ⟨ht, ho⟩ | ⟨ht, _⟩ := p.tick_cases leases now
  · rwa [ht]
  · rw [ht]
    rintro _ ⟨⟩

theorem alert_ticked {p : AlertPlayer} (h : (Player.alert p).Lasting) :
    Ticked now (.alert p) (.alert (p.tick leases now).player) := by
  obtain ⟨ht, ho⟩ | ⟨w, since, hw, _, _, ht⟩ | ⟨w, since, hw, _, _, ht⟩ | ⟨w, since, hw, _, ht⟩ :=
    p.tick_cases leases now
  · rw [ht]
    exact ⟨h, fun _ => ho⟩
  · rw [ht]
    constructor
    · rintro _ _ (hq | hq) <;> cases hq
    · exact fun _ => ⟨by rintro _ _ ⟨⟩, by rintro _ _ ⟨⟩⟩
  · rw [ht]
    constructor
    · rintro _ _ (hq | hq) <;> cases hq
      exact h w since (.inl hw)
    · intro unhurried
      refine ⟨by rintro _ _ ⟨⟩, ?_⟩
      rintro _ _ ⟨⟩
      exact Clock.elapsed_self_lt now (unhurried w since (.inl hw))
  · rw [ht]
    constructor
    · rintro _ _ (hq | hq) <;> cases hq
      exact h w since (.inr hw)
    · intro _
      refine ⟨?_, by rintro _ _ ⟨⟩⟩
      rintro _ _ ⟨⟩
      exact Clock.elapsed_self_lt now (h w since (.inr hw))

theorem sweep_ticked {p : SweepPlayer} (h : (Player.sweep p).Lasting) :
    Ticked now (.sweep p) (.sweep (p.tick leases now).player) := by
  obtain ⟨ht, ho⟩ | ⟨s, _, hs, _, _, ht⟩ | ⟨_, _, _, _, ht⟩ := p.tick_cases leases now
  · rw [ht]
    exact ⟨h, fun _ => ho⟩
  · have lasts := h s hs
    rw [ht]
    constructor
    · rintro _ ⟨⟩
      exact lasts
    · rintro _ _ ⟨⟩
      exact Clock.elapsed_self_lt now lasts
  · rw [ht]
    exact ⟨by rintro _ ⟨⟩, by rintro _ _ ⟨⟩⟩

/-- A flip leaves the end of the siren where it was. -/
theorem siren_ticked {p : SirenPlayer} (h : (Player.siren p).Lasting) :
    Ticked now (.siren p) (.siren (p.tick leases now).player) := by
  obtain ⟨ht, ho⟩ | ⟨a, ha, hw, _, ht⟩ | ⟨_, _, _, ht⟩ := p.tick_cases leases now
  · rw [ht]
    exact ⟨h, fun _ => ho⟩
  · have lasts := h a ha
    rw [ht]
    constructor
    · rintro _ ⟨⟩
      exact lasts
    · rintro _ _ ⟨⟩
      exact ⟨hw, Clock.elapsed_self_lt now lasts⟩
  · rw [ht]
    exact ⟨by rintro _ ⟨⟩, by rintro _ _ ⟨⟩⟩

theorem settle_holds_on (leases : Leases) (now : UInt32) (p : MelodyPlayer) :
    ∀ h, (p.settle leases now).player.tone.hold = some h → ¬ h.isOver now := by
  obtain ⟨ht, ho⟩ | ⟨ht, _⟩ := MelodyPlayer.settle_cases leases now p
  · rwa [ht]
  · rw [ht]
    rintro _ ⟨⟩

/-- A note that has just begun is not over: it is held only if it lasts, and what is not held is
waited for. -/
theorem play_waits {p : MelodyPlayer} {b : Playback} {n : Note} (hp : p.playback = some b)
    (hb : b.OnNote n) (hs : b.since = now) (unhurried : p.settings.settleMargin ≠ 0 ∨
      n.duration ≠ 0) : (Player.melody (p.play leases now n).player).Waits now := by
  obtain ⟨hplayback, _, hsettings⟩ := MelodyPlayer.play_frame leases now p n
  have hhold := (MelodyPlayer.play_spec leases now p n).2.2
  constructor
  · intro h hh ended
    rw [hhold, Option.ite_none_right_eq_some] at hh
    obtain ⟨playable, hh⟩ := hh
    obtain rfl := Option.some.inj hh
    have lasts := Clock.elapsed_self_lt now (mt n.toUInt32_duration_eq_zero.mp playable.2)
    exact UInt32.not_le.mpr lasts (of_decide_eq_true ended)
  · intro c hc
    obtain rfl := Option.some.inj ((hplayback.trans hp).symm.trans hc)
    refine ⟨n, hb, ?_⟩
    rw [hs]
    -- The wait is a capped sum, so it is nothing only if both the note and the margin are.
    refine Clock.elapsed_self_lt now fun hw => ?_
    have hw := congrArg UInt32.toNat hw
    rw [MelodyPlayer.toNat_wait, hsettings, Note.due, UInt32.size] at hw
    simp only [UInt32.reduceToNat] at hw
    rw [← UInt32.toNat_inj.ne, ← UInt16.toNat_inj.ne] at unhurried
    simp only [UInt32.reduceToNat, UInt16.reduceToNat] at unhurried
    omega

theorem melody_tick_waits {p : MelodyPlayer} (h : (Player.melody p).Lasting)
    (unhurried : (Player.melody p).Unhurried) :
    (Player.melody (p.tick leases now).player).Waits now := by
  cases hp : p.playback with
  | none =>
    rw [MelodyPlayer.tick_of_idle _ _ hp]
    simp [Waits, hp, MelodyPlayer.InStep.hold_eq_none h hp]
  | some b =>
    obtain ⟨n, hb, _⟩ := MelodyPlayer.InStep.onNote h hp
    obtain ⟨settled, _, hsettings⟩ := MelodyPlayer.settle_frame leases now p
    have held := settle_holds_on leases now p
    rw [hp] at settled
    rw [(MelodyPlayer.tick_of_playback leases now hp).1]
    generalize (p.settle leases now).player = s at *
    -- What is left of the tone is not over, whichever way the cursor goes.
    obtain ⟨hw, ha⟩ | ⟨_, _, ha⟩ | ⟨_, c, m, hc, hs, hr, ha⟩ :=
      MelodyPlayer.advance_cases (p.settle leases now).leases now settled hb
    · rw [ha]
      refine ⟨held, fun c hc => ?_⟩
      obtain rfl := Option.some.inj (settled.symm.trans hc)
      exact ⟨n, hb, hw⟩
    · rw [ha]
      exact ⟨by rintro _ ⟨⟩, by rintro _ ⟨⟩⟩
    · rw [ha]
      refine play_waits rfl hc hs (unhurried.imp (fun hm => hsettings ▸ hm) fun all => ?_)
      exact all b hp m (Playback.mem_of_mem_remaining (by simp [hr]))

theorem ticked (h : p.Lasting) : Ticked now p (p.tick leases now).player := by
  cases p with
  | tone p => exact tone_ticked p
  | melody p => exact ⟨MelodyPlayer.tick_inStep leases now h, melody_tick_waits h⟩
  | alert p => exact alert_ticked h
  | sweep p => exact sweep_ticked h
  | siren p => exact siren_ticked h

theorem stop_lasting (h : p.Lasting) : (p.stop leases).player.Lasting := by
  cases hp : p.isActive with
  | false => rwa [stop_idle p leases hp]
  | true =>
    cases p with
    | tone p => trivial
    | melody p =>
      simp only [stop, MelodyPlayer.stop, show p.isActive = true from hp, if_true]
      exact MelodyPlayer.finish_inStep leases p .stopped
    | alert p =>
      simp only [stop, AlertPlayer.stop, show p.isActive = true from hp, if_true]
      rintro _ _ (hq | hq) <;> cases hq
    | sweep p =>
      simp only [stop, SweepPlayer.stop, show p.isActive = true from hp, if_true]
      rintro _ ⟨⟩
    | siren p =>
      simp only [stop, SirenPlayer.stop, show p.isActive = true from hp, if_true]
      rintro _ ⟨⟩

theorem respond_lasting (h : p.Lasting) (m : Moment) (call : Call) :
    (p.respond m call).player.Lasting := by
  cases call with
  | start request =>
    cases ha : p.start? m.leases m.now request with
    | none => simpa only [respond, ha] using h
    | some attempt => simpa only [respond, ha] using start?_lasting h ha
  | tick => exact (ticked h).lasting
  | stop => exact stop_lasting h

/-- A tick that finds nothing due does nothing. -/
theorem tick_of_waits (h : p.Waits now) : p.tick leases now = { player := p, leases } := by
  cases p with
  | tone p =>
    obtain ⟨ht, _⟩ | ⟨_, hold, hh, ended⟩ := p.tick_cases leases now
    · rw [tick, ht]
      rfl
    · exact absurd ended (h hold hh)
  | melody p =>
    obtain ⟨held, waits⟩ := h
    cases hp : p.playback with
    | none =>
      rw [tick, MelodyPlayer.tick_of_idle _ _ hp]
      rfl
    | some b =>
      obtain ⟨n, hb, hw⟩ := waits b hp
      have settled : p.settle leases now = { player := p, leases } := by
        obtain ⟨ht, _⟩ | ⟨_, hold, hh, ended⟩ := MelodyPlayer.settle_cases leases now p
        · exact ht
        · exact absurd ended (held hold hh)
      have active : p.isActive = true := by simp [MelodyPlayer.isActive, hp]
      simp only [tick, MelodyPlayer.tick, if_pos active, settled,
        MelodyPlayer.advance_of_wait leases now hp hb hw]
      rfl
  | alert p =>
    -- Every other way for a tick to go has its condition against it.
    obtain ⟨ht, _⟩ | ⟨w, since, hw, due, _⟩ | ⟨w, since, hw, due, _⟩ | ⟨w, since, hw, due, _⟩ :=
      p.tick_cases leases now
    · rw [tick, ht]
      rfl
    · exact absurd (h.1 w since hw) (UInt32.not_lt.mpr due)
    · exact absurd (h.1 w since hw) (UInt32.not_lt.mpr due)
    · exact absurd (h.2 w since hw) (UInt32.not_lt.mpr due)
  | sweep p =>
    obtain ⟨ht, _⟩ | ⟨s, _, hs, due, _⟩ | ⟨s, hs, due, _⟩ := p.tick_cases leases now
    · rw [tick, ht]
      rfl
    · exact absurd (h s hs) (UInt32.not_lt.mpr due)
    · exact absurd (h s hs) (UInt32.not_lt.mpr due)
  | siren p =>
    obtain ⟨ht, _⟩ | ⟨a, ha, _, due, _⟩ | ⟨a, ha, due, _⟩ := p.tick_cases leases now
    · rw [tick, ht]
      rfl
    · exact absurd (h a ha).2 (UInt32.not_lt.mpr due)
    · exact absurd (h a ha).1 (UInt32.not_lt.mpr due)

/-- Whatever a player has been asked to do before, and whatever the clock and the table show then, a
second tick at the same reading changes neither the player nor the table after the first one, and
issues nothing. -/
theorem second_tick_still (kind : Kind) (channel : Channel) (settings : Settings)
    (calls : List (Moment × Call)) (m : Moment) :
    let p := ((idle kind channel settings).runCalls calls).1
    p.Unhurried →
      let once := p.tick m.leases m.now
      once.player.tick once.leases m.now = { player := once.player, leases := once.leases } := by
  intro p unhurried once
  obtain ⟨lasting, -⟩ := runCalls_keeps (I := Lasting) (P := fun _ => True)
    (fun _ m call h => respond_lasting h m call) (fun _ _ _ _ _ _ => trivial)
    (lasting_idle kind channel settings) calls
  exact tick_of_waits ((ticked lasting).waits unhurried)

/-- Two notes, the second of no length, with the channel taken. -/
def stumble : List (Moment × Call) :=
  [(⟨{}, 0⟩, .start (.melody ⟨#[⟨440, 100⟩, ⟨880, 0⟩], .owned⟩ 2))]

/-- The first tick ends a tone and skips a note, and the second waits for the margin after that. -/
theorem second_tick_still_stumbling :
    let p := ((idle .melody ⟨0⟩ {}).runCalls stumble).1
    let once := p.tick ⟨[⟨0⟩], by simp⟩ 150
    p.Unhurried ∧ once.commands = [.silence ⟨0⟩, .silence ⟨0⟩] ∧ once.player.isActive = true ∧
      once.player.tick once.leases 150 = { player := once.player, leases := once.leases } := by
  intro p once
  have unhurried : p.Unhurried := .inl (by decide)
  exact ⟨unhurried, by decide, by decide,
    second_tick_still .melody ⟨0⟩ {} stumble ⟨⟨[⟨0⟩], by simp⟩, 150⟩ unhurried⟩

/-- An alert whose gaps have no length goes on at the second tick. -/
example :
    let p := ((idle .alert ⟨0⟩ {}).runCalls [(⟨{}, 0⟩, .start (.alert ⟨3, 440, 10, 0⟩))]).1
    let once := p.tick ⟨[⟨0⟩], by simp⟩ 10
    once.commands = [.silence ⟨0⟩] ∧
      (once.player.tick once.leases 10).commands = [.emit ⟨0⟩ 440] := by
  decide

end Player

end Piezo
