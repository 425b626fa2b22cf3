import Piezo.Proofs.Admission
import Piezo.Proofs.Calls

/-!
Legal frequencies: a player never has the output sound what its range does not allow.

A tone sounds only when it starts and a melody has each note checked as it begins. An alert, a sweep
and a siren sound again later on, so they are held to what was checked when they started.
-/

namespace Piezo

/-- A frequency that a command asks for is in range. -/
def Command.InRange (range : FrequencyRange) (c : Command) : Prop :=
  ∀ f, c.frequency? = some f → range.contains f = true

namespace Command

variable {range : FrequencyRange} {channel : Channel} {frequency : UInt32}

theorem inRange_silence : (silence channel).InRange range := by
  intro f hf
  cases hf

theorem inRange_emit (h : range.contains frequency = true) :
    (emit channel frequency).InRange range := by
  rintro f ⟨⟩
  exact h

/-- A held frequency is sounded only if it is no rest. -/
theorem inRange_hold (h : frequency = 0 ∨ range.contains frequency = true) :
    (Hold.command channel frequency).InRange range := by
  unfold Hold.command
  split
  · exact inRange_silence
  · next hf => exact inRange_emit (h.resolve_left hf)

end Command

namespace FrequencyRange

variable {range : FrequencyRange}

theorem contains_iff (range : FrequencyRange) (f : UInt32) :
    range.contains f = true ↔ range.min.toNat ≤ f.toNat ∧ f.toNat ≤ range.max.toNat := by
  simp [contains, UInt32.le_iff_toNat_le]

/-- A step of a sweep lies between where it was and the last frequency, so it cannot leave a range
that has both, however large the step is. -/
theorem contains_next {ramp : Ramp} {f g : UInt32} (hf : range.contains f = true)
    (hl : range.contains ramp.last = true) (h : ramp.next? f = some g) :
    range.contains g = true := by
  rw [contains_iff] at *
  unfold Ramp.next? at h
  simp only [Option.ite_none_left_eq_some, Option.some.injEq] at h
  obtain ⟨hp, rfl⟩ := h
  have hlast := ramp.last.toNat_lt
  have hbetween : (range.min.toNat : Int) ≤ f.toNat + ramp.step.toInt ∧
      f.toNat + ramp.step.toInt ≤ (range.max.toNat : Int) := by
    split at hp <;> omega
  have hmax := range.max.toNat_lt
  have hg : (UInt32.ofNat (f.toNat + ramp.step.toInt).toNat).toNat =
      (f.toNat + ramp.step.toInt).toNat := by
    rw [UInt32.toNat_ofNat']
    exact Nat.mod_eq_of_lt (by omega)
  rw [hg]
  omega

end FrequencyRange

/-- Valid settings leave 0 out of the range. -/
theorem Settings.contains_zero {s : Settings} (h : s.validate = .ok ()) :
    s.range.contains 0 = false := by
  have hmin : s.range.min.toNat ≠ 0 := by
    intro hm
    have hm : s.range.min = 0 := UInt32.toNat_inj.mp hm
    simp [validate, fault?, hm] at h
  rw [Bool.eq_false_iff, ne_eq, FrequencyRange.contains_iff]
  simp only [UInt32.reduceToNat]
  omega

namespace Player

open Command

/-- The frequencies that a player may yet come to sound by itself are in range. -/
def Within (range : FrequencyRange) : Player → Prop
  | .tone _ | .melody _ => True
  | .alert p => ∀ w since, p.phase = .sounding w since ∨ p.phase = .gap w since →
      range.contains w.frequency = true
  | .sweep p => ∀ s, p.sweep = some s →
      range.contains s.frequency = true ∧ range.contains s.ramp.last = true
  | .siren p => ∀ a, p.alternation = some a →
      range.contains a.wail.low = true ∧ range.contains a.wail.high = true

/-- A player with these settings that is held to their range. -/
structure Fit (s : Settings) (p : Player) : Prop where
  settings : p.settings = s
  within : p.Within s.range

/-- A turn that issues only what the range of the settings allows and leaves the player fit. -/
structure Legal (s : Settings) (turn : Turn Player) : Prop where
  fit : turn.player.Fit s
  commands : ∀ c ∈ turn.commands, c.InRange s.range

variable {s : Settings} {p : Player} {leases : Leases} {now : UInt32}

theorem within_of_idle {range : FrequencyRange} (h : p.isActive = false) : p.Within range := by
  cases p with
  | tone p => trivial
  | melody p => trivial
  | alert p =>
    have hi : p.phase = .idle := by simpa [isActive, AlertPlayer.isActive] using h
    simp [Within, hi]
  | sweep p => simp_all [Within, isActive, SweepPlayer.isActive]
  | siren p => simp_all [Within, isActive, SirenPlayer.isActive]

theorem Legal.still (h : p.Fit s) (notices : List Notice) :
    Legal s { player := p, leases, notices } := ⟨h, by simp⟩

theorem Legal.one {turn : Turn Player} (hs : turn.player.settings = s)
    (hw : turn.player.Within s.range) {c : Command} (ht : turn.commands = [c])
    (hc : c.InRange s.range) : Legal s turn :=
  ⟨⟨hs, hw⟩, by simpa [ht] using hc⟩

/-- Once it is idle again, a player has nothing more to sound by itself. -/
theorem Legal.ended {turn : Turn Player} (hs : turn.player.settings = s)
    (hi : turn.player.isActive = false) {channel : Channel}
    (ht : turn.commands = [.silence channel]) : Legal s turn :=
  .one hs (within_of_idle hi) ht inRange_silence

/-- An attempt is legal if the turn it goes on with is, in case the checks have passed. -/
theorem Legal.start {α : Type} {wrap : α → Player} {p : α} {kind : Kind} {channel : Channel}
    {held : Option Lease} {checked : Except Error Unit} {enter : Lease → Leases → Turn α}
    (h : (wrap p).Fit s)
    (entered : checked = .ok () → ∀ lease t, Legal s ((enter lease t).map wrap)) :
    Legal s ((Attempt.start p kind channel held leases checked enter).map wrap).toTurn :=
  Attempt.start_meets (P := fun turn => Legal s (turn.map wrap)) (fun notices => .still h notices)
    entered

theorem fit_idle (kind : Kind) (channel : Channel) (settings : Settings) :
    (idle kind channel settings).Fit settings :=
  ⟨by cases kind <;> rfl, within_of_idle (isActive_idle kind channel settings)⟩

theorem tone_start_legal {p : TonePlayer} (h : (Player.tone p).Fit s)
    (frequency duration : UInt32) :
    Legal s ((p.start leases now frequency duration).map .tone).toTurn := by
  refine Legal.start h fun hc lease t => ?_
  have hs : p.settings = s := h.settings
  rw [hs, tone_check] at hc
  refine Legal.one hs trivial rfl (inRange_hold ?_)
  have holds := Condition.holds_of_verdict hc List.mem_cons_self
  simpa using holds

theorem melody_play_legal {p : MelodyPlayer} (h : p.settings = s) (n : Note) :
    Legal s ((p.play leases now n).map .melody) := by
  by_cases hn : n.IsPlayable p.settings.range
  · rw [MelodyPlayer.play_of_isPlayable leases now hn]
    exact .one h trivial rfl (inRange_hold (h ▸ hn.1))
  · obtain ⟨error, he⟩ := MelodyPlayer.play_of_not_isPlayable leases now hn
    rw [he]
    exact .one h trivial rfl inRange_silence

theorem melody_start_legal {p : MelodyPlayer} (h : (Player.melody p).Fit s) (m : Melody)
    (repeats : UInt8) :
    Legal s ((p.start leases now m repeats).map .melody).toTurn :=
  Legal.start h fun _ lease _ =>
    { melody_play_legal (p := { p with
        playback := some ⟨m, 0, 0, max repeats 1, now⟩, lease := some lease, counted := 0 })
        h.settings _ with }

theorem tune_start_legal {p : MelodyPlayer} (h : (Player.melody p).Fit s)
    (source : Tune.Source) (repeats : UInt8) :
    Legal s ((p.startTune leases now source repeats).map .melody).toTurn := by
  unfold MelodyPlayer.startTune
  cases Tune.read p.settings source with
  | error error => exact .still h _
  | ok tune => exact { melody_start_legal h tune.melody repeats with }

theorem alert_start_legal {p : AlertPlayer} (h : (Player.alert p).Fit s)
    (pattern : Pattern) :
    Legal s ((p.start leases now pattern).map .alert).toTurn := by
  refine Legal.start h fun hc lease t => ?_
  have hs : p.settings = s := h.settings
  rw [hs, alert_check] at hc
  have holds : s.range.contains pattern.frequency = true :=
    Condition.holds_of_verdict hc (c := s.range.inRange _) (by simp [Request.conditions])
  refine Legal.one hs ?_ rfl (inRange_emit holds)
  rintro w since (hw | hw) <;> cases hw
  exact holds

theorem sweep_start_legal {p : SweepPlayer} (h : (Player.sweep p).Fit s) (ramp : Ramp) :
    Legal s ((p.start leases now ramp).map .sweep).toTurn := by
  refine Legal.start h fun hc lease t => ?_
  have hs : p.settings = s := h.settings
  rw [hs, sweep_check] at hc
  have first : s.range.contains ramp.first = true :=
    Condition.holds_of_verdict hc (c := s.range.inRange _) (by simp [Request.conditions])
  have last : s.range.contains ramp.last = true :=
    Condition.holds_of_verdict hc (c := s.range.inRange ramp.last) (by simp [Request.conditions])
  refine Legal.one hs ?_ rfl (inRange_emit first)
  rintro s ⟨⟩
  exact ⟨first, last⟩

theorem siren_start_legal {p : SirenPlayer} (h : (Player.siren p).Fit s) (wail : Wail) :
    Legal s ((p.start leases now wail).map .siren).toTurn := by
  refine Legal.start h fun hc lease t => ?_
  have hs : p.settings = s := h.settings
  rw [hs, siren_check] at hc
  have low : s.range.contains wail.low = true :=
    Condition.holds_of_verdict hc (c := s.range.inRange _) (by simp [Request.conditions])
  have high : s.range.contains wail.high = true :=
    Condition.holds_of_verdict hc (c := s.range.inRange wail.high) (by simp [Request.conditions])
  refine Legal.one hs ?_ rfl (inRange_emit low)
  rintro a ⟨⟩
  exact ⟨low, high⟩

theorem start?_legal (h : p.Fit s) {request : Request} {attempt : Attempt Player}
    (ha : p.start? leases now request = some attempt) : Legal s attempt.toTurn := by
  cases p <;> cases request <;> simp only [start?, reduceCtorEq, Option.some.injEq] at ha <;>
    subst ha
  case tone.tone p frequency duration => exact tone_start_legal h frequency duration
  case melody.melody p m repeats => exact melody_start_legal h m repeats
  case melody.tune p source repeats => exact tune_start_legal h source repeats
  case alert.alert p pattern => exact alert_start_legal h pattern
  case sweep.sweep p ramp => exact sweep_start_legal h ramp
  case siren.siren p wail => exact siren_start_legal h wail

theorem tone_tick_legal {p : TonePlayer} (h : (Player.tone p).Fit s) :
    Legal s ((p.tick leases now).map .tone) := by
  obtain ⟨ht, _⟩ | ⟨ht, _⟩ := p.tick_cases leases now
  · rw [ht]
    exact .still h []
  · rw [ht]
    exact .ended h.settings rfl rfl

/-- A gap is followed by the frequency that was sounded before it. -/
theorem alert_tick_legal {p : AlertPlayer} (h : (Player.alert p).Fit s) :
    Legal s ((p.tick leases now).map .alert) := by
  have within := h.within
  obtain ⟨ht, _⟩ | ⟨w, since, _, _, _, ht⟩ | ⟨w, since, hw, _, _, ht⟩ | ⟨w, since, hw, _, ht⟩ :=
    p.tick_cases leases now
  · rw [ht]
    exact .still h []
  · rw [ht]
    exact .ended h.settings rfl rfl
  · have holds := within w since (.inl hw)
    rw [ht]
    refine .one h.settings ?_ rfl inRange_silence
    rintro w since (hw | hw) <;> cases hw
    exact holds
  · have holds := within w since (.inr hw)
    rw [ht]
    refine .one h.settings ?_ rfl (inRange_emit holds)
    rintro w since (hw | hw) <;> cases hw
    exact holds

theorem sweep_tick_legal {p : SweepPlayer} (h : (Player.sweep p).Fit s) :
    Legal s ((p.tick leases now).map .sweep) := by
  obtain ⟨ht, _⟩ | ⟨w, frequency, hw, _, hn, ht⟩ | ⟨w, _, _, _, ht⟩ := p.tick_cases leases now
  · rw [ht]
    exact .still h []
  · obtain ⟨current, last⟩ := h.within w hw
    have holds := FrequencyRange.contains_next current last hn
    rw [ht]
    refine .one h.settings ?_ rfl (inRange_emit holds)
    rintro _ ⟨⟩
    exact ⟨holds, last⟩
  · rw [ht]
    exact .ended h.settings rfl rfl

theorem siren_tick_legal {p : SirenPlayer} (h : (Player.siren p).Fit s) :
    Legal s ((p.tick leases now).map .siren) := by
  obtain ⟨ht, _⟩ | ⟨a, ha, _, _, ht⟩ | ⟨a, _, _, ht⟩ := p.tick_cases leases now
  · rw [ht]
    exact .still h []
  · obtain ⟨low, high⟩ := h.within a ha
    have holds : s.range.contains (a.flip now).frequency = true := by
      unfold Alternation.frequency
      split
      · exact low
      · exact high
    rw [ht]
    refine .one h.settings ?_ rfl (inRange_emit holds)
    rintro _ ⟨⟩
    exact ⟨low, high⟩
  · rw [ht]
    exact .ended h.settings rfl rfl

theorem melody_settle_legal {p : MelodyPlayer} (h : (Player.melody p).Fit s) :
    Legal s ((p.settle leases now).map .melody) := by
  obtain ⟨ht, _⟩ | ⟨ht, _⟩ := MelodyPlayer.settle_cases leases now p
  · rw [ht]
    exact .still h []
  · rw [ht]
    exact .one h.settings trivial rfl inRange_silence

theorem melody_advance_legal {p : MelodyPlayer} (h : (Player.melody p).Fit s) :
    Legal s ((p.advance leases now).map .melody) := by
  unfold MelodyPlayer.advance
  split
  · exact .still h []
  · split
    · exact .still h []
    · split
      · exact .ended h.settings rfl rfl
      · next next _ => exact melody_play_legal (p := { p with playback := some next }) h.settings _

/-- What is legal one call after another is legal taken together. -/
theorem Legal.trans {first second : Turn Player} (h : Legal s first) (k : Legal s second)
    (notices : List Notice) :
    Legal s { second with commands := first.commands ++ second.commands, notices } where
  fit := k.fit
  commands := by
    intro c hc
    rcases List.mem_append.mp hc with hc | hc
    · exact h.commands c hc
    · exact k.commands c hc

theorem melody_tick_legal {p : MelodyPlayer} (h : (Player.melody p).Fit s) :
    Legal s ((p.tick leases now).map .melody) := by
  unfold MelodyPlayer.tick
  split
  · have settled : Legal s ((p.settle leases now).map .melody) := melody_settle_legal h
    exact settled.trans (melody_advance_legal settled.fit) _
  · exact .still h []

theorem tick_legal (h : p.Fit s) : Legal s (p.tick leases now) := by
  cases p with
  | tone p => exact tone_tick_legal h
  | melody p => exact melody_tick_legal h
  | alert p => exact alert_tick_legal h
  | sweep p => exact sweep_tick_legal h
  | siren p => exact siren_tick_legal h

theorem stop_legal (h : p.Fit s) : Legal s (p.stop leases) := by
  cases hp : p.isActive with
  | false =>
    rw [stop_idle p leases hp]
    exact .still h []
  | true =>
    obtain ⟨hi, hc⟩ := stop_active leases hp
    exact .ended ((stop_settings p leases).trans h.settings) hi hc

theorem respond_legal (h : p.Fit s) (m : Moment) (call : Call) : Legal s (p.respond m call) := by
  cases call with
  | start request =>
    cases ha : p.start? m.leases m.now request with
    | none => simpa only [respond, ha] using Legal.still h []
    | some attempt => simpa only [respond, ha] using start?_legal h ha
  | tick => exact tick_legal h
  | stop => exact stop_legal h

/-- Whatever a player is asked to do in turn, and whatever the clock shows then, each frequency that
it has the output sound is in the range of its settings. Under valid settings none is 0. -/
theorem emits_in_range (kind : Kind) (channel : Channel) (settings : Settings)
    (calls : List (Moment × Call)) :
    let issued := ((idle kind channel settings).runCalls calls).2
    (∀ c frequency, .emit c frequency ∈ issued → settings.range.contains frequency = true) ∧
      (settings.validate = .ok () → ∀ c, .emit c 0 ∉ issued) := by
  intro issued
  have inRange : ∀ c frequency, .emit c frequency ∈ issued →
      settings.range.contains frequency = true := by
    obtain ⟨-, legal⟩ := runCalls_keeps (I := Fit settings) (P := Command.InRange settings.range)
      (fun _ m call h => (respond_legal h m call).fit)
      (fun _ m call h => (respond_legal h m call).commands) (fit_idle kind channel settings) calls
    intro c frequency hc
    exact legal _ hc frequency rfl
  refine ⟨inRange, fun valid c hc => ?_⟩
  have holds := inRange c 0 hc
  rw [Settings.contains_zero valid] at holds
  cases holds

/-- A fall by steps that do not divide it, in a range that ends where the fall does. -/
def fall : List (Moment × Call) :=
  (⟨{}, 0⟩, .start (.sweep ⟨500, 100, -150, 10⟩)) ::
    [10, 20, 30].map fun now => (⟨{}, now⟩, .tick)

theorem emits_in_range_fall :
    let settings : Settings := { range := ⟨100, 500⟩ }
    let issued := ((idle .sweep ⟨0⟩ settings).runCalls fall).2
    issued = [.emit ⟨0⟩ 500, .emit ⟨0⟩ 350, .emit ⟨0⟩ 200, .silence ⟨0⟩] ∧
      (∀ c frequency, .emit c frequency ∈ issued → settings.range.contains frequency = true) ∧
        ∀ c, .emit c 0 ∉ issued := by
  intro settings issued
  obtain ⟨inRange, nonzero⟩ := emits_in_range .sweep ⟨0⟩ settings fall
  exact ⟨rfl, inRange, nonzero rfl⟩

end Player

end Piezo
