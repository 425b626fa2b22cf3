import Piezo.Proofs.Conduct

/-!
Admission: what decides a start. Each request has a list of checks, and the channel's lease comes
after them; the first that fails is the answer, and then nothing has changed.
-/

namespace Piezo

/-- A condition that a start has to meet, and the error that answers for it. -/
structure Condition where
  holds : Bool
  error : Error

namespace Condition

/-- The error of the first condition that fails. -/
def firstFailing? (conditions : List Condition) : Option Error :=
  (conditions.find? fun c => !c.holds).map error

/-- What is answered where these conditions decide. -/
def verdict (conditions : List Condition) : Except Error Unit :=
  match firstFailing? conditions with
  | some error => .error error
  | none => .ok ()

@[simp] theorem verdict_nil : verdict [] = .ok () := rfl

@[simp] theorem verdict_cons (c : Condition) (rest : List Condition) :
    verdict (c :: rest) = if c.holds then verdict rest else .error c.error := by
  cases hc : c.holds <;> simp [verdict, firstFailing?, hc]

theorem verdict_append (first second : List Condition) :
    verdict (first ++ second) = (verdict first).bind fun _ => verdict second := by
  induction first with
  | nil => rfl
  | cons c rest ih =>
    rw [List.cons_append, verdict_cons, verdict_cons, ih]
    cases c.holds <;> rfl

theorem verdict_eq_ok (conditions : List Condition) :
    verdict conditions = .ok () ↔ firstFailing? conditions = none := by
  unfold verdict
  cases firstFailing? conditions <;> simp

theorem verdict_eq_error (conditions : List Condition) (error : Error) :
    verdict conditions = .error error ↔ firstFailing? conditions = some error := by
  unfold verdict
  cases firstFailing? conditions <;> simp

theorem holds_of_verdict {conditions : List Condition} (h : verdict conditions = .ok ())
    {c : Condition} (hc : c ∈ conditions) : c.holds = true := by
  rw [verdict_eq_ok, firstFailing?, Option.map_eq_none_iff, List.find?_eq_none] at h
  simpa using h c hc

end Condition

/-- A frequency has to be in range. -/
def FrequencyRange.inRange (range : FrequencyRange) (frequency : UInt32) : Condition :=
  ⟨range.contains frequency, .frequencyOutOfRange frequency range.min range.max⟩

/-- What a request has to meet before the channel is looked at, in order. -/
def Request.conditions (settings : Settings) : Request → List Condition
  | .tone frequency duration =>
    [⟨frequency = 0 || settings.range.contains frequency,
        .frequencyOutOfRange frequency settings.range.min settings.range.max⟩,
      ⟨duration ≠ 0, .zeroDuration⟩]
  | .melody m _ => [⟨m.size ≠ 0, .emptyMelody⟩]
  | .tune source _ =>
    match Tune.read settings source with
    | .error error => [⟨false, error⟩]
    | .ok read => [⟨read.notes ≠ [], .emptyMelody⟩]
  | .alert pattern =>
    [⟨pattern.count ≠ 0, .zeroCount⟩, settings.range.inRange pattern.frequency,
      ⟨pattern.duration ≠ 0, .zeroDuration⟩]
  | .sweep ramp =>
    [settings.range.inRange ramp.first, settings.range.inRange ramp.last,
      ⟨ramp.step ≠ 0, .zeroStep⟩, ⟨ramp.duration ≠ 0, .zeroDuration⟩]
  | .siren wail =>
    [settings.range.inRange wail.low, settings.range.inRange wail.high,
      ⟨wail.total ≠ 0, .zeroDuration⟩]

namespace Player

open Condition

def settings : Player → Settings
  | .tone p => p.settings
  | .melody p => p.settings
  | .alert p => p.settings
  | .sweep p => p.settings
  | .siren p => p.settings

theorem stop_settings (p : Player) (leases : Leases) :
    (p.stop leases).player.settings = p.settings := by
  cases p <;>
    simp only [stop, TonePlayer.stop, MelodyPlayer.stop, AlertPlayer.stop, SweepPlayer.stop,
      SirenPlayer.stop] <;>
    split <;>
    rfl

/-- A player needs a channel that is its own already or free. -/
def freeChannel (p : Player) (leases : Leases) : Condition :=
  ⟨p.lease.isSome || !leases.isLeased p.channel, .channelBusy p.channel⟩

/-- What decides a start: the request's conditions, and the channel last. -/
def conditions (p : Player) (leases : Leases) (request : Request) : List Condition :=
  request.conditions p.settings ++ [p.freeChannel leases]

/-- What an admitted start does to a player and to its surroundings. -/
structure Admitted (p : Player) (leases : Leases) (turn : Turn Player) : Prop where
  coherent : turn.player.Coherent
  active : turn.player.isActive = true
  channel : turn.player.channel = p.channel
  balance : (turn.leases.channels ++ p.held.map Lease.channel).Perm
    (leases.channels ++ turn.player.held.map Lease.channel)
  command : ∃ c, turn.commands = [c] ∧ c.channel = p.channel ∧ turn.player.voice = c.frequency?

/-- An attempt that its conditions decide, and that changes nothing if it is refused. -/
structure Decided (p : Player) (leases : Leases) (conditions : List Condition)
    (attempt : Attempt Player) : Prop where
  verdict : attempt.verdict = verdict conditions
  admitted : attempt.verdict = .ok () → Admitted p leases attempt.toTurn
  refused : ∀ error, attempt.verdict = .error error →
    attempt.player = p ∧ attempt.leases = leases ∧ attempt.commands = []

variable {p q : Player} {leases t : Leases} {lease : Lease}

theorem secure_freeChannel (p : Player) (leases : Leases) :
    (leases.secure p.lease p.channel).map (fun _ => ()) = verdict [p.freeChannel leases] := by
  simp only [verdict_cons, verdict_nil, freeChannel, Leases.secure]
  cases p.lease with
  | some lease => rfl
  | none =>
    by_cases hc : p.channel ∈ leases.channels <;>
      simp [Leases.acquire, Leases.isLeased, hc, Except.map]

/-- Going on with a secured lease is an admission. -/
theorem Admitted.enter (h : p.Coherent) (hs : leases.secure p.lease p.channel = .ok (lease, t))
    (hq : q.Inner) (hl : q.lease = some lease) (ha : q.isActive = true)
    (hc : q.channel = p.channel) {c : Command} (hcc : c.channel = p.channel)
    (hv : q.voice = c.frequency?) (notices : List Notice) :
    Admitted p leases { player := q, leases := t, commands := [c], notices } := by
  have hlease : lease = ⟨p.channel⟩ ∧
      (t.channels ++ p.held.map Lease.channel).Perm (leases.channels ++ [p.channel]) := by
    rw [h.held_eq]
    rw [h.lease] at hs
    cases hp : p.isActive with
    | true =>
      simp only [hp, Leases.secure, if_true] at hs
      cases hs
      exact ⟨rfl, .refl _⟩
    | false =>
      simp only [hp, Bool.false_eq_true, if_false] at hs
      obtain ⟨hlease, ht⟩ := Leases.of_acquire_eq_ok hs
      refine ⟨hlease, ?_⟩
      simpa [ht] using
        (List.perm_append_comm : ([p.channel] ++ leases.channels).Perm (leases.channels ++ _))
  obtain ⟨hlease, ht⟩ := hlease
  have hcoherent : q.Coherent := ⟨by rw [hl, ha, hc, hlease]; rfl, hq⟩
  constructor
  case coherent => exact hcoherent
  case active => exact ha
  case channel => exact hc
  case balance => simpa [hcoherent.held_eq, ha, hc] using ht
  case command => exact ⟨c, rfl, hcc, hv⟩

/-- Every kind's start is decided by its conditions if its way of going on is an admission. -/
theorem Decided.start {α : Type} {wrap : α → Player} {p : α} {kind : Kind} {channel : Channel}
    {held : Option Lease} {checked : Except Error Unit} {enter : Lease → Leases → Turn α}
    {conditions : List Condition} (hch : channel = (wrap p).channel) (hh : held = (wrap p).lease)
    (hc : checked = Condition.verdict conditions)
    (henter : checked = .ok () →
      ∀ lease t, leases.secure (wrap p).lease (wrap p).channel = .ok (lease, t) →
        Admitted (wrap p) leases ((enter lease t).map wrap)) :
    Decided (wrap p) leases (conditions ++ [(wrap p).freeChannel leases])
      ((Attempt.start p kind channel held leases checked enter).map wrap) := by
  subst hch hh
  have hf := secure_freeChannel (wrap p) leases
  have hv : ∀ a : Attempt α,
      a.verdict = (checked.bind fun _ => Condition.verdict [(wrap p).freeChannel leases]) →
      (a.map wrap).verdict =
        Condition.verdict (conditions ++ [(wrap p).freeChannel leases]) := by
    intro a ha
    rw [verdict_append, ← hc]
    exact ha
  obtain ⟨error, he, hs⟩ | ⟨ho, error, he, hs⟩ | ⟨ho, lease, t, he, hs⟩ :=
    Attempt.start_cases p kind _ _ leases checked enter
  · rw [hs]
    constructor
    case verdict => exact hv _ (by rw [he]; rfl)
    case admitted => simp [Attempt.map]
    case refused => exact fun _ _ => ⟨rfl, rfl, rfl⟩
  · rw [hs]
    rw [he] at hf
    constructor
    case verdict => exact hv _ (by rw [ho]; exact hf)
    case admitted => simp [Attempt.map]
    case refused => exact fun _ _ => ⟨rfl, rfl, rfl⟩
  · rw [hs]
    rw [he] at hf
    constructor
    case verdict => exact hv _ (by rw [ho]; exact hf)
    case admitted => exact fun _ => henter ho lease t he
    case refused => simp [Attempt.map]

theorem tone_check (settings : Settings) (frequency duration : UInt32) :
    Hold.check settings.range frequency duration =
      Condition.verdict (Request.conditions settings (.tone frequency duration)) := by
  rw [Hold.check_eq]
  simp only [Request.conditions, verdict_cons, verdict_nil]
  by_cases hf : frequency = 0 <;> by_cases hr : settings.range.contains frequency <;>
    by_cases hd : duration = 0 <;> simp [hf, hr, hd]

theorem melody_check (settings : Settings) (m : Melody) (repeats : UInt8) :
    m.check = Condition.verdict (Request.conditions settings (.melody m repeats)) := by
  simp only [Request.conditions, verdict_cons, verdict_nil, Melody.check]
  by_cases hm : m.size = 0 <;> simp [hm]

theorem alert_check (settings : Settings) (pattern : Pattern) :
    pattern.check settings.range =
      Condition.verdict (Request.conditions settings (.alert pattern)) := by
  simp only [Request.conditions, verdict_cons, verdict_nil, Pattern.check, FrequencyRange.check,
    checkDuration, FrequencyRange.inRange]
  by_cases hc : pattern.count = 0 <;>
    by_cases hr : settings.range.contains pattern.frequency <;>
    by_cases hd : pattern.duration = 0 <;> simp [hc, hr, hd] <;> rfl

theorem sweep_check (settings : Settings) (ramp : Ramp) :
    ramp.check settings.range = Condition.verdict (Request.conditions settings (.sweep ramp)) := by
  simp only [Request.conditions, verdict_cons, verdict_nil, Ramp.check, FrequencyRange.check,
    checkDuration, FrequencyRange.inRange]
  by_cases hf : settings.range.contains ramp.first <;>
    by_cases hl : settings.range.contains ramp.last <;> by_cases hs : ramp.step = 0 <;>
    by_cases hd : ramp.duration = 0 <;> simp [hf, hl, hs, hd] <;> rfl

theorem siren_check (settings : Settings) (wail : Wail) :
    wail.check settings.range = Condition.verdict (Request.conditions settings (.siren wail)) := by
  simp only [Request.conditions, verdict_cons, verdict_nil, Wail.check, FrequencyRange.check,
    checkDuration, FrequencyRange.inRange]
  by_cases hl : settings.range.contains wail.low <;>
    by_cases hh : settings.range.contains wail.high <;> by_cases hd : wail.total = 0 <;>
    simp [hl, hh, hd] <;> rfl

theorem tone_start_decided {p : TonePlayer} (h : (Player.tone p).Coherent)
    (leases : Leases) (now frequency duration : UInt32) :
    Decided (.tone p) leases ((Player.tone p).conditions leases (.tone frequency duration))
      ((p.start leases now frequency duration).map .tone) := by
  refine Decided.start rfl rfl (tone_check p.settings frequency duration) ?_
  intro _ lease t hs
  apply Admitted.enter h hs
  case hcc => exact Hold.channel_command ..
  case hv => exact (Hold.frequency?_command ..).symm
  all_goals trivial

theorem alert_start_decided {p : AlertPlayer} (h : (Player.alert p).Coherent)
    (leases : Leases) (now : UInt32) (pattern : Pattern) :
    Decided (.alert p) leases ((Player.alert p).conditions leases (.alert pattern))
      ((p.start leases now pattern).map .alert) := by
  refine Decided.start rfl rfl (alert_check p.settings pattern) ?_
  intro _ lease t hs
  apply Admitted.enter h hs <;> trivial

theorem sweep_start_decided {p : SweepPlayer} (h : (Player.sweep p).Coherent)
    (leases : Leases) (now : UInt32) (ramp : Ramp) :
    Decided (.sweep p) leases ((Player.sweep p).conditions leases (.sweep ramp))
      ((p.start leases now ramp).map .sweep) := by
  refine Decided.start rfl rfl (sweep_check p.settings ramp) ?_
  intro _ lease t hs
  apply Admitted.enter h hs <;> trivial

theorem siren_start_decided {p : SirenPlayer} (h : (Player.siren p).Coherent)
    (leases : Leases) (now : UInt32) (wail : Wail) :
    Decided (.siren p) leases ((Player.siren p).conditions leases (.siren wail))
      ((p.start leases now wail).map .siren) := by
  refine Decided.start rfl rfl (siren_check p.settings wail) ?_
  intro _ lease t hs
  apply Admitted.enter h hs <;> trivial

theorem melody_start_decided {p : MelodyPlayer} (h : (Player.melody p).Coherent)
    (leases : Leases) (now : UInt32) (m : Melody) (repeats : UInt8) :
    Decided (.melody p) leases ((Player.melody p).conditions leases (.melody m repeats))
      ((p.start leases now m repeats).map .melody) := by
  refine Decided.start rfl rfl (melody_check p.settings m repeats) ?_
  intro hc lease t hs
  have hm : m.size ≠ 0 := by
    intro he
    simp [Melody.check, he] at hc
  obtain ⟨n, notices, hn, he⟩ := MelodyPlayer.enter_spec t now p hm repeats lease
  let begun : MelodyPlayer :=
    { p with playback := some ⟨m, 0, 0, max repeats 1, now⟩, lease := some lease, counted := 0 }
  have hin : (begun.play t now n).player.InStep := MelodyPlayer.play_inStep t now rfl hn rfl
  obtain ⟨tone, c, _, hp, ht, htc, hc, hv⟩ := melody_play_turn (p := begun) h.inner.1 t now n
  rw [hp] at hin
  rw [he, hp]
  exact Admitted.enter h hs (.melody ht hin) rfl rfl htc hc hv notices

theorem Decided.withNotices {conditions : List Condition} {attempt : Attempt Player}
    (k : Decided p leases conditions attempt) (notices : List Notice) :
    Decided p leases conditions { attempt with notices } where
  verdict := k.verdict
  admitted hv := { k.admitted hv with }
  refused := k.refused

theorem tune_start_decided {p : MelodyPlayer} (h : (Player.melody p).Coherent)
    (leases : Leases) (now : UInt32) (source : Tune.Source) (repeats : UInt8) :
    Decided (.melody p) leases ((Player.melody p).conditions leases (.tune source repeats))
      ((p.startTune leases now source repeats).map .melody) := by
  cases hr : Tune.read p.settings source with
  | error error =>
    have hc : (Player.melody p).conditions leases (.tune source repeats) =
        ⟨false, error⟩ :: [(Player.melody p).freeChannel leases] := by
      simp [conditions, Request.conditions, settings, hr]
    rw [hc]
    simp only [MelodyPlayer.startTune, hr]
    constructor
    case verdict => simp [Attempt.map]
    case admitted => simp [Attempt.map]
    case refused => exact fun _ _ => ⟨rfl, rfl, rfl⟩
  | ok tune =>
    have hc : (Player.melody p).conditions leases (.tune source repeats) =
        (Player.melody p).conditions leases (.melody tune.melody repeats) := by
      simp [conditions, Request.conditions, settings, hr, Tune.melody, Melody.size]
    rw [hc]
    simp only [MelodyPlayer.startTune, hr]
    exact (melody_start_decided h leases now tune.melody repeats).withNotices _

/-- A player understands the requests that are for its kind. -/
theorem isSome_start? (p : Player) (leases : Leases) (now : UInt32) (request : Request) :
    (p.start? leases now request).isSome ↔ request.kind = p.kind := by
  cases p <;> cases request <;> simp [start?, Request.kind, kind]

/-- Every start that a player understands is decided by its conditions. -/
theorem start?_decided (h : p.Coherent) {now : UInt32} {request : Request}
    {attempt : Attempt Player} (ha : p.start? leases now request = some attempt) :
    Decided p leases (p.conditions leases request) attempt := by
  cases p <;> cases request <;> simp only [start?, reduceCtorEq, Option.some.injEq] at ha <;>
    subst ha
  case tone.tone p frequency duration => exact tone_start_decided h leases now frequency duration
  case melody.melody p m repeats => exact melody_start_decided h leases now m repeats
  case melody.tune p source repeats => exact tune_start_decided h leases now source repeats
  case alert.alert p pattern => exact alert_start_decided h leases now pattern
  case sweep.sweep p ramp => exact sweep_start_decided h leases now ramp
  case siren.siren p wail => exact siren_start_decided h leases now wail

/-- Admitted or not, a start leaves the player coherent and trades channels evenly. -/
theorem Decided.trades (h : p.Coherent) {conditions : List Condition} {attempt : Attempt Player}
    (k : Decided p leases conditions attempt) :
    attempt.player.Coherent ∧
      (attempt.leases.channels ++ p.held.map Lease.channel).Perm
        (leases.channels ++ attempt.player.held.map Lease.channel) := by
  cases hv : attempt.verdict with
  | ok =>
    have ha := k.admitted hv
    exact ⟨ha.coherent, ha.balance⟩
  | error error =>
    obtain ⟨hp, hl, -⟩ := k.refused error hv
    rw [hp, hl]
    exact ⟨h, .refl _⟩

/-- An admitted player's channel is in the table. -/
theorem Admitted.listed {turn : Turn Player} (h : p.Coherent) (hl : p.Listed leases)
    (k : Admitted p leases turn) : turn.player.Listed turn.leases := by
  intro _
  have hb := k.balance
  rw [h.held_eq, k.coherent.held_eq, k.active, k.channel] at hb
  rw [k.channel]
  cases hp : p.isActive with
  | true =>
    rw [hp] at hb
    exact ((List.perm_append_right_iff _).mp hb).mem_iff.mpr (hl hp)
  | false =>
    rw [hp] at hb
    simpa using hb.mem_iff (a := p.channel)

end Player

end Piezo
