import Piezo.Proofs.Admission
import Piezo.Proofs.Cues

/-!
Beeping: how an alert counts.

An alert keeps to its cues whenever the ticks come, and at each moment the tones it has counted are
those that are no longer among them.
-/

namespace Piezo

namespace Pattern

variable (w : Pattern) (c : Channel)

/-- One tone and the silence that ends it. -/
def beep : List Command := [.emit c w.frequency, .silence c]

/-- All tones of an alert. -/
def score : List Command := (List.replicate w.count.toNat (w.beep c)).flatten

/-- What comes after the beginning of a tone that so many more will follow. -/
def cues (more : Nat) : List Cue :=
  ⟨w.duration, .silence c⟩ ::
    (List.replicate more [⟨w.lapse, .emit c w.frequency⟩, ⟨w.duration, .silence c⟩]).flatten

theorem cues_succ (more : Nat) :
    w.cues c (more + 1) =
      ⟨w.duration, .silence c⟩ :: ⟨w.lapse, .emit c w.frequency⟩ :: w.cues c more := by
  simp [cues, List.replicate_succ]

theorem commands_cues (more : Nat) :
    .emit c w.frequency :: (w.cues c more).map Cue.command =
      (List.replicate (more + 1) (w.beep c)).flatten := by
  induction more with
  | zero => rfl
  | succ more ih => rw [List.replicate_succ, List.flatten_cons, ← ih, cues_succ]; rfl

theorem countP_beeps (count : Nat) (test : Command → Bool) :
    (List.replicate count (w.beep c)).flatten.countP test = count * (w.beep c).countP test := by
  induction count with
  | zero => rw [Nat.zero_mul]; rfl
  | succ count ih =>
    rw [List.replicate_succ, List.flatten_cons, List.countP_append, ih, Nat.succ_mul, Nat.add_comm]

theorem count_pos {w : Pattern} {settings : Settings} (h : w.check settings.range = .ok ()) :
    0 < w.count := by
  rw [Player.alert_check] at h
  have holds := Condition.holds_of_verdict h (c := ⟨w.count ≠ 0, .zeroCount⟩) List.mem_cons_self
  exact UInt32.pos_iff_ne_zero.mpr (by simpa using holds)

/-- The first tone and those after it. -/
theorem pred_count_succ {w : Pattern} {settings : Settings}
    (h : w.check settings.range = .ok ()) : w.count.toNat - 1 + 1 = w.count.toNat :=
  Nat.sub_add_cancel (UInt32.lt_iff_toNat_lt.mp (count_pos h))

end Pattern

namespace AlertPlayer

variable {w : Pattern} {c : Channel} {p : AlertPlayer} {since : UInt32}

theorem toNat_completed_succ (h : p.completed < w.count) :
    (p.completed + 1).toNat = p.completed.toNat + 1 := by
  have := w.count.toNat_lt
  rw [UInt32.lt_iff_toNat_lt] at h
  rw [UInt32.toNat_add, UInt32.toNat_one]
  exact Nat.mod_eq_of_lt (by omega)

/-- Tones that are to follow the current one. -/
def more (w : Pattern) (p : AlertPlayer) : Nat := w.count.toNat - (p.completed.toNat + 1)

/-- An alert that sounds a pattern on a channel, and the cues that it has left. -/
inductive Beeps (w : Pattern) (c : Channel) : AlertPlayer → Sheet → Prop
  | tone {p : AlertPlayer} {since : UInt32} (channel : p.channel = c)
      (phase : p.phase = .sounding w since) (counted : p.completed < w.count) :
      Beeps w c p ⟨since, w.cues c (more w p)⟩
  | gap {p : AlertPlayer} {since : UInt32} (channel : p.channel = c)
      (phase : p.phase = .gap w since) (counted : p.completed < w.count) :
      Beeps w c p ⟨since, ⟨w.lapse, .emit c w.frequency⟩ :: w.cues c (more w p)⟩
  | ended {p : AlertPlayer} {since : UInt32} (phase : p.phase = .idle)
      (counted : p.completed = w.count) : Beeps w c p ⟨since, []⟩

theorem more_of_last (counted : p.completed < w.count) (last : w.count ≤ p.completed + 1) :
    more w p = 0 ∧ p.completed + 1 = w.count := by
  have hs := toNat_completed_succ counted
  rw [UInt32.lt_iff_toNat_lt] at counted
  rw [UInt32.le_iff_toNat_le] at last
  rw [more, ← UInt32.toNat_inj]
  omega

theorem more_of_not_last (counted : p.completed < w.count) (next : ¬ w.count ≤ p.completed + 1) :
    more w p = more w { p with completed := p.completed + 1 } + 1 ∧ p.completed + 1 < w.count := by
  have hs := toNat_completed_succ counted
  rw [UInt32.le_iff_toNat_le] at next
  rw [UInt32.lt_iff_toNat_lt]
  simp only [more]
  omega

/-- A tone ends when it is over, for good if it was the last, and so does a gap. -/
theorem beeps_leads (w : Pattern) (c : Channel) : Leads tick (Beeps w c) := by
  intro p s leases now h
  cases h with
  | @tone since channel phase counted =>
    unfold Pattern.cues
    by_cases early : Clock.elapsed now since < w.duration
    · rw [Sheet.due?_early _ early]
      simp only [tick, phase, if_pos early, true_and]
      exact .tone channel phase counted
    · rw [Sheet.due?_late _ early]
      simp only [tick, phase, if_neg early]
      by_cases last : w.count ≤ p.completed + 1
      · obtain ⟨none, all⟩ := more_of_last counted last
        simp only [if_pos last, none]
        exact ⟨by rw [← channel]; rfl, .ended rfl all⟩
      · obtain ⟨one, counted⟩ := more_of_not_last counted last
        simp only [if_neg last, one, List.replicate_succ, List.flatten_cons]
        exact ⟨by rw [channel], .gap channel rfl counted⟩
  | @gap since channel phase counted =>
    by_cases early : Clock.elapsed now since < w.lapse
    · rw [Sheet.due?_early _ early]
      simp only [tick, phase, if_pos early, true_and]
      exact .gap channel phase counted
    · rw [Sheet.due?_late _ early]
      simp only [tick, phase, if_neg early]
      exact ⟨by rw [channel], .tone channel rfl counted⟩
  | ended phase counted =>
    simp only [Sheet.due?_nil, tick, phase, true_and]
    exact .ended phase counted

/-- An alert that is let in sounds its first tone, and has all else to come. -/
theorem start_beeps {leases : Leases} {now : UInt32}
    (accepted : (p.start leases now w).verdict = .ok ()) :
    let cues := w.cues p.channel (w.count.toNat - 1)
    Beeps w p.channel (p.start leases now w).player ⟨now, cues⟩ ∧
      (p.start leases now w).commands = [.emit p.channel w.frequency] ∧
      (p.start leases now w).commands ++ cues.map Cue.command = w.score p.channel := by
  obtain ⟨checked, lease, t, entered⟩ := Attempt.entered accepted
  rw [start, entered]
  refine ⟨.tone rfl rfl (Pattern.count_pos checked), rfl, ?_⟩
  rw [Pattern.score, ← Pattern.pred_count_succ checked, ← Pattern.commands_cues]
  rfl

/-- What has been issued is each counted tone, and the beginning of another while one sounds. -/
theorem Beeps.issued_eq {s : Sheet} (h : Beeps w c p s) {issued : List Command}
    (whole : issued ++ s.cues.map Cue.command = w.score c) :
    issued = (List.replicate p.completed.toNat (w.beep c)).flatten ++
      if p.isToneOn then [.emit c w.frequency] else [] := by
  have split (counted : p.completed < w.count) :
      w.score c = (List.replicate p.completed.toNat (w.beep c)).flatten ++
        ([.emit c w.frequency] ++ (w.cues c (more w p)).map Cue.command) := by
    have hk : w.count.toNat = p.completed.toNat + (more w p + 1) := by
      rw [UInt32.lt_iff_toNat_lt] at counted
      unfold more
      omega
    rw [List.singleton_append, Pattern.commands_cues, ← List.flatten_append,
      List.replicate_append_replicate, ← hk, Pattern.score]
  rw [← List.append_left_inj (s.cues.map Cue.command)]
  rw [whole]
  cases h with
  | tone _ phase counted =>
    simp only [isToneOn, phase, if_true, List.append_assoc]
    exact split counted
  | gap _ phase counted =>
    simp only [isToneOn, phase, Bool.false_eq_true, if_false, List.append_nil, List.map_cons]
    exact split counted
  | ended phase counted =>
    simp [isToneOn, phase, counted, Pattern.score]

/-- An alert is active for as long as it has cues left. -/
theorem Beeps.idle_iff {s : Sheet} (h : Beeps w c p s) : p.isActive = false ↔ s.cues = [] := by
  cases h with
  | tone _ phase _ => simp [isActive, phase, Pattern.cues]
  | gap _ phase _ => simp [isActive, phase]
  | ended phase _ => simp [isActive, phase]

/-- An alert that is active has not counted all its tones. -/
theorem Beeps.progress {s : Sheet} (h : Beeps w c p s) :
    (p.isActive = true ∧ p.completed < w.count) ∨
      (p.isActive = false ∧ p.completed = w.count ∧ p.isToneOn = false) := by
  cases h with
  | tone _ phase counted => exact .inl ⟨by simp [isActive, phase], counted⟩
  | gap _ phase counted => exact .inl ⟨by simp [isActive, phase], counted⟩
  | ended phase counted =>
    exact .inr ⟨by simp [isActive, phase], counted, by simp [isToneOn, phase]⟩

/-- Each counted tone is a sound and a silence. -/
theorem counts_issued (w : Pattern) (c : Channel) (count : Nat) (isOn : Bool) :
    let issued := (List.replicate count (w.beep c)).flatten ++
      if isOn then [Command.emit c w.frequency] else []
    (issued.countP fun command => command.frequency?.isNone) = count ∧
      (issued.countP fun command => command.frequency?.isSome) = count + if isOn then 1 else 0 := by
  simp only [List.countP_append, Pattern.countP_beeps]
  cases isOn <;> exact ⟨Nat.mul_one count, congrArg (· + _) (Nat.mul_one count)⟩

/-- An accepted alert sounds its tones, however the ticks come. What it has issued are the tones it
has counted, and the beginning of another while one sounds; so as many silences as it has counted,
and at most as many tones as were asked for. Each command comes at the first tick that finds the
tone or the gap over, one a tick. The last silence ends the alert, and nothing follows it. -/
theorem run_counts_tones (p : AlertPlayer) (leases : Leases) (now : UInt32) (w : Pattern)
    (accepted : (p.start leases now w).verdict = .ok ()) (schedule : List Moment) :
    let started := p.start leases now w
    let run := runTicks tick started.player schedule
    let q := run.1
    let issued := started.commands ++ run.2
    let silences := issued.countP fun command => command.frequency?.isNone
    let sounds := issued.countP fun command => command.frequency?.isSome
    let tone : List Command := [.emit p.channel w.frequency, .silence p.channel]
    issued = (List.replicate q.completed.toNat tone).flatten ++
        (if q.isToneOn then [.emit p.channel w.frequency] else []) ∧
      silences = q.completed.toNat ∧
      sounds = q.completed.toNat + (if q.isToneOn then 1 else 0) ∧
      sounds ≤ w.count.toNat ∧
      started.commands = [.emit p.channel w.frequency] ∧
      turns tick started.player schedule =
        follow now
          (⟨w.duration, .silence p.channel⟩ ::
            (List.replicate (w.count.toNat - 1)
              [⟨w.lapse, .emit p.channel w.frequency⟩, ⟨w.duration, .silence p.channel⟩]).flatten)
          (schedule.map Moment.now) ∧
      (∀ turn ∈ turns tick started.player schedule, turn.length ≤ 1) ∧
      (q.isActive = true → q.completed < w.count) ∧
      (q.isActive = false ↔ silences = w.count.toNat) ∧
      (q.isActive = false → ∀ later, (runTicks tick q later).2 = []) ∧
      ∃ later, (runTicks tick q later).1.isActive = false := by
  intro started run q issued silences sounds tone
  have leads := beeps_leads w p.channel
  obtain ⟨begun, first, all⟩ := start_beeps accepted
  obtain ⟨hturns, hq⟩ := leads.run begun schedule
  have hissued := hq.issued_eq (leads.run_whole all begun schedule)
  have counts := counts_issued w p.channel q.completed.toNat q.isToneOn
  rw [← hissued] at counts
  obtain ⟨hsilences, hsounds⟩ : silences = q.completed.toNat ∧
    sounds = q.completed.toNat + if q.isToneOn then 1 else 0 := counts
  have progress : (q.isActive = true ∧ q.completed < w.count) ∨
    (q.isActive = false ∧ q.completed = w.count ∧ q.isToneOn = false) := hq.progress
  refine ⟨hissued, hsilences, hsounds, ?_, first, hturns, leads.length_turn_le_one begun schedule,
    ?_, ?_, leads.idle_for_good Beeps.idle_iff hq⟩
  · rw [hsounds]
    obtain ⟨-, counted⟩ | ⟨-, counted, off⟩ := progress
    · rw [UInt32.lt_iff_toNat_lt] at counted
      split <;> omega
    · rw [off, counted]
      exact Nat.le_refl _
  · intro active
    obtain ⟨-, counted⟩ | ⟨idle, -⟩ := progress
    · exact counted
    · rw [active] at idle
      cases idle
  · rw [hsilences, UInt32.toNat_inj]
    obtain ⟨active, counted⟩ | ⟨idle, counted, -⟩ := progress
    · simp [active, UInt32.ne_of_lt counted]
    · simp [idle, counted]

/-- Three tones with gaps of no length, on a clock that wraps. A gap lasts until the next tick, and
a late tick does not make up for what it missed. -/
theorem run_counts_tones_over_wrap :
    let p : AlertPlayer := { channel := ⟨1⟩ }
    let started := p.start {} 0xFFFFFFC0 ⟨3, 880, 100, 0⟩
    let schedule : List Moment := [0, 36, 36, 500, 501, 501, 600, 601, 700].map fun now => ⟨{}, now⟩
    let run := runTicks tick started.player schedule
    let tone : List Command := [.emit ⟨1⟩ 880, .silence ⟨1⟩]
    started.verdict = .ok () ∧ run.1.isActive = false ∧
      started.commands ++ run.2 = tone ++ tone ++ tone ∧
      turns tick started.player schedule =
        [[], [.silence ⟨1⟩], [.emit ⟨1⟩ 880], [.silence ⟨1⟩], [.emit ⟨1⟩ 880], [], [], [.silence ⟨1⟩],
          []] := by
  intro p started schedule run tone
  have accepted : started.verdict = .ok () := rfl
  obtain ⟨hissued, -, -, -, -, hturns, -⟩ :=
    run_counts_tones p {} 0xFFFFFFC0 ⟨3, 880, 100, 0⟩ accepted schedule
  refine ⟨accepted, by decide, ?_, ?_⟩
  · rw [hissued]
    decide
  · rw [hturns]
    decide

end AlertPlayer

end Piezo
