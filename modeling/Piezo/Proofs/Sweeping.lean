import Piezo.Proofs.Admission
import Piezo.Proofs.Cues

/-!
Sweeping: which frequencies a sweep goes through.

They are an arithmetic progression of integers that stops before it would pass the last frequency,
whatever the sign and the size of the step, so none of them is ever cut to 32 bits.
-/

namespace Piezo

namespace Ramp

variable {r : Ramp}

/-- Where the progression is after so many steps, in range or not. -/
def frequencyAt (r : Ramp) (k : Nat) : Int := r.first.toNat + k * r.step.toInt

/-- A frequency lies beyond the last one, seen in the direction of the step. -/
def Passes (r : Ramp) (frequency : Int) : Prop :=
  if 0 < r.step.toInt then r.last.toNat < frequency else frequency < r.last.toNat

/-- How far it is to the last frequency in the direction of the step; 0 if the step leads away. -/
def gap (r : Ramp) : Nat :=
  if 0 < r.step.toInt then r.last.toNat - r.first.toNat else r.first.toNat - r.last.toNat

/-- How many frequencies there are. The first one is there even if the step leads away. -/
def size (r : Ramp) : Nat := r.gap / r.step.toInt.natAbs + 1

def term (r : Ramp) (k : Nat) : UInt32 := UInt32.ofNat (r.frequencyAt k).toNat

/-- The frequencies of a sweep in order. -/
def terms (r : Ramp) : List UInt32 := (List.range r.size).map r.term

theorem step_ne_zero {settings : Settings} (h : r.check settings.range = .ok ()) :
    r.step.toInt ≠ 0 := by
  rw [Player.sweep_check] at h
  have holds := Condition.holds_of_verdict h (c := ⟨r.step ≠ 0, .zeroStep⟩)
    (by simp [Request.conditions])
  intro h0
  have h0 : r.step = 0 := Int32.toInt_inj.mp h0
  simp [h0] at holds

/-- One step more is taken for as long as it does not pass the last frequency. -/
theorem lt_size_iff (h : r.step.toInt ≠ 0) (k : Nat) :
    k + 1 < r.size ↔ ¬ r.Passes (r.frequencyAt (k + 1)) := by
  have hpos : 0 < r.step.toInt.natAbs := Int.natAbs_pos.mpr h
  have hdiv : k + 1 < r.size ↔ (k + 1) * r.step.toInt.natAbs ≤ r.gap := by
    rw [size, Nat.succ_lt_succ_iff, ← Nat.succ_le_iff, Nat.le_div_iff_mul_le hpos]
  have hmul : 0 < (k + 1) * r.step.toInt.natAbs := Nat.mul_pos (Nat.succ_pos k) hpos
  have hcast : (((k + 1) * r.step.toInt.natAbs : Nat) : Int) =
      if 0 < r.step.toInt then (k + 1 : Nat) * r.step.toInt else -((k + 1 : Nat) * r.step.toInt) := by
    rw [Int.natCast_mul]
    split
    · rw [Int.natAbs_of_nonneg (by omega)]
    · rw [Int.ofNat_natAbs_of_nonpos (by omega), Int.mul_neg]
  rw [hdiv, gap, Passes, frequencyAt]
  generalize (k + 1) * r.step.toInt.natAbs = m at hmul hcast
  generalize ((k + 1 : Nat) : Int) * r.step.toInt = d at hcast
  split at hcast <;> simp only [*, if_true, if_false] <;> omega

/-- No term is cut to 32 bits. -/
theorem toNat_term (h : r.step.toInt ≠ 0) {k : Nat} (hk : k < r.size) :
    ((r.term k).toNat : Int) = r.frequencyAt k := by
  have hfirst := r.first.toNat_lt
  have hlast := r.last.toNat_lt
  have bounds : 0 ≤ r.frequencyAt k ∧ r.frequencyAt k < 2 ^ 32 := by
    cases k with
    | zero => simp [frequencyAt]; omega
    | succ k =>
      have within := (lt_size_iff h k).mp hk
      rw [Passes] at within
      -- A rising term lies between the first and the last frequency, a falling one likewise.
      obtain rising | falling : 0 < r.step.toInt ∨ r.step.toInt < 0 := by omega
      · have up : 0 ≤ ((k + 1 : Nat) : Int) * r.step.toInt :=
          Int.mul_nonneg (Int.natCast_nonneg _) (Int.le_of_lt rising)
        rw [if_pos rising] at within
        rw [frequencyAt] at within ⊢
        omega
      · have down : ((k + 1 : Nat) : Int) * r.step.toInt ≤ 0 :=
          Int.mul_nonpos_of_nonneg_of_nonpos (Int.natCast_nonneg _) (Int.le_of_lt falling)
        rw [if_neg (Int.lt_asymm falling)] at within
        rw [frequencyAt] at within ⊢
        omega
  rw [term, UInt32.toNat_ofNat', Nat.mod_eq_of_lt (by omega)]
  exact Int.toNat_of_nonneg bounds.1

theorem toInt_terms (h : r.step.toInt ≠ 0) :
    r.terms.map (fun f => (f.toNat : Int)) = (List.range r.size).map r.frequencyAt := by
  rw [terms, List.map_map]
  apply List.map_congr_left
  intro k hk
  exact toNat_term h (List.mem_range.mp hk)

theorem frequencyAt_zero (r : Ramp) : r.frequencyAt 0 = r.first.toNat := by simp [frequencyAt]

theorem frequencyAt_succ (r : Ramp) (k : Nat) :
    r.frequencyAt (k + 1) = r.frequencyAt k + r.step.toInt := by
  rw [frequencyAt, frequencyAt, Int.natCast_succ, Int.add_mul, Int.one_mul, Int.add_assoc]

theorem term_zero (r : Ramp) : r.term 0 = r.first := by
  rw [term, frequencyAt_zero, Int.toNat_natCast, UInt32.ofNat_toNat]

theorem length_terms (r : Ramp) : r.terms.length = r.size := by simp [terms]

theorem size_pos (r : Ramp) : 0 < r.size := Nat.succ_pos _

theorem drop_terms {k : Nat} (hk : k < r.size) :
    r.terms.drop k = r.term k :: r.terms.drop (k + 1) := by
  rw [List.drop_eq_getElem_cons (by rwa [length_terms])]
  simp [terms]

theorem terms_eq_cons (r : Ramp) : r.terms = r.first :: r.terms.drop 1 := by
  rw [← term_zero, ← drop_terms r.size_pos, List.drop_zero]

/-- The step from one frequency to the next is the step along the progression. -/
theorem next?_term (h : r.step.toInt ≠ 0) {k : Nat} (hk : k < r.size) :
    r.next? (r.term k) = if k + 1 < r.size then some (r.term (k + 1)) else none := by
  rw [next?, toNat_term h hk, ← frequencyAt_succ]
  by_cases hpass : r.Passes (r.frequencyAt (k + 1))
  · rw [if_neg (fun hlt => (lt_size_iff h k).mp hlt hpass)]
    exact if_pos hpass
  · rw [if_pos ((lt_size_iff h k).mpr hpass)]
    exact if_neg hpass

/-- What comes after so many frequencies. -/
def cues (r : Ramp) (c : Channel) (k : Nat) : List Cue :=
  (r.terms.drop k).map (fun f => ⟨r.duration, .emit c f⟩) ++ [⟨r.duration, .silence c⟩]

theorem cues_of_lt {k : Nat} (c : Channel) (hk : k < r.size) :
    r.cues c k = ⟨r.duration, .emit c (r.term k)⟩ :: r.cues c (k + 1) := by
  rw [cues, drop_terms hk]
  rfl

theorem cues_size (r : Ramp) (c : Channel) : r.cues c r.size = [⟨r.duration, .silence c⟩] := by
  rw [cues, List.drop_eq_nil_of_le (Nat.le_of_eq r.length_terms)]
  rfl

theorem cues_eq_cons {k : Nat} (c : Channel) (hk : k ≤ r.size) :
    ∃ command rest, r.cues c k = ⟨r.duration, command⟩ :: rest := by
  obtain hk | rfl := Nat.lt_or_eq_of_le hk
  · exact ⟨_, _, cues_of_lt c hk⟩
  · exact ⟨_, _, cues_size r c⟩

/-- All commands of a sweep. -/
def score (r : Ramp) (c : Channel) : List Command := r.terms.map (.emit c) ++ [.silence c]

theorem frequencies_score (r : Ramp) (c : Channel) :
    (r.score c).filterMap Command.frequency? = r.terms := by
  rw [score, List.filterMap_append, Command.frequencies_emit]
  exact List.append_nil _

theorem length_score (r : Ramp) (c : Channel) : (r.score c).length = r.size + 1 := by
  simp [score, length_terms]

theorem commands_cues (r : Ramp) (c : Channel) :
    .emit c r.first :: (r.cues c 1).map Cue.command = r.score c := by
  rw [score, terms_eq_cons r]
  simp [cues, Function.comp_def]

theorem cues_one (r : Ramp) (c : Channel) :
    r.cues c 1 = (r.score c).tail.map (⟨r.duration, ·⟩) := by
  rw [← commands_cues, List.tail_cons]
  simp [cues, Function.comp_def]

end Ramp

namespace SweepPlayer

variable {r : Ramp} {c : Channel} {p : SweepPlayer} {since : UInt32}

/-- A player that sweeps along a ramp on a channel, and the cues that it has left. -/
inductive Sweeps (r : Ramp) (c : Channel) : SweepPlayer → Sheet → Prop
  | on {p : SweepPlayer} {since : UInt32} {k : Nat} (channel : p.channel = c) (within : k < r.size)
      (sweep : p.sweep = some ⟨r, r.term k, since⟩) : Sweeps r c p ⟨since, r.cues c (k + 1)⟩
  | ended {p : SweepPlayer} {since : UInt32} (sweep : p.sweep = none) : Sweeps r c p ⟨since, []⟩

/-- A sweep goes on to the next frequency, or ends after the last. -/
theorem sweeps_leads (c : Channel) (hr : r.step.toInt ≠ 0) : Leads tick (Sweeps r c) := by
  intro p s leases now h
  cases h with
  | @on since k channel within sweep =>
    by_cases early : Clock.elapsed now since < r.duration
    · obtain ⟨command, rest, hcues⟩ := Ramp.cues_eq_cons c (Nat.succ_le_of_lt within)
      rw [hcues, Sheet.due?_early rest early, ← hcues]
      simp only [tick, sweep, if_pos early, true_and]
      exact .on channel within sweep
    · by_cases more : k + 1 < r.size
      · rw [Ramp.cues_of_lt c more, Sheet.due?_late _ early]
        simp only [tick, sweep, if_neg early, Ramp.next?_term hr within, if_pos more]
        exact ⟨by rw [channel], .on channel more rfl⟩
      · have last : k + 1 = r.size := by omega
        rw [last, Ramp.cues_size, Sheet.due?_late _ early]
        simp only [tick, sweep, if_neg early, Ramp.next?_term hr within, if_neg more]
        exact ⟨by rw [← channel]; rfl, .ended rfl⟩
  | ended sweep =>
    simp only [Sheet.due?_nil, tick, sweep, true_and]
    exact .ended sweep

/-- A sweep that is let in has a step, sounds the first frequency, and has all else to come. -/
theorem start_sweeps {leases : Leases} {now : UInt32}
    (accepted : (p.start leases now r).verdict = .ok ()) :
    r.step.toInt ≠ 0 ∧
      Sweeps r p.channel (p.start leases now r).player ⟨now, r.cues p.channel 1⟩ ∧
      (p.start leases now r).commands = [.emit p.channel r.first] := by
  obtain ⟨checked, lease, t, entered⟩ := Attempt.entered accepted
  rw [start, entered]
  exact ⟨Ramp.step_ne_zero checked, .on rfl r.size_pos (by rw [Ramp.term_zero]; rfl), rfl⟩

theorem Sweeps.idle_iff {s : Sheet} (h : Sweeps r c p s) : p.isActive = false ↔ s.cues = [] := by
  cases h with
  | on _ _ sweep => simp [isActive, sweep, Ramp.cues]
  | ended sweep => simp [isActive, sweep]

/-- An accepted sweep goes through an arithmetic progression, however the ticks come. Its terms are
never cut to 32 bits, the first is always among them, and each other is for as long as it does not
pass the last frequency. What is issued are the terms in order, then a single silence. Each command
comes at the first tick that finds the last one's time over, one a tick, so that as many ticks as
there are terms end the sweep, and nothing follows its end. -/
theorem run_sweeps_progression (p : SweepPlayer) (leases : Leases) (now : UInt32) (r : Ramp)
    (accepted : (p.start leases now r).verdict = .ok ()) (schedule : List Moment) :
    let started := p.start leases now r
    let run := runTicks tick started.player schedule
    let q := run.1
    let issued := started.commands ++ run.2
    let whole : List Command := r.terms.map (.emit p.channel) ++ [.silence p.channel]
    let due := (turns tick started.player schedule).countP fun turn => !turn.isEmpty
    r.terms.map (fun f => (f.toNat : Int)) =
        (List.range r.size).map (fun k : Nat => r.first.toNat + k * r.step.toInt) ∧
      0 < r.size ∧
      (∀ k : Nat, k + 1 < r.size ↔
        ¬ r.Passes (r.first.toNat + (k + 1 : Nat) * r.step.toInt)) ∧
      issued <+: whole ∧
      issued.filterMap Command.frequency? <+: r.terms ∧
      started.commands = [.emit p.channel r.first] ∧
      turns tick started.player schedule =
        follow now (whole.tail.map (⟨r.duration, ·⟩)) (schedule.map Moment.now) ∧
      (∀ turn ∈ turns tick started.player schedule, turn.length ≤ 1) ∧
      (q.isActive = false ↔ issued = whole) ∧
      due ≤ r.size ∧
      (q.isActive = false ↔ due = r.size) ∧
      (q.isActive = false → ∀ later, (runTicks tick q later).2 = []) ∧
      ∃ later, (runTicks tick q later).1.isActive = false := by
  intro started run q issued whole due
  obtain ⟨hstep, begun, first⟩ := start_sweeps accepted
  have leads := sweeps_leads p.channel hstep
  obtain ⟨hturns, hq⟩ := leads.run begun schedule
  have all : started.commands ++ (r.cues p.channel 1).map Cue.command = whole := by
    rw [first]
    exact r.commands_cues p.channel
  have idle_iff : q.isActive = false ↔ issued = whole :=
    hq.idle_iff.trans (leads.run_all_iff all begun schedule).symm
  have pref : issued <+: whole := ⟨_, leads.run_whole all begun schedule⟩
  have hdue : issued.length = due + 1 := by
    rw [List.length_append, first, ← leads.countP_turns begun schedule, List.length_singleton,
      Nat.add_comm]
  have length : whole.length = r.size + 1 := r.length_score p.channel
  refine ⟨Ramp.toInt_terms hstep, r.size_pos, fun k => Ramp.lt_size_iff hstep k, pref, ?_, first, ?_,
    leads.length_turn_le_one begun schedule, idle_iff, ?_, ?_,
    leads.idle_for_good Sweeps.idle_iff hq⟩
  · rw [← r.frequencies_score p.channel]
    exact pref.filterMap _
  · exact hturns.trans (by rw [Ramp.cues_one]; rfl)
  · have := pref.length_le
    omega
  · rw [idle_iff]
    constructor
    · intro h
      rw [h] at hdue
      omega
    · intro h
      exact pref.eq_of_length (by omega)

/-- A falling sweep on a clock that wraps. Its third step would lead below 0, a late tick does not
make up for what it missed, and one that comes early waits. -/
theorem run_sweeps_progression_falling :
    let p : SweepPlayer := { channel := ⟨2⟩ }
    let r : Ramp := ⟨4000, 200, -1500, 50⟩
    let started := p.start {} 0xFFFFFFF0 r
    let schedule : List Moment := [20, 34, 200, 249, 250, 400].map fun now => ⟨{}, now⟩
    let run := runTicks tick started.player schedule
    started.verdict = .ok () ∧ r.terms = [4000, 2500, 1000] ∧ run.1.isActive = false ∧
      started.commands ++ run.2 = [4000, 2500, 1000].map (.emit ⟨2⟩) ++ [.silence ⟨2⟩] ∧
      turns tick started.player schedule =
        [[], [.emit ⟨2⟩ 2500], [.emit ⟨2⟩ 1000], [], [.silence ⟨2⟩], []] := by
  intro p r started schedule run
  have accepted : started.verdict = .ok () := rfl
  have terms : r.terms = [4000, 2500, 1000] := by decide
  have idle : run.1.isActive = false := by decide
  obtain ⟨-, -, -, -, -, -, hturns, -, all, -⟩ :=
    run_sweeps_progression p {} 0xFFFFFFF0 r accepted schedule
  refine ⟨accepted, terms, idle, ?_, ?_⟩
  · rw [all.mp idle, terms]
  · rw [hturns]
    decide

end SweepPlayer

end Piezo
