import Mathlib.Algebra.Order.Floor.Div
import Piezo.Proofs.Cues
import Piezo.Proofs.Driving

/-!
Pacing: how long a machine takes that waits for one thing after another.

Driven with equal steps, it finds each wait over at a tick. So each takes a whole number of steps, at
least one, and what all of them take is known before the first tick.
-/

namespace Piezo

/-- What a wait takes where there is a tick every `step` milliseconds. -/
def roundUp (step ms : Nat) : Nat := step * max 1 (ms ⌈/⌉ step)

theorem roundUp_of_due {step ms k : Nat} (positive : 0 < step) (early : k = 0 ∨ step * k < ms)
    (due : ms ≤ step * (k + 1)) : roundUp step ms = step * (k + 1) := by
  have hle := (ceilDiv_le_iff_le_mul positive).mpr due
  have hlt : k = 0 ∨ ¬ ms ⌈/⌉ step ≤ k :=
    early.imp id fun h hk => Nat.not_le_of_lt h ((ceilDiv_le_iff_le_mul positive).mp hk)
  rw [roundUp, show max 1 (ms ⌈/⌉ step) = k + 1 by omega]

theorem le_roundUp_of_early {step ms k : Nat} (positive : 0 < step)
    (early : k = 0 ∨ step * k < ms) : step * (k + 1) ≤ roundUp step ms := by
  have hlt : k = 0 ∨ ¬ ms ⌈/⌉ step ≤ k :=
    early.imp id fun h hk => Nat.not_le_of_lt h ((ceilDiv_le_iff_le_mul positive).mp hk)
  exact Nat.mul_le_mul_left step (by omega)

/-- What all these waits take, one after another. -/
def totalTime (step : Nat) (waits : List UInt32) : Nat :=
  (waits.map fun wait => roundUp step wait.toNat).sum

theorem totalTime_cons (step : Nat) (wait : UInt32) (waits : List UInt32) :
    totalTime step (wait :: waits) = roundUp step wait.toNat + totalTime step waits := by
  rw [totalTime, List.map_cons, List.sum_cons]
  rfl

theorem totalTime_append (step : Nat) (first second : List UInt32) :
    totalTime step (first ++ second) = totalTime step first + totalTime step second := by
  rw [totalTime, List.map_append, List.sum_append]
  rfl

theorem totalTime_passes (step k : Nat) (waits : List UInt32) :
    totalTime step (List.replicate k waits).flatten = k * totalTime step waits := by
  induction k with
  | zero => rw [Nat.zero_mul]; rfl
  | succ k ih =>
    rw [List.replicate_succ, List.flatten_cons, totalTime_append, ih, Nat.succ_mul, Nat.add_comm]

/-- The waits that are left, the first of them since some time. -/
structure Pace where
  since : UInt32
  waits : List UInt32
deriving DecidableEq, Repr

namespace Pace

/-- The first wait is over if the clock says so, and the next begins. -/
def tick (s : Pace) (now : UInt32) : Pace :=
  match s.waits with
  | [] => s
  | wait :: waits => if Clock.elapsed now s.since < wait then s else ⟨now, waits⟩

variable {since now wait : UInt32}

theorem tick_early (waits : List UInt32) (early : Clock.elapsed now since < wait) :
    tick ⟨since, wait :: waits⟩ now = ⟨since, wait :: waits⟩ :=
  if_pos early

theorem tick_late (waits : List UInt32) (late : ¬ Clock.elapsed now since < wait) :
    tick ⟨since, wait :: waits⟩ now = ⟨now, waits⟩ :=
  if_neg late

end Pace

namespace Sheet

/-- The waits of the cues that are left. -/
def pace (s : Sheet) : Pace := ⟨s.since, s.cues.map Cue.wait⟩

theorem pace_tick (s : Sheet) (now : UInt32) :
    s.pace.tick now = match s.due? now with
      | none => s.pace
      | some (_, rest) => rest.pace := by
  obtain ⟨since, cues⟩ := s
  cases cues with
  | nil => rfl
  | cons cue cues =>
    by_cases early : Clock.elapsed now since < cue.wait
    · rw [due?_early cues early]
      exact Pace.tick_early _ early
    · rw [due?_late cues early]
      exact Pace.tick_late _ early

end Sheet

/-- Whoever keeps to a sheet keeps the pace of its cues. -/
theorem Leads.pace {State : Type} {tick : State → Leases → UInt32 → Turn State}
    {Keeps : State → Sheet → Prop} (leads : Leads tick Keeps) {p : State} {s : Sheet}
    (h : Keeps p s) (leases : Leases) (now : UInt32) :
    ∃ t, Keeps (tick p leases now).player t ∧ t.pace = s.pace.tick now := by
  have step := leads p s leases now h
  rw [s.pace_tick now]
  cases hd : s.due? now with
  | none =>
    simp only [hd] at step
    exact ⟨s, step.2, rfl⟩
  | some taken =>
    simp only [hd] at step
    exact ⟨taken.2, step.2, rfl⟩

namespace Machine

variable {State : Type} {m : Machine State} {R : State → Pace → Prop}

/-- The states of a machine have a pace, which ticks keep, and they are idle when nothing is left to
wait for. -/
structure Paced (m : Machine State) (R : State → Pace → Prop) : Prop where
  idle_iff : ∀ {q s}, R q s → (m.isActive q = false ↔ s.waits = [])
  tick : ∀ {q s} now, R q s → R (m.tick q now).1 (s.tick now)

/-- A run that is `k` steps into a wait, and has left of a total time what its waits will take. -/
structure OnTime (R : State → Pace → Prop) (step start : UInt32) (total : Nat) (run : Run State)
    (s : Pace) (k : Nat) : Prop where
  paced : R run.state s
  elapsed : Clock.elapsed run.recording.now s.since = UInt32.ofNat (step.toNat * k)
  early : ∀ wait ∈ s.waits.head?, k = 0 ∨ step.toNat * k < wait.toNat
  ended : s.waits = [] → k = 0
  ticked : step.toNat * k ≤ run.spent.toNat
  spent : run.spent.toNat + totalTime step.toNat s.waits = total + step.toNat * k
  clock : run.recording.now = start + run.spent

variable {step limit start : UInt32} {total : Nat} {run : Run State} {s : Pace} {k : Nat}

/-- Before each tick there is time left for it. -/
theorem OnTime.spent_add_le (h : OnTime R step start total run s k) (positive : 0 < step.toNat)
    (left : s.waits ≠ []) : run.spent.toNat + step.toNat ≤ total := by
  obtain ⟨wait, waits, hw⟩ := List.exists_cons_of_ne_nil left
  have early := h.early wait (by rw [hw]; rfl)
  have whole := le_roundUp_of_early positive early
  have spent := h.spent
  rw [hw, totalTime_cons] at spent
  rw [Nat.mul_succ] at whole
  omega

/-- A tick finds the current wait over, or is one more step into it. -/
theorem OnTime.next (h : OnTime R step start total run s k) (paced : m.Paced R)
    (positive : 0 < step.toNat) (enough : total ≤ limit.toNat) (left : s.waits ≠ []) :
    ∃ t j, OnTime R step start total (m.next step run) t j := by
  have room := h.spent_add_le positive left
  have hlimit := limit.toNat_lt
  have spent_eq : (m.next step run).spent = run.spent + step := by
    rw [Machine.next, ← UInt32.toNat_inj, Clock.toNat_addCapped, UInt32.toNat_add, UInt32.size]
    omega
  have toNat_spent : (m.next step run).spent.toNat = run.spent.toNat + step.toNat := by
    rw [spent_eq, UInt32.toNat_add, Nat.mod_eq_of_lt (by omega)]
  have now_eq : (m.next step run).recording.now = run.recording.now + step := by
    simp [Machine.next, Recording.advance]
  have clock : (m.next step run).recording.now = start + (m.next step run).spent := by
    rw [now_eq, h.clock, spent_eq, UInt32.add_assoc]
  obtain ⟨since, waits⟩ := s
  obtain ⟨wait, waits, rfl⟩ := List.exists_cons_of_ne_nil left
  have early := h.early wait rfl
  have ticked := h.ticked
  have spent := h.spent
  have elapsed := Clock.elapsed_step h.elapsed
  have toNat_elapsed : (Clock.elapsed (run.recording.now + step) since).toNat =
      step.toNat * (k + 1) := by
    rw [elapsed, Clock.toNat_steps (by rw [Nat.mul_succ, UInt32.size]; omega)]
  have hp := paced.tick (run.recording.now + step) h.paced
  by_cases hd : Clock.elapsed (run.recording.now + step) since < wait
  · rw [Pace.tick_early waits hd] at hp
    refine ⟨_, k + 1, hp, ?_, ?_, ?_, ?_, ?_, clock⟩
    · rw [now_eq, elapsed]
    · rintro _ ⟨⟩
      rw [UInt32.lt_iff_toNat_lt, toNat_elapsed] at hd
      exact .inr hd
    · intro none
      cases none
    · rw [toNat_spent, Nat.mul_succ]
      omega
    · rw [toNat_spent, Nat.mul_succ]
      omega
  · rw [Pace.tick_late waits hd] at hp
    rw [UInt32.lt_iff_toNat_lt, toNat_elapsed] at hd
    rw [totalTime_cons, roundUp_of_due positive early (Nat.not_lt.mp hd), Nat.mul_succ] at spent
    refine ⟨_, 0, hp, ?_, fun _ _ => .inl rfl, fun _ => rfl, Nat.zero_le _, ?_, clock⟩
    · rw [now_eq, Clock.elapsed, UInt32.sub_self]
      rfl
    · simp only [toNat_spent, Nat.mul_zero]
      omega

/-- A run takes exactly the time that its waits take, and ends with the machine idle. -/
theorem Paced.resume_takes (paced : m.Paced R) (positive : 0 < step) {q : State}
    {recording : Recording} {waits : List UInt32} (h : R q ⟨recording.now, waits⟩)
    (enough : totalTime step.toNat waits ≤ limit.toNat) :
    let run := m.resume step limit positive ⟨q, recording, 0⟩
    run.spent.toNat = totalTime step.toNat waits ∧
      run.recording.now = recording.now + run.spent ∧ m.isActive run.state = false := by
  intro run
  have hstep : 0 < step.toNat := UInt32.lt_iff_toNat_lt.mp positive
  let I (run : Run State) : Prop :=
    ∃ s k, OnTime R step recording.now (totalTime step.toNat waits) run s k
  have begun : I ⟨q, recording, 0⟩ :=
    ⟨_, 0, h, by rw [Clock.elapsed, UInt32.sub_self]; rfl, fun _ _ => .inl rfl, fun _ => rfl,
      Nat.zero_le _, by simp, by simp⟩
  have keeps (run : Run State) (active : m.isActive run.state = true) (_ : run.spent < limit) :
      I run → I (m.next step run) := by
    rintro ⟨s, k, on⟩
    refine on.next paced hstep enough fun none => ?_
    rw [(paced.idle_iff on.paced).mpr none] at active
    cases active
  obtain ⟨s, k, on⟩ : I run := resume_keeps keeps _ begun
  have stops : ¬ (m.isActive run.state = true ∧ run.spent < limit) := resume_stops _
  have none : s.waits = [] := by
    by_cases left : s.waits = []
    · exact left
    · have room := on.spent_add_le hstep left
      have active : m.isActive run.state = true :=
        Bool.ne_false_iff.mp fun idle => left ((paced.idle_iff on.paced).mp idle)
      exact absurd ⟨active, UInt32.lt_iff_toNat_lt.mpr (by omega)⟩ stops
  have spent := on.spent
  rw [on.ended none, none] at spent
  exact ⟨by simpa [totalTime] using spent, on.clock, (paced.idle_iff on.paced).mpr none⟩

theorem Paced.run_takes (paced : m.Paced R) {q : State} {recording : Recording}
    {waits : List UInt32} (h : R q ⟨recording.now, waits⟩)
    (enough : totalTime (max step.toNat 1) waits ≤ limit.toNat) :
    let run := m.runUntilIdle step limit q recording
    run.spent.toNat = totalTime (max step.toNat 1) waits ∧
      run.recording.now = recording.now + run.spent ∧ m.isActive run.state = false := by
  rw [← toNat_step] at enough ⊢
  exact paced.resume_takes _ h enough

end Machine

end Piezo
