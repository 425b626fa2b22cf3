import Mathlib.Algebra.Order.Floor.Div
import Mathlib.Logic.Function.Iterate
import Piezo.Proofs.Driving

/-!
Spending: what a run comes to that may never be idle by itself.

Of the machine nothing is known. The run still ends, after as many ticks as there are steps before
the limit or fewer. The time that is spent stops at the greatest one, and the clock goes round.
-/

namespace Piezo.Machine

variable {State : Type} {m : Machine State} {step limit : UInt32}

/-- The clock moves on by a step, and then there is a tick. -/
def beat (m : Machine State) (step : UInt32) (s : State × Recording) : State × Recording :=
  let recording := s.2.advance step
  let (state, commands) := m.tick s.1 recording.now
  (state, recording.performAll commands)

theorem toNat_now_beat (s : State × Recording) (k : Nat) :
    ((m.beat step)^[k] s).2.now.toNat = (s.2.now.toNat + k * step.toNat) % 2 ^ 32 := by
  induction k with
  | zero =>
    rw [Nat.zero_mul, Nat.add_zero, Nat.mod_eq_of_lt s.2.now.toNat_lt]
    rfl
  | succ k ih =>
    rw [Function.iterate_succ_apply', beat, Recording.now_performAll, Recording.advance,
      UInt32.toNat_add, ih, Nat.mod_add_mod, Nat.succ_mul, Nat.add_assoc]

/-- The run has made this many ticks, each of them before the limit and while the machine was not
idle. -/
structure Made (m : Machine State) (step limit : UInt32) (start : State × Recording)
    (run : Run State) (k : Nat) : Prop where
  reached : (run.state, run.recording) = (m.beat step)^[k] start
  needed : ∀ j < k, m.isActive ((m.beat step)^[j] start).1 = true ∧ j * step.toNat < limit.toNat
  spent : run.spent.toNat = min (k * step.toNat) (2 ^ 32 - 1)

variable {start : State × Recording} {run : Run State} {k : Nat}

theorem Made.next (h : Made m step limit start run k) (active : m.isActive run.state = true)
    (left : run.spent < limit) : Made m step limit start (m.next step run) (k + 1) := by
  have spent := h.spent
  have bound := limit.toNat_lt
  rw [UInt32.lt_iff_toNat_lt] at left
  constructor
  case reached =>
    rw [Function.iterate_succ_apply', ← h.reached]
    rfl
  case needed =>
    intro j hj
    rcases Nat.lt_succ_iff_lt_or_eq.mp hj with hj | rfl
    · exact h.needed j hj
    · rw [← h.reached]
      exact ⟨active, by omega⟩
  case spent =>
    rw [Machine.next, Clock.toNat_addCapped, UInt32.size, spent, Nat.succ_mul]
    omega

/-- There are no more ticks than steps before the limit. -/
theorem Made.le_ceilDiv (h : Made m step limit start run k) (positive : 0 < step.toNat) :
    k ≤ limit.toNat ⌈/⌉ step.toNat := by
  cases k with
  | zero => exact Nat.zero_le _
  | succ k =>
    have before := (h.needed k (Nat.lt_succ_self k)).2
    apply Nat.lt_of_not_le
    intro few
    have all := (ceilDiv_le_iff_le_mul positive).mp few
    rw [Nat.mul_comm] at all
    omega

/-- A machine that is idle at first is not ticked. -/
theorem Made.of_idle (h : Made m step limit start run k) (idle : m.isActive start.1 = false) :
    k = 0 ∧ run = ⟨start.1, start.2, 0⟩ := by
  cases k with
  | zero =>
    obtain ⟨state, recording⟩ := Prod.mk.inj h.reached
    have unspent : run.spent = 0 := by
      rw [← UInt32.toNat_inj, h.spent, Nat.zero_mul]
      rfl
    exact ⟨rfl, by rw [← state, ← recording, ← unspent]⟩
  | succ k =>
    have active := (h.needed 0 (Nat.succ_pos k)).1
    cases active.symm.trans idle

/-- Whatever the machine does, a run ends. It makes `k` ticks, one after each step, and no more than
there are steps before the limit. It tells what they have taken, up to the greatest time there is,
and the clock has moved on by as much. In the end the machine is idle or the limit is spent, and a
machine that is idle at first is not ticked. -/
theorem runUntilIdle_accounts (m : Machine State) (step limit : UInt32) (state : State)
    (recording : Recording) :
    let s := max step.toNat 1
    let run := m.runUntilIdle step limit state recording
    let after := fun k => (m.beat (UInt32.ofNat s))^[k] (state, recording)
    ∃ k, k ≤ limit.toNat ⌈/⌉ s ∧ (run.state, run.recording) = after k ∧
      (∀ j < k, m.isActive (after j).1 = true ∧ j * s < limit.toNat) ∧
      run.spent.toNat = min (k * s) (2 ^ 32 - 1) ∧
      run.recording.now.toNat = (recording.now.toNat + k * s) % 2 ^ 32 ∧
      (m.isActive run.state = false ∨ limit.toNat ≤ run.spent.toNat) ∧
      (m.isActive state = false → k = 0 ∧ run = ⟨state, recording, 0⟩) := by
  intro s run after
  have whole : s = (if step = 0 then 1 else step).toNat := (toNat_step step).symm
  have positive : 0 < (if step = 0 then 1 else step).toNat :=
    whole ▸ Nat.lt_of_lt_of_le Nat.zero_lt_one (Nat.le_max_right ..)
  simp only [after, whole, UInt32.ofNat_toNat]
  obtain ⟨k, made⟩ : ∃ k, Made m (if step = 0 then 1 else step) limit (state, recording) run k := by
    refine resume_keeps (I := fun run => ∃ k, Made m _ limit (state, recording) run k) ?_
      ⟨state, recording, 0⟩ ⟨0, rfl, by simp, by simp⟩
    intro run active left h
    obtain ⟨k, made⟩ := h
    exact ⟨k + 1, made.next active left⟩
  have stops : ¬ (m.isActive run.state = true ∧ run.spent < limit) := resume_stops _
  refine ⟨k, made.le_ceilDiv positive, made.reached, made.needed, made.spent, ?_, ?_,
    made.of_idle⟩
  · rw [← toNat_now_beat (m := m) (state, recording), ← made.reached]
  · by_cases active : m.isActive run.state = true
    · exact .inr (Nat.not_lt.mp fun left => stops ⟨active, UInt32.lt_iff_toNat_lt.mpr left⟩)
    · exact .inl (Bool.eq_false_of_not_eq_true active)

/-- Never idle, with a limit as great as can be and steps of more than half of that. The second one
takes the clock round. -/
theorem runUntilIdle_accounts_restless :
    let m : Machine Nat := ⟨fun _ => true, fun n _ => (n + 1, [])⟩
    let run := m.runUntilIdle 0x80000001 0xFFFFFFFF 0 { now := 5 }
    run.state = 2 ∧ run.spent = 0xFFFFFFFF ∧ run.recording.now = 7 := by
  intro m run
  obtain ⟨k, few, reached, -, spent, clock, ended, -⟩ :=
    runUntilIdle_accounts m 0x80000001 0xFFFFFFFF 0 { now := 5 }
  have most : 0xFFFFFFFF ⌈/⌉ 0x80000001 ≤ 2 :=
    (ceilDiv_le_iff_le_mul (by omega)).mpr (by omega)
  have limit : 0xFFFFFFFF ≤ run.spent.toNat := ended.resolve_left Bool.noConfusion
  change run.spent.toNat = min (k * 0x80000001) _ at spent
  change run.recording.now.toNat = (5 + k * 0x80000001) % _ at clock
  obtain rfl : k = 2 := Nat.le_antisymm (few.trans most) (by omega)
  refine ⟨(Prod.mk.inj reached).1, ?_, ?_⟩
  · exact UInt32.toNat_inj.mp spent
  · exact UInt32.toNat_inj.mp clock

end Piezo.Machine
