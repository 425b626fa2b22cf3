/-!
Clocks: a counter of milliseconds that wraps at 2^32, and the times measured on it.
-/

namespace Piezo.Clock

/-- Milliseconds from `since` to `now`. The counter may wrap in between, once. -/
def elapsed (now since : UInt32) : UInt32 := now - since

/-- A sum of durations that stops at the greatest one. -/
def addCapped (a b : UInt32) : UInt32 :=
  if a + b < a then 0xFFFFFFFF else a + b

/-- What is left of a duration after some time, at least nothing. -/
def remaining (duration spent : UInt32) : UInt32 :=
  if spent < duration then duration - spent else 0

theorem elapsed_add (since ms : UInt32) : elapsed (since + ms) since = ms := by
  rw [elapsed, UInt32.add_comm, UInt32.add_sub_cancel]

theorem elapsed_self (now : UInt32) : elapsed now now = 0 := UInt32.sub_self now

/-- Nothing has passed yet of what lasts. -/
theorem elapsed_self_lt {duration : UInt32} (now : UInt32) (h : duration ≠ 0) :
    elapsed now now < duration := by
  rw [elapsed_self]
  exact UInt32.pos_iff_ne_zero.mpr h

theorem elapsed_add_left (now since ms : UInt32) :
    elapsed (now + ms) since = elapsed now since + ms := by
  rw [elapsed, elapsed, UInt32.sub_eq_add_neg, UInt32.sub_eq_add_neg, UInt32.add_assoc,
    UInt32.add_comm ms, UInt32.add_assoc]

/-- One more of equal steps since some time. -/
theorem elapsed_step {now since step : UInt32} {k : Nat}
    (h : elapsed now since = UInt32.ofNat (step.toNat * k)) :
    elapsed (now + step) since = UInt32.ofNat (step.toNat * (k + 1)) := by
  rw [elapsed_add_left, h, Nat.mul_succ, UInt32.ofNat_add, UInt32.ofNat_toNat]

/-- The time that so many steps take, if they do not wrap. -/
theorem toNat_steps {step : UInt32} {k : Nat} (h : step.toNat * k < UInt32.size) :
    (UInt32.ofNat (step.toNat * k)).toNat = step.toNat * k := by
  rw [UInt32.toNat_ofNat', Nat.mod_eq_of_lt h]

theorem elapsed_first_step (since step : UInt32) :
    elapsed (since + step) since = UInt32.ofNat (step.toNat * (0 + 1)) := by
  rw [elapsed_add, Nat.zero_add, Nat.mul_one, UInt32.ofNat_toNat]

theorem toNat_addCapped (a b : UInt32) :
    (addCapped a b).toNat = min (a.toNat + b.toNat) (UInt32.size - 1) := by
  have ha := a.toNat_lt
  have hb := b.toNat_lt
  unfold addCapped UInt32.size
  split
  · next h =>
    rw [UInt32.lt_iff_toNat_lt, UInt32.toNat_add] at h
    simp only [UInt32.reduceToNat]
    omega
  · next h =>
    rw [UInt32.lt_iff_toNat_lt, UInt32.toNat_add] at h
    rw [UInt32.toNat_add]
    omega

theorem le_addCapped (a b : UInt32) : a ≤ addCapped a b := by
  rw [UInt32.le_iff_toNat_le, toNat_addCapped, UInt32.size]
  have := a.toNat_lt
  omega

theorem toNat_remaining (duration spent : UInt32) :
    (remaining duration spent).toNat = duration.toNat - spent.toNat := by
  unfold remaining
  split
  · next h =>
    exact UInt32.toNat_sub_of_le _ _ (UInt32.le_of_lt h)
  · next h =>
    rw [UInt32.lt_iff_toNat_lt] at h
    simp only [UInt32.reduceToNat]
    omega

end Piezo.Clock
