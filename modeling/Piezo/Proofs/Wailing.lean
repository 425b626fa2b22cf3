import Mathlib.Algebra.Order.Floor.Div
import Mathlib.Data.List.Iterate
import Mathlib.Data.List.TakeWhile
import Piezo.Proofs.Admission
import Piezo.Proofs.Cues

/-!
Wailing: how a siren alternates, and when it stops.

Two timers run in a siren. One flips it, again and again, the other ends it, and the end comes first
where both are over. Until then the flips are cues that never run out.
-/

namespace Piezo

/-- What is issued by someone who has a single command to issue, and does so at the first tick. -/
def once (command : Command) : List UInt32 → List (List Command)
  | [] => []
  | _ :: later => [command] :: later.map fun _ => []

theorem flatten_once (command : Command) (ticks : List UInt32) :
    (once command ticks).flatten = if ticks.isEmpty then [] else [command] := by
  cases ticks <;> simp [once]

theorem length_le_one_of_mem_once (command : Command) (ticks : List UInt32) :
    ∀ issued ∈ once command ticks, issued.length ≤ 1 := by
  cases ticks <;> simp [once]

section

/-! Ticks at equal distances. -/

variable {s since now wait total : UInt32}

/-- Cues that all wait for the same time are taken every so many ticks: as many as it takes for the
ticks to reach that time. -/
theorem length_follow_iterate {cues : List Cue} {k m : Nat} (positive : 0 < s.toNat)
    (waits : ∀ cue ∈ cues, cue.wait = wait) (enough : m ≤ cues.length)
    (soon : k < wait.toNat ⌈/⌉ s.toNat)
    (hnow : Clock.elapsed now since = UInt32.ofNat (s.toNat * (k + 1)))
    (bound : s.toNat * (k + m) < 2 ^ 32) :
    (follow since cues (List.iterate (· + s) now m)).flatten.length =
      (k + m) / (wait.toNat ⌈/⌉ s.toNat) := by
  generalize hq : wait.toNat ⌈/⌉ s.toNat = q at soon
  induction m generalizing since now cues k with
  | zero => simp [List.iterate, Sheet.follow_nil, Nat.div_eq_of_lt soon]
  | succ m ih =>
    obtain ⟨cue, cues, rfl⟩ := List.exists_cons_of_length_pos (Nat.lt_of_lt_of_le m.succ_pos enough)
    have hwait := waits cue List.mem_cons_self
    have hk : (Clock.elapsed now since).toNat = s.toNat * (k + 1) := by
      have := Nat.mul_le_mul_left s.toNat (show k + 1 ≤ k + (m + 1) by omega)
      rw [hnow, Clock.toNat_steps (by rw [UInt32.size]; omega)]
    have due_iff : cue.wait ≤ Clock.elapsed now since ↔ k + 1 = q := by
      rw [UInt32.le_iff_toNat_le, hk, hwait, ← ceilDiv_le_iff_le_mul positive, hq]
      omega
    rw [List.iterate, Sheet.follow_tick ⟨since, cue :: cues⟩]
    by_cases due : cue.wait ≤ Clock.elapsed now since
    · have last := due_iff.mp due
      have fewer := Nat.mul_le_mul_left s.toNat (show 0 + m ≤ k + (m + 1) by omega)
      have rest : (follow now cues (List.iterate (· + s) (now + s) m)).flatten.length =
          (0 + m) / q :=
        ih (fun cue h => waits cue (List.mem_cons_of_mem _ h)) (Nat.le_of_succ_le_succ enough)
          (Clock.elapsed_first_step now s) (by omega) (by omega)
      rw [Sheet.due?_late cues (UInt32.not_lt.mpr due), List.flatten_cons, List.length_append, rest,
        List.length_singleton, show k + (m + 1) = 0 + m + q by omega,
        Nat.add_div_right _ (by omega), Nat.add_comm]
    · have more := mt due_iff.mpr due
      have all : k + 1 + m = k + (m + 1) := by omega
      have rest : (follow since (cue :: cues) (List.iterate (· + s) (now + s) m)).flatten.length =
          (k + 1 + m) / q :=
        ih waits (Nat.le_of_succ_le enough) (Clock.elapsed_step hnow) (by rwa [all]) (by omega)
      rw [Sheet.due?_early cues (UInt32.not_le.mp due), List.flatten_cons, List.nil_append, rest,
        all]

/-- Of ticks at equal distances, those within a total time are the first ones. -/
theorem takeWhile_iterate {k n : Nat} (positive : 0 < s.toNat)
    (bound : total.toNat + s.toNat < 2 ^ 32) (within : s.toNat * k < total.toNat)
    (hnow : Clock.elapsed now since = UInt32.ofNat (s.toNat * (k + 1))) :
    ((List.iterate (· + s) now n).takeWhile fun t => Clock.elapsed t since < total) =
      List.iterate (· + s) now (min n ((total.toNat - 1) / s.toNat - k)) := by
  induction n generalizing now k with
  | zero => simp [List.iterate]
  | succ n ih =>
    have hk : (Clock.elapsed now since).toNat = s.toNat * (k + 1) := by
      rw [hnow, Clock.toNat_steps (by rw [Nat.mul_succ, UInt32.size]; omega)]
    have within_iff : Clock.elapsed now since < total ↔ k + 1 ≤ (total.toNat - 1) / s.toNat := by
      rw [UInt32.lt_iff_toNat_lt, hk, Nat.le_div_iff_mul_le positive, Nat.mul_comm]
      omega
    by_cases h : Clock.elapsed now since < total
    · have rest := ih (by rwa [UInt32.lt_iff_toNat_lt, hk] at h) (Clock.elapsed_step hnow)
      have := within_iff.mp h
      rw [List.iterate, List.takeWhile_cons_of_pos (by simpa using h), rest,
        show min (n + 1) ((total.toNat - 1) / s.toNat - k) =
          min n ((total.toNat - 1) / s.toNat - (k + 1)) + 1 by omega, List.iterate]
    · have := mt within_iff.mpr h
      rw [List.iterate, List.takeWhile_cons_of_neg (by simpa using h),
        show min (n + 1) ((total.toNat - 1) / s.toNat - k) = 0 by omega, List.iterate]

/-- Ticks at equal distances that go beyond a total time, and those within it. -/
theorem takeWhile_iterate_of_le (now : UInt32) {n : Nat} (start : 0 < total.toNat) (positive : 0 < s.toNat)
    (bound : total.toNat + s.toNat < 2 ^ 32) (enough : total.toNat ≤ s.toNat * n) :
    (total.toNat - 1) / s.toNat < n ∧
      ((List.iterate (· + s) (now + s) n).takeWhile fun t => Clock.elapsed t now < total) =
        List.iterate (· + s) (now + s) ((total.toNat - 1) / s.toNat) := by
  have few : (total.toNat - 1) / s.toNat < n := by
    rw [Nat.div_lt_iff_lt_mul positive, Nat.mul_comm]
    omega
  refine ⟨few, ?_⟩
  rw [takeWhile_iterate positive bound (by omega) (Clock.elapsed_first_step now s), Nat.sub_zero,
    Nat.min_eq_right (Nat.le_of_lt few)]

end

namespace Wail

/-- The frequency after so many flips. -/
def pitch (w : Wail) (k : Nat) : UInt32 := if k % 2 = 0 then w.low else w.high

/-- The next so many flips after the first `k`. -/
def flips (w : Wail) (c : Channel) (interval : UInt32) (k count : Nat) : List Cue :=
  (List.range' (k + 1) count).map fun k => ⟨interval, .emit c (w.pitch k)⟩

theorem flips_succ (w : Wail) (c : Channel) (interval : UInt32) (k count : Nat) :
    w.flips c interval k (count + 1) =
      ⟨interval, .emit c (w.pitch (k + 1))⟩ :: w.flips c interval (k + 1) count := by
  rw [flips, List.range'_succ]
  rfl

theorem length_flips (w : Wail) (c : Channel) (interval : UInt32) (k count : Nat) :
    (w.flips c interval k count).length = count := by
  simp [flips]

theorem wait_flips (w : Wail) (c : Channel) (interval : UInt32) (k count : Nat) :
    ∀ cue ∈ w.flips c interval k count, cue.wait = interval := by
  intro cue hc
  obtain ⟨k, -, rfl⟩ := List.mem_map.mp hc
  rfl

/-- The first frequency and the flips after it. -/
theorem commands_flips (w : Wail) (c : Channel) (interval : UInt32) (count : Nat) :
    .emit c w.low :: (w.flips c interval 0 count).map Cue.command =
      (List.range (count + 1)).map fun k => .emit c (w.pitch k) := by
  rw [List.range_eq_range', List.range'_succ, List.map_cons, flips, List.map_map]
  rfl

theorem toNat_interval (w : Wail) (divisions : UInt32) :
    (w.interval divisions).toNat = max 1 (w.total.toNat / max divisions.toNat 1) := by
  have toNat_max (a b : UInt32) : (max a b).toNat = max a.toNat b.toNat := by
    rw [Nat.max_def, show max a b = if a ≤ b then b else a from rfl]
    simp only [UInt32.le_iff_toNat_le]
    split <;> rfl
  rw [interval, toNat_max, UInt32.toNat_div, toNat_max, UInt32.toNat_one, Nat.max_comm]

theorem interval_pos (w : Wail) (divisions : UInt32) : 0 < (w.interval divisions).toNat := by
  rw [toNat_interval]
  omega

theorem total_pos {w : Wail} {settings : Settings} (h : w.check settings.range = .ok ()) :
    0 < w.total.toNat := by
  rw [Player.siren_check] at h
  have holds := Condition.holds_of_verdict h (c := ⟨w.total ≠ 0, .zeroDuration⟩)
    (by simp [Request.conditions])
  have nonzero : w.total ≠ 0 := by simpa using holds
  exact UInt32.lt_iff_toNat_lt.mp (UInt32.pos_iff_ne_zero.mpr nonzero)

/-- How many flips come within the total time if the ticks come at equal distances. -/
theorem length_flips_iterate {w : Wail} {c : Channel} {interval now s : UInt32} {n : Nat}
    (total : 0 < w.total.toNat) (wait : 0 < interval.toNat) (positive : 0 < s.toNat)
    (bound : w.total.toNat + s.toNat < 2 ^ 32) (enough : w.total.toNat ≤ s.toNat * n) :
    (follow now (w.flips c interval 0 n) ((List.iterate (· + s) (now + s) n).takeWhile
        fun t => Clock.elapsed t now < w.total)).flatten.length =
      (w.total.toNat - 1) / (s.toNat * (interval.toNat ⌈/⌉ s.toNat)) := by
  have hq : 0 < interval.toNat ⌈/⌉ s.toNat := by
    rw [← Nat.not_le, ceilDiv_le_iff_le_mul positive]
    omega
  obtain ⟨few, within⟩ := takeWhile_iterate_of_le now total positive bound enough
  have := Nat.mul_div_le (w.total.toNat - 1) s.toNat
  rw [within, length_follow_iterate positive (w.wait_flips c interval 0 n)
      (by rw [length_flips]; exact Nat.le_of_lt few) hq (Clock.elapsed_first_step now s)
      (by rw [Nat.zero_add]; omega),
    Nat.zero_add, Nat.div_div_eq_div_mul]

end Wail

namespace SirenPlayer

variable {w : Wail} {c : Channel} {interval begun since now : UInt32} {k : Nat} {p : SirenPlayer}

/-- A siren that has flipped so many times since it began, last at `since`. -/
structure Wails (w : Wail) (c : Channel) (interval begun : UInt32) (p : SirenPlayer) (k : Nat)
    (since : UInt32) : Prop where
  channel : p.channel = c
  alternation : p.alternation = some ⟨w, interval, begun, since, k % 2 = 0⟩

theorem Wails.tick_waits (h : Wails w c interval begun p k since)
    (within : Clock.elapsed now begun < w.total) (early : Clock.elapsed now since < interval)
    (leases : Leases) : p.tick leases now = { player := p, leases } := by
  simp only [tick, h.alternation, if_neg (UInt32.not_le.mpr within),
    if_neg (UInt32.not_le.mpr early)]

theorem Wails.tick_flips (h : Wails w c interval begun p k since)
    (within : Clock.elapsed now begun < w.total) (due : interval ≤ Clock.elapsed now since)
    (leases : Leases) :
    (p.tick leases now).commands = [.emit c (w.pitch (k + 1))] ∧
      Wails w c interval begun (p.tick leases now).player (k + 1) now := by
  have other : (!decide (k % 2 = 0)) = decide ((k + 1) % 2 = 0) := by
    rw [← decide_not]
    congr 1
    rw [eq_iff_iff]
    omega
  simp only [tick, h.alternation, if_neg (UInt32.not_le.mpr within), if_pos due, Alternation.flip,
    other]
  refine ⟨?_, h.channel, rfl⟩
  simp [Alternation.frequency, Wail.pitch, h.channel]

theorem Wails.tick_ends (h : Wails w c interval begun p k since)
    (late : w.total ≤ Clock.elapsed now begun) (leases : Leases) :
    (p.tick leases now).commands = [.silence c] ∧
      (p.tick leases now).player.isActive = false := by
  simp only [tick, h.alternation, if_pos late]
  exact ⟨by rw [← h.channel]; rfl, rfl⟩

/-- An idle siren issues nothing and stays idle. -/
theorem turns_idle (idle : p.isActive = false) (schedule : List Moment) :
    turns tick p schedule = (schedule.map Moment.now).map (fun _ => []) ∧
      (runTicks tick p schedule).1.isActive = false := by
  have none : p.alternation = none := by simpa [isActive] using idle
  induction schedule with
  | nil => exact ⟨rfl, idle⟩
  | cons m rest ih =>
    have still : p.tick m.leases m.now = { player := p, leases := m.leases } := by
      simp only [tick, none]
    rw [turns, runTicks_cons, still, List.map_cons, List.map_cons]
    exact ⟨congrArg _ ih.1, ih.2⟩

/-- Until the total time is over a siren follows its flips; the first tick after that ends it. -/
theorem Wails.run (h : Wails w c interval begun p k since) {count : Nat} (schedule : List Moment)
    (enough : schedule.length ≤ count) :
    let sounds (now : UInt32) : Bool := Clock.elapsed now begun < w.total
    let ticks := schedule.map Moment.now
    turns tick p schedule =
        follow since (w.flips c interval k count) (ticks.takeWhile sounds) ++
          once (.silence c) (ticks.dropWhile sounds) ∧
      (runTicks tick p schedule).1.isActive = (ticks.dropWhile sounds).isEmpty := by
  intro sounds ticks
  induction schedule generalizing p k since count with
  | nil =>
    exact ⟨by simp [ticks, turns, Sheet.follow_nil, once], by simp [ticks, isActive, h.alternation]⟩
  | cons m rest ih =>
    obtain ⟨count, rfl⟩ : ∃ n, count = n + 1 := ⟨count - 1, by simp at enough; omega⟩
    have fewer : rest.length ≤ count := Nat.le_of_succ_le_succ enough
    simp only [ticks, turns, runTicks_cons, List.map_cons]
    by_cases within : Clock.elapsed m.now begun < w.total
    · have hm : sounds m.now = true := by simpa [sounds] using within
      rw [List.takeWhile_cons_of_pos hm, List.dropWhile_cons_of_pos hm,
        Sheet.follow_tick ⟨since, w.flips c interval k (count + 1)⟩]
      by_cases early : Clock.elapsed m.now since < interval
      · obtain ⟨ht, ha⟩ := ih h (Nat.le_succ_of_le fewer)
        rw [h.tick_waits within early, Wail.flips_succ, Sheet.due?_early _ early, ← Wail.flips_succ]
        exact ⟨by rw [ht]; rfl, ha⟩
      · obtain ⟨flipped, hk⟩ := h.tick_flips within (UInt32.not_lt.mp early) m.leases
        obtain ⟨ht, ha⟩ := ih hk fewer
        rw [flipped, Wail.flips_succ, Sheet.due?_late _ early]
        exact ⟨by rw [ht]; rfl, ha⟩
    · have hm : ¬ sounds m.now = true := by simpa [sounds] using within
      obtain ⟨ended, idle⟩ := h.tick_ends (UInt32.not_lt.mp within) m.leases
      obtain ⟨ht, ha⟩ := turns_idle idle rest
      rw [List.takeWhile_cons_of_neg hm, List.dropWhile_cons_of_neg hm, Sheet.follow_nil, ended, ht,
        ha]
      exact ⟨rfl, rfl⟩

/-- A siren that is let in sounds its low frequency and has all its flips to come. -/
theorem start_wails {leases : Leases} (accepted : (p.start leases now w).verdict = .ok ()) :
    Wails w p.channel (w.interval p.settings.sirenDivisions) now (p.start leases now w).player 0
        now ∧
      (p.start leases now w).commands = [.emit p.channel w.low] ∧ 0 < w.total.toNat := by
  obtain ⟨checked, lease, t, entered⟩ := Attempt.entered accepted
  rw [start, entered]
  exact ⟨⟨rfl, rfl⟩, rfl, Wail.total_pos checked⟩

/-- The low frequency and the flips that have been taken are an alternation. -/
theorem issued_flips (w : Wail) (c : Channel) (interval now : UInt32) (count : Nat)
    (ticks : List UInt32) :
    let flips := (follow now (w.flips c interval 0 count) ticks).flatten
    .emit c w.low :: flips = (List.range (1 + flips.length)).map fun k => .emit c (w.pitch k) := by
  intro flips
  have pref : .emit c w.low :: flips <+:
      (List.range (count + 1)).map fun k => .emit c (w.pitch k) :=
    ⟨_, by rw [List.cons_append, Sheet.flatten_follow ⟨now, w.flips c interval 0 count⟩,
      Wail.commands_flips]⟩
  have hlen := pref.length_le
  rw [List.length_map, List.length_range, List.length_cons, Nat.add_comm] at hlen
  rw [List.prefix_iff_eq_take.mp pref, ← List.map_take, List.take_range, List.length_cons,
    Nat.add_comm, Nat.min_eq_left hlen]

/-- All that a siren has issued since it began: an alternation, and a silence if it is over. -/
theorem Wails.run_issued (h : Wails w c interval begun p 0 begun) (schedule : List Moment) :
    let ticks := (schedule.map Moment.now).takeWhile fun now => Clock.elapsed now begun < w.total
    let count := (follow begun (w.flips c interval 0 schedule.length) ticks).flatten.length
    let run := runTicks tick p schedule
    .emit c w.low :: run.2 = (List.range (1 + count)).map (fun k => .emit c (w.pitch k)) ++
      if run.1.isActive then [] else [.silence c] := by
  intro ticks count run
  obtain ⟨hturns, active⟩ := h.run schedule (Nat.le_refl _)
  have issued : run.2 = (follow begun (w.flips c interval 0 schedule.length) ticks).flatten ++
      if run.1.isActive then [] else [.silence c] := by
    rw [← flatten_turns, hturns, List.flatten_append, flatten_once, active]
  rw [issued, ← List.cons_append]
  exact congrArg (· ++ _) (issued_flips w c interval begun schedule.length ticks)

/-- An accepted siren alternates from its low frequency on, however the ticks come. A flip comes at
the first tick that finds the interval since the last one over, one a tick, while the total time is
not over; as many flips as ticks are to come, so they never run out. The first tick that finds the
total time over issues a single silence, and nothing follows that. With ticks at equal distances the
flips come at multiples of a whole number of ticks, so their number is known. -/
theorem run_alternates (p : SirenPlayer) (leases : Leases) (now : UInt32) (w : Wail)
    (accepted : (p.start leases now w).verdict = .ok ()) (schedule : List Moment) :
    let started := p.start leases now w
    let run := runTicks tick started.player schedule
    let q := run.1
    let issued := started.commands ++ run.2
    let frequencies := issued.filterMap Command.frequency?
    let interval := w.interval p.settings.sirenDivisions
    let pitch (k : Nat) : UInt32 := if k % 2 = 0 then w.low else w.high
    let sounds (t : UInt32) : Bool := Clock.elapsed t now < w.total
    let ticks := schedule.map Moment.now
    interval.toNat = max 1 (w.total.toNat / max p.settings.sirenDivisions.toNat 1) ∧
      frequencies = (List.range frequencies.length).map pitch ∧
      issued = frequencies.map (.emit p.channel) ++
        (if q.isActive then [] else [.silence p.channel]) ∧
      started.commands = [.emit p.channel w.low] ∧
      turns tick started.player schedule =
        follow now
            ((List.range' 1 schedule.length).map fun k => ⟨interval, .emit p.channel (pitch k)⟩)
            (ticks.takeWhile sounds) ++
          once (.silence p.channel) (ticks.dropWhile sounds) ∧
      (∀ turn ∈ turns tick started.player schedule, turn.length ≤ 1) ∧
      (q.isActive = true ↔ ∀ t ∈ ticks, sounds t = true) ∧
      (q.isActive = false → ∀ later, (runTicks tick q later).2 = []) ∧
      ∀ s : UInt32, 0 < s → w.total.toNat + s.toNat < 2 ^ 32 →
        ticks = List.iterate (· + s) (now + s) schedule.length →
        w.total.toNat ≤ s.toNat * schedule.length →
        q.isActive = false ∧
          frequencies.length =
            1 + (w.total.toNat - 1) / (s.toNat * (interval.toNat ⌈/⌉ s.toNat)) := by
  intro started run q issued frequencies interval pitch sounds ticks
  obtain ⟨begun, first, total⟩ := start_wails accepted
  obtain ⟨hturns, active⟩ := begun.run schedule (Nat.le_refl _)
  have within_iff : q.isActive = true ↔ ∀ t ∈ ticks, sounds t = true := by
    rw [active, List.isEmpty_iff, List.dropWhile_eq_nil_iff]
  let count := (follow now (w.flips p.channel interval 0 schedule.length)
    (ticks.takeWhile sounds)).flatten.length
  have hissued : issued = ((List.range (1 + count)).map pitch).map (.emit p.channel) ++
      if q.isActive then [] else [.silence p.channel] := by
    rw [List.map_map]
    exact (congrArg (· ++ run.2) first).trans (begun.run_issued schedule)
  have silent : (if q.isActive then [] else [Command.silence p.channel]).filterMap
      Command.frequency? = [] := by
    split <;> rfl
  have hfrequencies : frequencies = (List.range (1 + count)).map pitch := by
    refine (congrArg (List.filterMap _) hissued).trans ?_
    rw [List.filterMap_append, silent, List.append_nil, Command.frequencies_emit]
  have hcount : frequencies.length = 1 + count := by
    rw [hfrequencies, List.length_map, List.length_range]
  refine ⟨w.toNat_interval _, by rw [hcount, hfrequencies], by rw [hfrequencies, hissued], first,
    hturns, ?_, within_iff, ?_, ?_⟩
  · rw [hturns]
    intro turn ht
    obtain flip | ending := List.mem_append.mp ht
    · exact Sheet.length_le_one_of_mem_follow ⟨now, _⟩ _ turn flip
    · exact length_le_one_of_mem_once _ _ turn ending
  · intro idle later
    rw [← flatten_turns, (turns_idle idle later).1]
    simp
  · intro s positive bound regular enough
    have positive := UInt32.lt_iff_toNat_lt.mp positive
    have wait := w.interval_pos p.settings.sirenDivisions
    obtain ⟨few, within⟩ := takeWhile_iterate_of_le now total positive bound enough
    constructor
    · rw [Bool.eq_false_iff, Ne, within_iff, ← List.takeWhile_eq_self_iff, regular, within]
      intro all
      have := congrArg List.length all
      rw [List.length_iterate, List.length_iterate] at this
      omega
    · rw [hcount]
      simp only [count, regular]
      rw [Wail.length_flips_iterate total wait positive bound enough]

/-- A total time of 100 that is divided by 3, on a clock that wraps. The interval is 33, but ticks
every 10 make it 40. -/
theorem run_alternates_unevenly :
    let p : SirenPlayer := { channel := ⟨3⟩, settings := { sirenDivisions := 3 } }
    let started := p.start {} 0xFFFFFFE0 ⟨400, 800, 100⟩
    let schedule : List Moment :=
      (List.iterate (· + 10) (0xFFFFFFE0 + 10) 12).map fun now => ⟨{}, now⟩
    let run := runTicks tick started.player schedule
    let frequencies := (started.commands ++ run.2).filterMap Command.frequency?
    started.verdict = .ok () ∧ run.1.isActive = false ∧
      frequencies.length = 1 + 99 / (10 * (33 ⌈/⌉ 10)) ∧
      started.commands ++ run.2 = [400, 800, 400].map (.emit ⟨3⟩) ++ [.silence ⟨3⟩] ∧
      turns tick started.player schedule =
        [[], [], [], [.emit ⟨3⟩ 800], [], [], [], [.emit ⟨3⟩ 400], [], [.silence ⟨3⟩], [], []] := by
  intro p started schedule run frequencies
  have accepted : started.verdict = .ok () := rfl
  obtain ⟨-, alternate, hissued, -, hturns, -, -, -, regular⟩ :=
    run_alternates p {} 0xFFFFFFE0 ⟨400, 800, 100⟩ accepted schedule
  obtain ⟨idle, count⟩ : run.1.isActive = false ∧ frequencies.length = _ :=
    regular 10 (by decide) (by decide) (by decide) (by decide)
  refine ⟨accepted, idle, count.trans (by decide), ?_, ?_⟩
  · rw [hissued, alternate]
    decide
  · rw [hturns]
    decide

end SirenPlayer

end Piezo
