import Piezo.Player.Alert
import Piezo.Player.Siren
import Piezo.Player.Sweep
import Piezo.Player.Tone

/-!
What one tick does, kind by kind: each way in which it can go, with the condition for it.
-/

namespace Piezo

namespace TonePlayer

/-- A tick ends a tone that is over and leaves anything else alone. -/
theorem tick_cases (p : TonePlayer) (leases : Leases) (now : UInt32) :
    (p.tick leases now = { player := p, leases } ∧ ∀ h, p.hold = some h → ¬ h.isOver now) ∨
      (p.tick leases now = p.finish leases [] ∧ ∃ h, p.hold = some h ∧ h.isOver now) := by
  unfold tick
  cases hh : p.hold with
  | none => simp
  | some h =>
    by_cases ho : h.isOver now
    · simp [ho]
    · simp [ho]

end TonePlayer

namespace AlertPlayer

/-- A tick waits, ends a tone for the last time or for a gap, or ends a gap. -/
theorem tick_cases (p : AlertPlayer) (leases : Leases) (now : UInt32) :
    (p.tick leases now = { player := p, leases } ∧
        (∀ w since, p.phase = .sounding w since → Clock.elapsed now since < w.duration) ∧
        ∀ w since, p.phase = .gap w since → Clock.elapsed now since < w.lapse) ∨
      (∃ w since, p.phase = .sounding w since ∧ w.duration ≤ Clock.elapsed now since ∧
        w.count ≤ p.completed + 1 ∧
        p.tick leases now =
          { p with completed := p.completed + 1 }.finish leases [.alertFinished p.channel]) ∨
      (∃ w since, p.phase = .sounding w since ∧ w.duration ≤ Clock.elapsed now since ∧
        p.completed + 1 < w.count ∧
        p.tick leases now =
          { player := { p with completed := p.completed + 1, phase := .gap w now }
            leases
            commands := [.silence p.channel] }) ∨
      ∃ w since, p.phase = .gap w since ∧ w.lapse ≤ Clock.elapsed now since ∧
        p.tick leases now =
          { player := { p with phase := .sounding w now }
            leases
            commands := [.emit p.channel w.frequency] } := by
  unfold tick
  cases hp : p.phase with
  | idle => simp
  | sounding w since =>
    by_cases hd : Clock.elapsed now since < w.duration
    · simp [hd]
    · by_cases hc : w.count ≤ p.completed + 1
      · exact .inr (.inl ⟨w, since, rfl, UInt32.not_lt.mp hd, hc, by simp [hd, hc]⟩)
      · exact .inr (.inr (.inl ⟨w, since, rfl, UInt32.not_lt.mp hd, UInt32.not_le.mp hc,
          by simp [hd, hc]⟩))
  | gap w since =>
    by_cases hd : Clock.elapsed now since < w.lapse
    · simp [hd]
    · exact .inr (.inr (.inr ⟨w, since, rfl, UInt32.not_lt.mp hd, by simp [hd]⟩))

end AlertPlayer

namespace SweepPlayer

/-- A tick waits, takes one step or ends the sweep. -/
theorem tick_cases (p : SweepPlayer) (leases : Leases) (now : UInt32) :
    (p.tick leases now = { player := p, leases } ∧
        ∀ s, p.sweep = some s → Clock.elapsed now s.since < s.ramp.duration) ∨
      (∃ s frequency, p.sweep = some s ∧ s.ramp.duration ≤ Clock.elapsed now s.since ∧
        s.ramp.next? s.frequency = some frequency ∧
        p.tick leases now =
          { player := { p with sweep := some { s with frequency, since := now } }
            leases
            commands := [.emit p.channel frequency] }) ∨
      ∃ s, p.sweep = some s ∧ s.ramp.duration ≤ Clock.elapsed now s.since ∧
        s.ramp.next? s.frequency = none ∧
        p.tick leases now = p.finish leases [.sweepFinished p.channel s.frequency] := by
  unfold tick
  cases hp : p.sweep with
  | none => simp
  | some s =>
    by_cases hd : Clock.elapsed now s.since < s.ramp.duration
    · simp [hd]
    · cases hn : s.ramp.next? s.frequency with
      | none => exact .inr (.inr ⟨s, rfl, UInt32.not_lt.mp hd, hn, by simp [hd, hn]⟩)
      | some frequency =>
        exact .inr (.inl ⟨s, frequency, rfl, UInt32.not_lt.mp hd, hn, by simp [hd, hn]⟩)

end SweepPlayer

namespace SirenPlayer

/-- A tick waits, flips the siren or ends it. -/
theorem tick_cases (p : SirenPlayer) (leases : Leases) (now : UInt32) :
    (p.tick leases now = { player := p, leases } ∧
        ∀ a, p.alternation = some a → Clock.elapsed now a.since < a.wail.total ∧
          Clock.elapsed now a.flipped < a.interval) ∨
      (∃ a, p.alternation = some a ∧ Clock.elapsed now a.since < a.wail.total ∧
        a.interval ≤ Clock.elapsed now a.flipped ∧
        p.tick leases now =
          { player := { p with alternation := some (a.flip now) }
            leases
            commands := [.emit p.channel (a.flip now).frequency] }) ∨
      ∃ a, p.alternation = some a ∧ a.wail.total ≤ Clock.elapsed now a.since ∧
        p.tick leases now = p.finish leases [.sirenFinished p.channel] := by
  unfold tick
  cases hp : p.alternation with
  | none => simp
  | some a =>
    by_cases ht : a.wail.total ≤ Clock.elapsed now a.since
    · exact .inr (.inr ⟨a, rfl, ht, by simp [ht]⟩)
    · have hl := UInt32.not_le.mp ht
      by_cases hi : a.interval ≤ Clock.elapsed now a.flipped
      · exact .inr (.inl ⟨a, rfl, hl, hi, by simp [ht, hi]⟩)
      · exact .inl ⟨by simp [ht, hi], by simp [hl, UInt32.not_le.mp hi]⟩

end SirenPlayer

end Piezo
