import Piezo.Player.Melody
import Piezo.Proofs.Turns

/-!
How a melody moves on: the notes still to come, what it means for the held tone to be in step with
the current note, and what a start, a tick and a stop make of both.
-/

namespace Piezo

/-- The tone that a note is held as. -/
def Note.hold (n : Note) (since : UInt32) : Hold := ⟨n.frequency, n.duration.toUInt32, since⟩

/-- Whether the note is held, as opposed to left out as a silence. -/
def Note.IsPlayable (range : FrequencyRange) (n : Note) : Prop :=
  (n.frequency = 0 ∨ range.contains n.frequency) ∧ n.duration ≠ 0

instance (range : FrequencyRange) (n : Note) : Decidable (n.IsPlayable range) :=
  inferInstanceAs (Decidable (_ ∧ _))

theorem Note.toUInt32_duration_eq_zero (n : Note) : n.duration.toUInt32 = 0 ↔ n.duration = 0 := by
  rw [← UInt32.toNat_inj, ← UInt16.toNat_inj]
  simp

theorem Hold.check_eq (range : FrequencyRange) (frequency duration : UInt32) :
    check range frequency duration =
      if frequency ≠ 0 ∧ ¬ range.contains frequency then
        .error (.frequencyOutOfRange frequency range.min range.max)
      else if duration = 0 then .error .zeroDuration
      else .ok () := by
  unfold check FrequencyRange.check checkDuration
  by_cases hf : frequency = 0 <;> by_cases hr : range.contains frequency <;> simp [hf, hr] <;> rfl

/-- A note passes the check of a tone exactly if it is playable. -/
theorem Note.check_cases (range : FrequencyRange) (n : Note) :
    (n.IsPlayable range ∧ Hold.check range n.frequency n.duration.toUInt32 = .ok ()) ∨
      (¬ n.IsPlayable range ∧
        ∃ error, Hold.check range n.frequency n.duration.toUInt32 = .error error) := by
  rw [Hold.check_eq]
  simp only [IsPlayable, toUInt32_duration_eq_zero]
  by_cases hf : n.frequency = 0 <;> by_cases hr : range.contains n.frequency <;>
    by_cases hd : n.duration = 0 <;> simp [hf, hr, hd]

namespace Playback

variable {b : Playback}

/-- The notes still to come after the current one, in this pass and the later ones. -/
def remaining (b : Playback) : List Note :=
  b.melody.notes.toList.drop (b.index + 1) ++
    (List.replicate (b.passes.toNat - (b.pass.toNat + 1)) b.melody.notes.toList).flatten

/-- The cursor stands on a note, in a pass that is to be played. -/
def OnNote (b : Playback) (n : Note) : Prop := b.note? = some n ∧ b.pass < b.passes

theorem OnNote.index_lt {n : Note} (h : b.OnNote n) : b.index < b.melody.size :=
  (Array.getElem?_eq_some_iff.mp h.1).1

theorem toNat_max_one (repeats : UInt8) : (max repeats 1).toNat = max repeats.toNat 1 := by
  change (if repeats ≤ 1 then 1 else repeats).toNat = _
  split
  · next h =>
    rw [UInt8.le_iff_toNat_le] at h
    simp only [UInt8.reduceToNat] at h ⊢
    omega
  · next h =>
    rw [UInt8.le_iff_toNat_le] at h
    simp only [UInt8.reduceToNat] at h
    omega

theorem toNat_pass_succ (h : b.pass < b.passes) : (b.pass + 1).toNat = b.pass.toNat + 1 := by
  have := b.passes.toNat_lt
  rw [UInt8.lt_iff_toNat_lt] at h
  rw [UInt8.toNat_add]
  simp
  omega

/-- The cursor moves on by exactly one of the notes still to come. -/
theorem next?_spec {n : Note} (hb : b.OnNote n) (now : UInt32) :
    (b.next? now = none ∧ b.remaining = []) ∨
      ∃ c m, b.next? now = some c ∧ c.OnNote m ∧ b.remaining = m :: c.remaining ∧
        c.since = now := by
  have hi : b.index < b.melody.notes.size := hb.index_lt
  have hp := toNat_pass_succ hb.2
  unfold next? Melody.size
  split
  · next h =>
    refine .inr ⟨_, b.melody.notes[b.index + 1], rfl, ⟨by simp [note?], hb.2⟩, ?_, rfl⟩
    simp [remaining, List.drop_eq_getElem_cons (i := b.index + 1) h]
  · next h =>
    have hlast : b.melody.notes.toList.drop (b.index + 1) = [] := by simp; omega
    split
    · next hm =>
      -- The next pass is taken off the copies that are left, and begins with the first note.
      have hm' := UInt8.lt_iff_toNat_lt.mp hm
      have hcopy : b.passes.toNat - (b.pass.toNat + 1) =
          b.passes.toNat - ((b.pass + 1).toNat + 1) + 1 := by omega
      have hfirst :=
        List.drop_eq_getElem_cons (l := b.melody.notes.toList) (i := 0) (by simp; omega)
      refine .inr ⟨_, b.melody.notes[0], rfl, ⟨by simp [note?], hm⟩, ?_, rfl⟩
      simp only [remaining, hlast, hcopy, List.replicate_succ, List.flatten_cons, List.nil_append]
      rw [← List.cons_append]
      congr 1
    · next hm =>
      rw [UInt8.lt_iff_toNat_lt, hp] at hm
      refine .inl ⟨rfl, ?_⟩
      simp [remaining, hlast]
      omega

end Playback

namespace MelodyPlayer

variable {p : MelodyPlayer} (leases : Leases) (now : UInt32)

/-- An idle melody holds no tone. One that plays stands on a note and holds at most that note, since
the time at which it began. -/
def InStep (p : MelodyPlayer) : Prop :=
  match p.playback with
  | none => p.tone.hold = none
  | some b => ∃ n, b.OnNote n ∧ (p.tone.hold = none ∨ p.tone.hold = some (n.hold b.since))

theorem InStep.hold_eq_none (h : p.InStep) (hp : p.playback = none) : p.tone.hold = none := by
  simpa only [InStep, hp] using h

theorem InStep.onNote {b : Playback} (h : p.InStep) (hp : p.playback = some b) :
    ∃ n, b.OnNote n ∧ (p.tone.hold = none ∨ p.tone.hold = some (n.hold b.since)) := by
  simpa only [InStep, hp] using h

theorem InStep.of_onNote {b : Playback} {n : Note} (hp : p.playback = some b) (hb : b.OnNote n)
    (hh : p.tone.hold = none ∨ p.tone.hold = some (n.hold b.since)) : p.InStep := by
  simp only [InStep, hp]
  exact ⟨n, hb, hh⟩

theorem play_of_isPlayable {n : Note} (h : n.IsPlayable p.settings.range) :
    p.play leases now n =
      { player :=
          { p with
            tone := { p.tone with hold := some (n.hold now) }
            counted := p.counted + 1 }
        leases
        commands := [Hold.command p.channel n.frequency] } := by
  obtain ⟨_, hc⟩ | ⟨hn, _⟩ := n.check_cases p.settings.range
  · unfold play TonePlayer.playNote
    simp only [settings] at hc
    simp only [hc]
    rfl
  · exact absurd h hn

theorem play_of_not_isPlayable {n : Note} (h : ¬ n.IsPlayable p.settings.range) :
    ∃ error, p.play leases now n =
      { player :=
          { p with tone := { p.tone with hold := none, lease := none }, counted := p.counted + 1 }
        leases := leases.releaseAny p.tone.lease
        commands := [.silence p.channel]
        notices := [.notPlayed p.channel n error] } := by
  obtain ⟨hn, _⟩ | ⟨_, error, hc⟩ := n.check_cases p.settings.range
  · exact absurd hn h
  · refine ⟨error, ?_⟩
    unfold play TonePlayer.playNote
    simp only [settings] at hc
    simp only [hc]
    rfl

theorem settle_cases (p : MelodyPlayer) :
    (p.settle leases now = { player := p, leases } ∧
        ∀ h, p.tone.hold = some h → ¬ h.isOver now) ∨
      (p.settle leases now =
          { player := { p with tone := { p.tone with hold := none, lease := none } }
            leases := leases.releaseAny p.tone.lease
            commands := [.silence p.channel] } ∧
        ∃ h, p.tone.hold = some h ∧ h.isOver now) := by
  unfold settle
  obtain ⟨ht, ho⟩ | ⟨ht, ho⟩ := p.tone.tick_cases leases now
  · exact .inl ⟨by rw [ht]; rfl, ho⟩
  · exact .inr ⟨by rw [ht]; rfl, ho⟩

theorem settle_frame (p : MelodyPlayer) :
    (p.settle leases now).player.playback = p.playback ∧
      (p.settle leases now).player.channel = p.channel ∧
      (p.settle leases now).player.settings = p.settings := by
  obtain ⟨ht, _⟩ | ⟨ht, _⟩ := settle_cases leases now p <;> rw [ht] <;> exact ⟨rfl, rfl, rfl⟩

theorem settle_wait (p : MelodyPlayer) (n : Note) :
    (p.settle leases now).player.wait n = p.wait n := by
  unfold wait
  rw [(settle_frame leases now p).2.2]

/-- The cursor waits until the current note and its margin are over; then it goes on to the next of
the notes still to come, or the melody ends. -/
theorem advance_cases {b : Playback} {n : Note} (hp : p.playback = some b) (hb : b.OnNote n) :
    (Clock.elapsed now b.since < p.wait n ∧ p.advance leases now = { player := p, leases }) ∨
      (¬ Clock.elapsed now b.since < p.wait n ∧ b.remaining = [] ∧
        p.advance leases now = p.finish leases .finished) ∨
      (¬ Clock.elapsed now b.since < p.wait n ∧ ∃ c m, c.OnNote m ∧ c.since = now ∧
        b.remaining = m :: c.remaining ∧
        p.advance leases now = { p with playback := some c }.play leases now m) := by
  unfold advance
  simp only [hp, hb.1, Option.getD_some]
  split
  · next hw => exact .inl ⟨hw, rfl⟩
  · next hw =>
    obtain ⟨hn, hr⟩ | ⟨c, m, hn, hc, hr, hs⟩ := Playback.next?_spec hb now
    · exact .inr (.inl ⟨hw, hr, by rw [hn]⟩)
    · exact .inr (.inr ⟨hw, c, m, hc, hs, hr, by simp [hn, hc.1]⟩)

/-- The tone of a note never outlasts the wait for the next one. -/
theorem settle_hold_of_due {b : Playback} {n : Note} (hp : p.playback = some b) (hb : b.OnNote n)
    (h : p.InStep) (hd : ¬ Clock.elapsed now b.since < p.wait n) :
    (p.settle leases now).player.tone.hold = none := by
  obtain ⟨ht, ho⟩ | ⟨ht, _⟩ := settle_cases leases now p
  · rw [ht]
    obtain ⟨m, hm, hh | hh⟩ := h.onNote hp
    · exact hh
    · have he : m = n := Option.some.inj (hm.1.symm.trans hb.1)
      subst he
      have hle := UInt32.le_trans (Clock.le_addCapped _ _) (UInt32.not_lt.mp hd)
      exact absurd (decide_eq_true hle) (ho _ hh)
  · rw [ht]

theorem settle_inStep (h : p.InStep) : (p.settle leases now).player.InStep := by
  obtain ⟨ht, _⟩ | ⟨ht, _⟩ := settle_cases leases now p
  · rwa [ht]
  · rw [ht]
    cases hp : p.playback with
    | none => rfl
    | some b =>
      obtain ⟨n, hb, _⟩ := h.onNote hp
      exact .of_onNote rfl hb (.inl rfl)

theorem play_inStep {b : Playback} {n : Note} (hp : p.playback = some b) (hb : b.OnNote n)
    (hs : b.since = now) : (p.play leases now n).player.InStep := by
  subst hs
  by_cases hn : n.IsPlayable p.settings.range
  · rw [play_of_isPlayable _ _ hn]
    exact .of_onNote hp hb (.inr rfl)
  · obtain ⟨_, he⟩ := play_of_not_isPlayable leases b.since hn
    rw [he]
    exact .of_onNote hp hb (.inl rfl)

/-- A melody with notes enters on the first of them. -/
theorem enter_spec (p : MelodyPlayer) {m : Melody} (hm : m.size ≠ 0) (repeats : UInt8)
    (lease : Lease) :
    ∃ n notices, Playback.OnNote ⟨m, 0, 0, max repeats 1, now⟩ n ∧
      p.enter now m repeats lease leases =
        { { p with
              playback := some ⟨m, 0, 0, max repeats 1, now⟩
              lease := some lease
              counted := 0 }.play leases now n with notices } := by
  have hpos : 0 < m.notes.size := Nat.pos_of_ne_zero hm
  have hn : Playback.note? ⟨m, 0, 0, max repeats 1, now⟩ = some m.notes[0] := by
    simp [Playback.note?]
  refine ⟨m.notes[0], _, ⟨hn, ?_⟩, by simp only [enter, hn, Option.getD_some]; rfl⟩
  rw [UInt8.lt_iff_toNat_lt, Playback.toNat_max_one]
  simp only [UInt8.reduceToNat]
  omega

theorem finish_inStep (p : MelodyPlayer) (ending : Ending) :
    (p.finish leases ending).player.InStep := by
  rfl

theorem advance_inStep (h : p.InStep) : (p.advance leases now).player.InStep := by
  cases hp : p.playback with
  | none => simpa [advance, hp] using h
  | some b =>
    obtain ⟨n, hb, _⟩ := h.onNote hp
    obtain ⟨_, ha⟩ | ⟨_, _, ha⟩ | ⟨_, c, m, hc, hs, _, ha⟩ :=
      advance_cases leases now hp hb
    · rwa [ha]
    · rw [ha]
      exact finish_inStep ..
    · rw [ha]
      exact play_inStep _ _ rfl hc hs

theorem tick_inStep (h : p.InStep) : (p.tick leases now).player.InStep := by
  unfold tick
  split
  · exact advance_inStep _ _ (settle_inStep _ _ h)
  · exact h

end MelodyPlayer

end Piezo
