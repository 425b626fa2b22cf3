import Piezo.Proofs.Playback
import Piezo.Proofs.Schedule

/-!
Scores: the commands of a whole melody, written down before it is played.

Whenever the ticks come, a melody issues its score and nothing else: a run of ticks issues a prefix
of it, and the whole of it once the melody has ended.
-/

namespace Piezo

/-- The commands that a note is played with. -/
def Note.commands (range : FrequencyRange) (channel : Channel) (n : Note) : List Command :=
  if n.duration = 0 then [.silence channel]
  else if n.frequency = 0 then [.silence channel, .silence channel]
  else if range.contains n.frequency then [.emit channel n.frequency, .silence channel]
  else [.silence channel]

/-- The commands that a melody is played with: each pass note by note, then a last silence. -/
def Melody.score (m : Melody) (range : FrequencyRange) (channel : Channel) (repeats : UInt8) :
    List Command :=
  let pass := m.notes.toList.flatMap (Note.commands range channel)
  (List.replicate (max repeats.toNat 1) pass).flatten ++ [.silence channel]

theorem Note.commands_of_isPlayable {range : FrequencyRange} {n : Note} (h : n.IsPlayable range)
    (channel : Channel) :
    n.commands range channel = [Hold.command channel n.frequency, .silence channel] := by
  obtain ⟨hf | hf, hd⟩ := h
  · simp [commands, Hold.command, hf, hd]
  · by_cases h0 : n.frequency = 0 <;> simp [commands, Hold.command, h0, hf, hd]

theorem Note.commands_of_not_isPlayable {range : FrequencyRange} {n : Note}
    (h : ¬ n.IsPlayable range) (channel : Channel) :
    n.commands range channel = [.silence channel] := by
  unfold IsPlayable at h
  by_cases hd : n.duration = 0
  · simp [commands, hd]
  · have hf : n.frequency ≠ 0 := fun hf => h ⟨.inl hf, hd⟩
    have hr : ¬ range.contains n.frequency := fun hr => h ⟨.inr hr, hd⟩
    simp [commands, hd, hf, hr]

namespace MelodyPlayer

variable {p : MelodyPlayer} (leases : Leases) (now : UInt32)

/-- The silence that ends the tone being held. -/
def owedHold (p : MelodyPlayer) : List Command :=
  if p.tone.hold.isSome then [.silence p.channel] else []

/-- The commands that are still to come if the melody is ticked to its end. -/
def owed (p : MelodyPlayer) : List Command :=
  match p.playback with
  | none => []
  | some b =>
    p.owedHold ++ b.remaining.flatMap (Note.commands p.settings.range p.channel) ++
      [.silence p.channel]

theorem owed_eq_nil_iff (p : MelodyPlayer) : p.owed = [] ↔ p.isActive = false := by
  unfold owed isActive
  cases p.playback <;> simp

/-- A note's first command is issued when it begins, and the second is owed for as long as it is
held. -/
theorem play_pays (p : MelodyPlayer) (n : Note) :
    (p.play leases now n).commands ++ (p.play leases now n).player.owedHold =
      n.commands p.settings.range p.channel := by
  by_cases hn : n.IsPlayable p.settings.range
  · rw [play_of_isPlayable _ _ hn, Note.commands_of_isPlayable hn]
    simp [owedHold, channel]
  · obtain ⟨_, he⟩ := play_of_not_isPlayable leases now hn
    rw [he, Note.commands_of_not_isPlayable hn]
    simp [owedHold]

theorem play_frame (p : MelodyPlayer) (n : Note) :
    (p.play leases now n).player.playback = p.playback ∧
      (p.play leases now n).player.channel = p.channel ∧
      (p.play leases now n).player.settings = p.settings := by
  by_cases hn : n.IsPlayable p.settings.range
  · rw [play_of_isPlayable _ _ hn]
    exact ⟨rfl, rfl, rfl⟩
  · obtain ⟨_, he⟩ := play_of_not_isPlayable leases now hn
    rw [he]
    exact ⟨rfl, rfl, rfl⟩

theorem owed_of_playback {b : Playback} (hp : p.playback = some b) :
    p.owed = p.owedHold ++ b.remaining.flatMap (Note.commands p.settings.range p.channel) ++
      [.silence p.channel] := by
  simp only [owed, hp]

/-- Beginning a note pays for the first of its commands; the rest of the melody is still owed. -/
theorem play_owed {b : Playback} (hp : p.playback = some b) (n : Note) :
    (p.play leases now n).commands ++ (p.play leases now n).player.owed =
      (n :: b.remaining).flatMap (Note.commands p.settings.range p.channel) ++
        [.silence p.channel] := by
  obtain ⟨hb, hc, hs⟩ := play_frame leases now p n
  rw [owed_of_playback (hb.trans hp), hc, hs, List.flatMap_cons, ← play_pays leases now p n]
  simp

theorem settle_pays {b : Playback} (hp : p.playback = some b) :
    (p.settle leases now).commands ++ (p.settle leases now).player.owed = p.owed := by
  obtain ⟨ht, _⟩ | ⟨ht, h, hh, _⟩ := settle_cases leases now p
  · rw [ht]
    rfl
  · rw [ht]
    simp [owed, owedHold, hp, hh, channel, settings]

theorem advance_pays {b : Playback} {n : Note} (hp : p.playback = some b) (hb : b.OnNote n)
    (hh : ¬ Clock.elapsed now b.since < p.wait n → p.tone.hold = none) :
    (p.advance leases now).commands ++ (p.advance leases now).player.owed = p.owed := by
  obtain ⟨_, ha⟩ | ⟨hd, hr, ha⟩ | ⟨hd, c, m, _, _, hr, ha⟩ :=
    advance_cases leases now hp hb
  · rw [ha]
    rfl
  · rw [ha, owed_of_playback hp]
    simp [finish, owed, owedHold, hh hd, hr]
  · rw [ha, play_owed _ _ rfl, owed_of_playback hp, hr]
    simp [owedHold, hh hd, channel, settings]

theorem tick_of_playback {b : Playback} (hp : p.playback = some b) :
    (p.tick leases now).player =
        ((p.settle leases now).player.advance (p.settle leases now).leases now).player ∧
      (p.tick leases now).commands = (p.settle leases now).commands ++
        ((p.settle leases now).player.advance (p.settle leases now).leases now).commands := by
  simp [tick, isActive, hp]

/-- A tick pays for exactly what it issues. -/
theorem tick_pays (h : p.InStep) :
    (p.tick leases now).commands ++ (p.tick leases now).player.owed = p.owed := by
  cases hp : p.playback with
  | none => simp [tick, isActive, hp]
  | some b =>
    obtain ⟨n, hb, _⟩ := h.onNote hp
    obtain ⟨hq, hc⟩ := tick_of_playback leases now hp
    have hs := settle_pays leases now hp
    have ha := advance_pays (p.settle leases now).leases now
      ((settle_frame leases now p).1.trans hp) hb
      (settle_wait leases now p n ▸ settle_hold_of_due leases now hp hb h)
    rw [hq, hc, List.append_assoc, ha, hs]

/-- The notes that a melody plays from its start: the first one and all that remain after it. -/
theorem remaining_first (m : Melody) (repeats : UInt8) (now : UInt32) {n : Note}
    (hb : Playback.OnNote ⟨m, 0, 0, max repeats 1, now⟩ n) :
    n :: Playback.remaining ⟨m, 0, 0, max repeats 1, now⟩ =
      (List.replicate (max repeats.toNat 1) m.notes.toList).flatten := by
  have hn : m.notes.toList[0]? = some n := by simpa [Playback.note?] using hb.1
  obtain ⟨k, hk⟩ : ∃ k, max repeats.toNat 1 = k + 1 := ⟨max repeats.toNat 1 - 1, by omega⟩
  cases hl : m.notes.toList with
  | nil => simp [hl] at hn
  | cons a rest =>
    simp only [hl, List.getElem?_cons_zero, Option.some.injEq] at hn
    subst hn
    simp [Playback.remaining, hl, Playback.toNat_max_one, hk, List.replicate_succ]

theorem flatMap_passes (k : Nat) (notes : List Note) (f : Note → List Command) :
    (List.replicate k notes).flatten.flatMap f = (List.replicate k (notes.flatMap f)).flatten := by
  induction k with
  | zero => rfl
  | succ k ih => simp only [List.replicate_succ, List.flatten_cons, List.flatMap_append, ih]

/-- A melody that is let in enters on its first note. -/
theorem start_enters {m : Melody} {repeats : UInt8}
    (h : (p.start leases now m repeats).verdict = .ok ()) :
    ∃ lease t n notices, Playback.OnNote ⟨m, 0, 0, max repeats 1, now⟩ n ∧
      (p.start leases now m repeats).toTurn =
        { { p with
              playback := some ⟨m, 0, 0, max repeats 1, now⟩
              lease := some lease
              counted := 0 }.play t now n with notices } := by
  obtain ⟨checked, lease, t, entered⟩ := Attempt.entered h
  have hm : m.size ≠ 0 := by
    intro h0
    simp [Melody.check, h0] at checked
  obtain ⟨n, notices, hn, he⟩ := enter_spec t now p hm repeats lease
  exact ⟨lease, t, n, notices, hn, by rw [start, entered, he]⟩

/-- A melody that is let in has issued the beginning of its score and owes the rest. -/
theorem start_pays {m : Melody} {repeats : UInt8}
    (h : (p.start leases now m repeats).verdict = .ok ()) :
    (p.start leases now m repeats).player.InStep ∧
      (p.start leases now m repeats).commands ++ (p.start leases now m repeats).player.owed =
        m.score p.settings.range p.channel repeats := by
  obtain ⟨lease, t, n, _, hn, he⟩ := start_enters leases now h
  rw [he]
  refine ⟨play_inStep t now rfl hn rfl, ?_⟩
  rw [play_owed t now rfl n, remaining_first m repeats now hn, flatMap_passes]
  rfl

/-- A tick that comes when the wait is over leaves fewer notes to come. -/
theorem exists_due_tick {b : Playback} (h : p.InStep) (hp : p.playback = some b) :
    ∃ now, (p.tick leases now).player.playback = none ∨
      ∃ c, (p.tick leases now).player.playback = some c ∧
        c.remaining.length < b.remaining.length := by
  obtain ⟨n, hb, _⟩ := h.onNote hp
  refine ⟨b.since + p.wait n, ?_⟩
  have hd := Clock.elapsed_add b.since (p.wait n)
  revert hd
  generalize b.since + p.wait n = now
  intro hd
  rw [(tick_of_playback leases now hp).1]
  obtain ⟨hw, _⟩ | ⟨_, _, ha⟩ | ⟨_, c, m, _, _, hr, ha⟩ :=
    advance_cases (p.settle leases now).leases now ((settle_frame leases now p).1.trans hp) hb
  · rw [hd, settle_wait] at hw
    exact absurd hw (UInt32.lt_irrefl _)
  · left
    rw [ha]
    rfl
  · right
    refine ⟨c, ?_, by simp [hr]⟩
    rw [ha, (play_frame _ _ _ _).1]

/-- However long a melody has been left alone, it can be ticked to its end. -/
theorem exists_run_to_idle (h : p.InStep) :
    ∃ schedule, (runTicks tick p schedule).1.isActive = false := by
  generalize hk : (p.playback.elim 0 fun b => b.remaining.length + 1) = k
  induction k using Nat.strongRecOn generalizing p with
  | ind k ih =>
    cases hp : p.playback with
    | none => exact ⟨[], by simp [isActive, hp]⟩
    | some b =>
      obtain ⟨now, hn⟩ := exists_due_tick {} h hp
      have hlt : ((p.tick {} now).player.playback.elim 0 fun b => b.remaining.length + 1) < k := by
        subst hk
        obtain hn | ⟨c, hc, hl⟩ := hn
        · simp [hn, hp]
        · simpa [hc, hp] using hl
      obtain ⟨schedule, hs⟩ := ih _ hlt (tick_inStep {} now h) rfl
      exact ⟨⟨{}, now⟩ :: schedule, hs⟩

/-- From a start that is accepted, and whatever the moments of the ticks, a melody issues its score:
a prefix of it while it plays, all of it once it is idle, and nothing after that. -/
theorem run_issues_score (p : MelodyPlayer) (leases : Leases) (now : UInt32) (m : Melody)
    (repeats : UInt8) (accepted : (p.start leases now m repeats).verdict = .ok ())
    (schedule : List Moment) :
    let started := p.start leases now m repeats
    let run := runTicks tick started.player schedule
    let issued := started.commands ++ run.2
    let score := m.score p.settings.range p.channel repeats
    issued <+: score ∧
      (run.1.isActive = false ↔ issued = score) ∧
      (run.1.isActive = false → ∀ later, (runTicks tick run.1 later).2 = []) ∧
      ∃ later, (runTicks tick run.1 later).1.isActive = false := by
  intro started run issued score
  have step (q : MelodyPlayer) (t : Leases) (r : UInt32) (h : q.InStep) := tick_inStep t r h
  have pays (q : MelodyPlayer) (t : Leases) (r : UInt32) (h : q.InStep) := tick_pays t r h
  obtain ⟨hin, hstart⟩ := start_pays leases now accepted
  obtain ⟨hrun, howed⟩ := runTicks_owed step pays hin schedule
  have hscore : issued ++ run.1.owed = score :=
    calc issued ++ run.1.owed
      _ = started.commands ++ (run.2 ++ run.1.owed) := List.append_assoc ..
      _ = started.commands ++ started.player.owed := congrArg _ howed
      _ = score := hstart
  refine ⟨⟨_, hscore⟩, ?_, ?_, exists_run_to_idle hrun⟩
  · rw [← run.1.owed_eq_nil_iff]
    constructor
    · intro h
      rw [← hscore, h, List.append_nil]
    · intro h
      rwa [← hscore, List.self_eq_append_right] at h
  · intro hidle later
    have hlater := (runTicks_owed step pays hrun later).2
    rw [(owed_eq_nil_iff _).mpr hidle] at hlater
    exact (List.append_eq_nil_iff.mp hlater).1

/-- A tone, a rest and a pitch out of range, twice, with late ticks and a clock that wraps. -/
theorem run_issues_score_over_wrap :
    let p : MelodyPlayer := { tone := { channel := ⟨3⟩ } }
    let started := p.start {} 0xFFFFFF00 ⟨#[⟨440, 100⟩, ⟨0, 50⟩, ⟨5, 10⟩], .owned⟩ 2
    let run := runTicks tick started.player
      ([0, 10, 2000, 2000, 3000, 4000, 5000, 6000, 7000].map fun now => ⟨{}, now⟩)
    let pass : List Command :=
      [.emit ⟨3⟩ 440, .silence ⟨3⟩, .silence ⟨3⟩, .silence ⟨3⟩, .silence ⟨3⟩]
    started.verdict = .ok () ∧ run.1.isActive = false ∧
      started.commands ++ run.2 = pass ++ pass ++ [.silence ⟨3⟩] := by
  intro p started run pass
  have accepted : started.verdict = .ok () := rfl
  have idle : run.1.isActive = false := by decide
  refine ⟨accepted, idle, ?_⟩
  rw [(run_issues_score p _ _ _ _ accepted _).2.1.mp idle]
  decide

end MelodyPlayer

end Piezo
