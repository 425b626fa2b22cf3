import Piezo.Proofs.Chord
import Piezo.Proofs.Rendering
import Piezo.Speaker

/-!
Mixing as a law of single samples. A sample is the sum of one wave for each channel that sounded
when its batch began, and the waves are as old as the last batch that began with other frequencies
than the batch before it. So they go on undisturbed from batch to batch, whatever else is asked
meanwhile, as long as the frequencies stay.
-/

namespace Piezo

namespace Wave

/-- The sum of waves that all began so many samples ago, each with an equal part of the volume. -/
def mixed (volume : Float32) (rate : UInt32) (chord : List UInt32) (age : Nat) : Float32 :=
  let gain := volume / chord.length.toUInt64.toFloat32
  (chord.map fun frequency =>
    if phaseAfter frequency rate age < 0.5 then gain else -gain).foldl (· + ·) 0.0

/-- The last batch, no later than a given one, whose chord is not that of the batch before it. The
very first batch counts if there is no such batch after it. -/
structure LastChange (chords : Nat → List UInt32) (current b : Nat) : Prop where
  le : b ≤ current
  changes : b = 0 ∨ chords b ≠ chords (b - 1)
  since : ∀ k, b < k → k ≤ current → chords k = chords (k - 1)

section Change

variable {chords : Nat → List UInt32} {current b : Nat}

theorem lastChange_zero (chords : Nat → List UInt32) : LastChange chords 0 0 :=
  ⟨Nat.le_refl 0, .inl rfl, fun k hk hle => by omega⟩

theorem lastChange_of_ne (h : chords (current + 1) ≠ chords current) :
    LastChange chords (current + 1) (current + 1) :=
  ⟨Nat.le_refl _, .inr h, fun k hk hle => by omega⟩

theorem LastChange.of_eq (h : LastChange chords current b)
    (same : chords (current + 1) = chords current) : LastChange chords (current + 1) b := by
  refine ⟨Nat.le_succ_of_le h.le, h.changes, fun k hk hle => ?_⟩
  rcases Nat.lt_or_eq_of_le hle with hlt | rfl
  · exact h.since k hk (Nat.le_of_lt_succ hlt)
  · exact same

end Change

end Wave

namespace Mixer

open Wave

variable {chords : Nat → List UInt32} {rate : UInt32} {volume : Float32} {n : Nat} {m : Mixer}
  {table : Soundings}

/-- A mixer that is ready for the sample of a number: it has the chord of the batch, and every wave
is as old as the last change. -/
structure InBatch (chords : Nat → List UInt32) (rate : UInt32) (volume : Float32) (n : Nat)
    (m : Mixer) : Prop where
  left : m.left = 64 - n % 64
  frequencies : m.frequencies = chords (n / 64)
  phases : ∃ b, LastChange chords (n / 64) b ∧
    m.phases = (chords (n / 64)).map (phaseAfter · rate (n - 64 * b))
  rate : m.rate = rate
  volume : m.volume = volume

/-- A mixer that a look at the table makes ready, if the batch begins with what the table lists. -/
def Plays (chords : Nat → List UInt32) (rate : UInt32) (volume : Float32) (n : Nat) (m : Mixer) :
    Prop :=
  ∀ table : Soundings, (n % 64 = 0 → chords (n / 64) = table.frequencies) →
    InBatch chords rate volume n (m.ready table)

theorem refresh_of_eq (h : table.frequencies = m.frequencies) :
    m.refresh table = { m with left := batch } := if_pos h

theorem refresh_of_ne (h : table.frequencies ≠ m.frequencies) :
    m.refresh table =
      { m with
        frequencies := table.frequencies
        phases := List.replicate table.frequencies.length 0.0
        left := batch } := if_neg h

theorem InBatch.mix (h : InBatch chords rate volume n m) :
    ∃ b, LastChange chords (n / 64) b ∧
      m.mix = mixed volume rate (chords (n / 64)) (n - 64 * b) := by
  obtain ⟨b, change, hphases⟩ := h.phases
  refine ⟨b, change, ?_⟩
  unfold Mixer.mix mixed
  rw [h.frequencies, h.volume, hphases]
  cases chords (n / 64) with
  | nil => rfl
  | cons first rest =>
    simp only [← List.map_prod_left_eq_zip, List.foldl_map, level, isHigh, decide_eq_true_eq]

/-- New waves have the phase zero. -/
theorem replicate_zero (chord : List UInt32) (rate : UInt32) :
    List.replicate chord.length 0.0 = chord.map (phaseAfter · rate 0) := by
  rw [← List.map_const']
  rfl

theorem plays_fresh (chords : Nat → List UInt32) (rate : UInt32) (volume : Float32) :
    Plays chords rate volume 0 { rate, volume } := by
  intro table hlook
  have hchord : chords 0 = table.frequencies := hlook rfl
  rw [ready, if_pos rfl]
  by_cases silent : table.frequencies = []
  · rw [refresh_of_eq silent]
    have silent : chords 0 = [] := hchord.trans silent
    exact ⟨rfl, silent.symm, ⟨0, lastChange_zero _, by simp [silent]⟩, rfl, rfl⟩
  · rw [refresh_of_ne silent]
    exact ⟨rfl, hchord.symm, ⟨0, lastChange_zero _, by rw [← hchord, replicate_zero _ rate]⟩,
      rfl, rfl⟩

/-- After a sample the waves are one sample older. A look at the table leaves them alone if it shows
what sounded before, and makes it a change otherwise. -/
theorem InBatch.plays (h : InBatch chords rate volume n m) :
    Plays chords rate volume (n + 1) m.next := by
  obtain ⟨b, change, hphases⟩ := h.phases
  have hb := change.le
  have hleft : m.next.left = 64 - n % 64 - 1 := congrArg (· - 1) h.left
  have older : m.next.phases = (chords (n / 64)).map (phaseAfter · rate (n + 1 - 64 * b)) := by
    have hage : n + 1 - 64 * b = n - 64 * b + 1 := by omega
    unfold next
    dsimp only
    simp only [h.frequencies, h.rate, hphases, List.zipWith_map_right, List.zipWith_self, hage,
      nextPhase_phaseAfter]
  intro table hlook
  unfold ready
  by_cases ended : (n + 1) % 64 = 0
  · -- The next batch begins, and it is the last change only if the table lists another chord.
    have hbatch : (n + 1) / 64 = n / 64 + 1 := by omega
    have hchord := hlook ended
    have full : batch = 64 - (n + 1) % 64 := by rw [ended]; rfl
    rw [if_pos (by omega)]
    rw [hbatch] at hchord
    by_cases same : table.frequencies = m.next.frequencies
    · have unchanged : chords (n / 64 + 1) = chords (n / 64) :=
        hchord.trans (same.trans h.frequencies)
      rw [refresh_of_eq same]
      refine ⟨full, ?_, ⟨b, ?_, ?_⟩, h.rate, h.volume⟩
      · rw [hbatch, unchanged]
        exact h.frequencies
      · rw [hbatch]
        exact change.of_eq unchanged
      · rw [hbatch, unchanged]
        exact older
    · have changed : chords (n / 64 + 1) ≠ chords (n / 64) := by
        rw [hchord, ← h.frequencies]
        exact same
      have hage : n + 1 - 64 * (n / 64 + 1) = 0 := by omega
      rw [refresh_of_ne same]
      refine ⟨full, ?_, ⟨n / 64 + 1, ?_, ?_⟩, h.rate, h.volume⟩
      · rw [hbatch, hchord]
      · rw [hbatch]
        exact lastChange_of_ne changed
      · rw [hbatch, hchord, hage, replicate_zero _ rate]
  · have hbatch : (n + 1) / 64 = n / 64 := by omega
    rw [if_neg (by omega)]
    refine ⟨by omega, ?_, ⟨b, ?_, ?_⟩, h.rate, h.volume⟩
    · rw [hbatch]
      exact h.frequencies
    · rwa [hbatch]
    · rw [hbatch]
      exact older

/-- There is a phase for every frequency. -/
def Aligned (m : Mixer) : Prop := m.phases.length = m.frequencies.length

theorem Aligned.sample (h : m.Aligned) (table : Soundings) : (m.sample table).2.Aligned := by
  have aligned : (m.ready table).Aligned := by
    unfold ready
    split
    · by_cases same : table.frequencies = m.frequencies
      · rw [refresh_of_eq same]
        exact h
      · rw [refresh_of_ne same]
        exact List.length_replicate
    · exact h
  unfold Aligned at aligned ⊢
  simp [Mixer.sample, next, aligned]

end Mixer

namespace Speaker

/-- What is done with a speaker, apart from its device. -/
inductive Use where
  | perform (command : Command)
  | pull
  | finish
deriving DecidableEq, Repr

/-- A speaker that has just been opened. -/
def fresh (rate : UInt32) (volume : Float32) : Speaker := { mixer := { rate, volume } }

/-- The speaker after a use. -/
def use (s : Speaker) : Use → Speaker
  | .perform command => s.perform command
  | .pull => s.pull.2
  | .finish => s.finish

/-- The speaker after uses. -/
def after (s : Speaker) (uses : List Use) : Speaker := uses.foldl use s

namespace Use

def command? : Use → Option Command
  | .perform command => some command
  | _ => none

/-- The commands among uses. -/
def commands (uses : List Use) : List Command := uses.filterMap command?

/-- How many samples are pulled in uses. -/
def pulls (uses : List Use) : Nat := uses.count .pull

/-- The commands that come before the pull of a number: all of them if there is no such pull. -/
def before : List Use → Nat → List Command
  | [], _ => []
  | .perform command :: rest, n => command :: before rest n
  | .finish :: rest, n => before rest n
  | .pull :: _, 0 => []
  | .pull :: rest, n + 1 => before rest n

/-- The chord of a batch: what sounds when its first sample is pulled. -/
def chords (uses : List Use) (k : Nat) : List UInt32 :=
  Command.chord (before uses (64 * k))

theorem commands_append (uses more : List Use) :
    commands (uses ++ more) = commands uses ++ commands more := List.filterMap_append

theorem pulls_append (uses more : List Use) : pulls (uses ++ more) = pulls uses + pulls more :=
  List.count_append

theorem before_append (done rest : List Use) :
    before (done ++ rest) (pulls done) = commands done ++ before rest 0 := by
  induction done with
  | nil => rfl
  | cons u done ih =>
    cases u with
    | perform command => exact congrArg (command :: ·) ih
    | pull =>
      rw [pulls, List.count_cons_self]
      exact ih
    | finish => exact ih

end Use

open Wave Use

/-- A speaker in the middle of uses: it sounds what they have asked for, it is finished only if they
say so, and until then its mixer plays their chords. -/
structure Follows (rate : UInt32) (volume : Float32) (all done : List Use) (s : Speaker) :
    Prop where
  sounding : s.sounding = (commands done).foldl Soundings.perform {}
  finished : s.finished = true ↔ .finish ∈ done
  aligned : s.mixer.Aligned
  plays : .finish ∉ done → s.mixer.Plays (chords all) rate volume (pulls done)

variable {rate : UInt32} {volume : Float32} {all done : List Use} {s : Speaker}

theorem pull_of_finished (h : s.finished = true) : s.pull = (none, s) := if_pos h

theorem pull_of_live (h : ¬ s.finished = true) :
    s.pull = (some (s.mixer.ready s.sounding).mix,
      { s with mixer := (s.mixer.sample s.sounding).2 }) := if_neg h

/-- If the chord of the batch that is about to begin is what has been asked for, the mixer has it
for the next sample. -/
theorem Follows.inBatch (h : Follows rate volume all done s) (live : .finish ∉ done)
    (look : pulls done % 64 = 0 → chords all (pulls done / 64) = Command.chord (commands done)) :
    (s.mixer.ready s.sounding).InBatch (chords all) rate volume (pulls done) := by
  refine h.plays live s.sounding fun begins => ?_
  rw [look begins, h.sounding, Soundings.frequencies_foldl_perform]

theorem Follows.use (h : Follows rate volume all done s) (u : Use)
    (look : u = .pull → pulls done % 64 = 0 →
      chords all (pulls done / 64) = Command.chord (commands done)) :
    Follows rate volume all (done ++ [u]) (s.use u) := by
  have mem : Use.finish ∈ done ++ [u] ↔ .finish ∈ done ∨ u = .finish := by
    rw [List.mem_append, List.mem_singleton, eq_comm]
  cases u with
  | perform command =>
    constructor
    case sounding =>
      rw [commands_append, List.foldl_append, ← h.sounding]
      rfl
    case finished => exact h.finished.trans (by simp [mem])
    case aligned => exact h.aligned
    case plays =>
      intro live
      rw [pulls_append]
      exact h.plays fun hf => live (mem.mpr (.inl hf))
  | pull =>
    have sounding : s.sounding = (commands (done ++ [.pull])).foldl Soundings.perform {} := by
      rw [commands_append, List.foldl_append, ← h.sounding]
      rfl
    by_cases ended : s.finished = true
    · rw [Speaker.use, pull_of_finished ended]
      refine ⟨sounding, by simpa [mem] using h.finished, h.aligned, fun live => ?_⟩
      exact absurd (mem.mpr (.inl (h.finished.mp ended))) live
    · rw [Speaker.use, pull_of_live ended]
      refine ⟨sounding, by simpa [mem] using h.finished, h.aligned.sample _, fun live => ?_⟩
      rw [pulls_append]
      exact (h.inBatch (fun hf => live (mem.mpr (.inl hf))) (look rfl)).plays
  | finish =>
    constructor
    case sounding =>
      rw [commands_append, List.foldl_append, ← h.sounding]
      rfl
    case finished => simp [mem, Speaker.use, Speaker.finish]
    case aligned => exact h.aligned
    case plays => exact fun live => absurd (mem.mpr (.inr rfl)) live

theorem follows_fresh (rate : UInt32) (volume : Float32) (all : List Use) :
    Follows rate volume all [] (fresh rate volume) :=
  ⟨rfl, by simp [fresh], rfl, fun _ => Mixer.plays_fresh (chords all) rate volume⟩

/-- The chord of a batch is what the uses before its first sample have asked for. -/
theorem chords_before {rest : List Use} (split : all = done ++ rest)
    (begins : pulls done % 64 = 0) (next : before rest 0 = []) :
    chords all (pulls done / 64) = Command.chord (commands done) := by
  have hfirst : 64 * (pulls done / 64) = pulls done := by omega
  rw [chords, hfirst, split, before_append, next, List.append_nil]

theorem Follows.after {rest : List Use} (h : Follows rate volume all done s)
    (split : all = done ++ rest) : Follows rate volume all all (s.after rest) := by
  -- What is done grows by one use at a time; `all` stays, since the chords are those of all uses.
  induction rest generalizing done s with
  | nil =>
    rw [List.append_nil] at split
    exact split ▸ h
  | cons u rest ih =>
    have look : u = .pull → pulls done % 64 = 0 →
        chords all (pulls done / 64) = Command.chord (commands done) := by
      rintro rfl begins
      exact chords_before split begins rfl
    exact ih (h.use u look) (by rw [split, List.append_assoc]; rfl)

theorem follows_after (rate : UInt32) (volume : Float32) (uses : List Use) :
    Follows rate volume uses uses ((fresh rate volume).after uses) :=
  (follows_fresh rate volume uses).after rfl

/-- The next sample of a speaker that is not finished. -/
theorem Follows.pull (h : Follows rate volume all all s) (live : .finish ∉ all) :
    ∃ b, LastChange (chords all) (pulls all / 64) b ∧
      s.pull.1 = some (mixed volume rate (chords all (pulls all / 64)) (pulls all - 64 * b)) := by
  have ready := h.inBatch live fun begins => chords_before (List.append_nil all).symm begins rfl
  obtain ⟨b, change, hmix⟩ := ready.mix
  refine ⟨b, change, ?_⟩
  rw [pull_of_live (mt h.finished.mp live), hmix]

/-- However a speaker is used, there is a phase for each frequency, and no sample comes after its
end. Until then the next sample is the mixture of what sounded at the first sample of its batch. Its
waves all began with the last batch that had another chord than the batch before it, and nothing has
disturbed them since. -/
theorem samples_follow_table (rate : UInt32) (volume : Float32) (uses : List Use) :
    let s := (fresh rate volume).after uses
    let n := pulls uses
    s.mixer.phases.length = s.mixer.frequencies.length ∧
      (.finish ∈ uses → s.pull.1 = none) ∧
      (.finish ∉ uses → ∃ b, LastChange (chords uses) (n / 64) b ∧
        s.pull.1 = some (mixed volume rate (chords uses (n / 64)) (n - 64 * b))) := by
  intro s n
  have follows := follows_after rate volume uses
  refine ⟨follows.aligned, fun ended => ?_, follows.pull⟩
  rw [pull_of_finished (follows.finished.mpr ended)]

/-- Two waves that go on into the second batch, although one was asked for again meanwhile; then one
alone, which begins afresh in the third; and nothing after the end. -/
theorem samples_follow_table_through_changes :
    let on := [.perform (.emit ⟨1⟩ 1000), .perform (.emit ⟨0⟩ 500)] ++ List.replicate 30 .pull ++
      [.perform (.emit ⟨1⟩ 1000)] ++ List.replicate 70 .pull
    let changed := on ++ [.perform (.silence ⟨0⟩)] ++ List.replicate 30 .pull
    ((fresh 8000 1.0).after on).pull.1 = some (mixed 1.0 8000 [500, 1000] 100) ∧
      ((fresh 8000 1.0).after changed).pull.1 = some (mixed 1.0 8000 [1000] 2) ∧
      ((fresh 8000 1.0).after (changed ++ [.finish])).pull.1 = none := by
  intro on changed
  have counted : pulls on = 100 ∧ pulls changed = 130 := by decide +kernel
  have both : chords on 0 = [500, 1000] ∧ chords on 1 = [500, 1000] := by decide +kernel
  have alone : chords changed 1 = [500, 1000] ∧ chords changed 2 = [1000] := by decide +kernel
  obtain ⟨-, -, goesOn⟩ := samples_follow_table 8000 1.0 on
  obtain ⟨-, -, anew⟩ := samples_follow_table 8000 1.0 changed
  obtain ⟨-, ended, -⟩ := samples_follow_table 8000 1.0 (changed ++ [.finish])
  refine ⟨?_, ?_, ended (by simp)⟩
  · obtain ⟨b, change, sample⟩ := goesOn (by decide)
    rw [counted.1] at change sample
    have hb : b = 0 := by
      by_contra later
      have first : b = 1 := Nat.le_antisymm change.le (Nat.one_le_iff_ne_zero.mpr later)
      rw [first] at change
      exact change.changes.elim (by decide) fun ne => ne (both.2.trans both.1.symm)
    rw [sample, hb]
    exact congrArg (fun chord => some (mixed 1.0 8000 chord 100)) both.2
  · obtain ⟨b, change, sample⟩ := anew (by decide)
    rw [counted.2] at change sample
    have hb : b = 2 := by
      by_contra earlier
      have same := change.since 2 (Nat.lt_of_le_of_ne change.le earlier) (Nat.le_refl 2)
      exact absurd (alone.2.symm.trans (same.trans alone.1)) (by decide)
    rw [sample, hb]
    exact congrArg (fun chord => some (mixed 1.0 8000 chord 2)) alone.2

end Speaker

end Piezo
