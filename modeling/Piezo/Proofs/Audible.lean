import Piezo.Proofs.Score

/-!
Audible notes: what is heard of a tune is what was read from its text.

Reading keeps every pitch within the range or makes a rest of it, so a melody player with the same
settings leaves none of the notes out for its pitch.
-/

namespace Piezo

namespace Note

/-- A note that has both a pitch and a length. -/
def IsAudible (n : Note) : Prop := n.frequency ≠ 0 ∧ n.duration ≠ 0

instance (n : Note) : Decidable n.IsAudible := inferInstanceAs (Decidable (_ ∧ _))

/-- A rest, or a pitch that the range allows. -/
def InRange (range : FrequencyRange) (n : Note) : Prop :=
  n.frequency = 0 ∨ range.contains n.frequency = true

/-- The frequencies that sound when notes are played a number of times over. -/
def audible (notes : List Note) (repeats : UInt8) : List UInt32 :=
  (List.replicate (max repeats.toNat 1)
    ((notes.filter (·.IsAudible)).map (·.frequency))).flatten

variable {range : FrequencyRange} {n : Note}

theorem frequencies_commands (h : n.InRange range) (channel : Channel) :
    (n.commands range channel).filterMap Command.frequency? =
      if n.IsAudible then [n.frequency] else [] := by
  by_cases hd : n.duration = 0
  · simp [commands, IsAudible, hd, Command.frequency?]
  · by_cases hf : n.frequency = 0
    · simp [commands, IsAudible, hd, hf, Command.frequency?]
    · have hr : range.contains n.frequency = true := h.resolve_left hf
      simp [commands, IsAudible, hd, hf, hr, Command.frequency?]

theorem frequencies_pass {notes : List Note} (h : ∀ n ∈ notes, n.InRange range)
    (channel : Channel) :
    (notes.flatMap (commands range channel)).filterMap Command.frequency? =
      (notes.filter (·.IsAudible)).map (·.frequency) := by
  induction notes with
  | nil => rfl
  | cons n rest ih =>
    rw [List.flatMap_cons, List.filterMap_append, frequencies_commands (h n List.mem_cons_self),
      ih fun m hm => h m (List.mem_cons_of_mem _ hm), List.filter_cons]
    by_cases ha : n.IsAudible <;> simp [ha]

/-- A note in range is held or refused for its length, never for its pitch. -/
theorem playNote_of_inRange {p : TonePlayer} (h : n.InRange p.settings.range) (leases : Leases)
    (now : UInt32) (f low high : UInt32) :
    p.playNote leases now n.frequency n.duration.toUInt32 ≠
      .error (.frequencyOutOfRange f low high) := by
  unfold TonePlayer.playNote
  rw [Hold.check_eq]
  have hf : ¬ (n.frequency ≠ 0 ∧ ¬ p.settings.range.contains n.frequency = true) := by
    rintro ⟨hf, hr⟩
    exact h.elim hf hr
  rw [if_neg hf]
  split <;> simp [bind, Except.bind, pure, Except.pure]

end Note

/-- The frequencies in a score are those of the audible notes, pass after pass. -/
theorem Melody.frequencies_score {m : Melody} {range : FrequencyRange}
    (h : ∀ n ∈ m.notes.toList, n.InRange range) (channel : Channel) (repeats : UInt8) :
    (m.score range channel repeats).filterMap Command.frequency? =
      Note.audible m.notes.toList repeats := by
  unfold Melody.score Note.audible
  rw [List.filterMap_append, List.filterMap_flatten, List.map_replicate,
    Note.frequencies_pass h channel]
  simp [Command.frequency?]

/-- A pitch is a rest or in range, whatever the letter and the octave. -/
theorem Pitch.frequency_inRange (range : FrequencyRange) (letter : UInt8) (sharp : Bool)
    (octave : UInt8) :
    Pitch.frequency range letter sharp octave = 0 ∨
      range.contains (Pitch.frequency range letter sharp octave) = true := by
  unfold Pitch.frequency
  split
  · exact .inl rfl
  · dsimp only
    split
    · next h => exact .inr h.2
    · exact .inl rfl

namespace Tune

variable {settings : Settings} {source : Source} {tune : Tune}

/-- Every note that is read comes from a token, under the header that is read with it. -/
theorem mem_notes_of_read (h : Tune.read settings source = .ok tune) {n : Note}
    (hn : n ∈ tune.notes) : ∃ token : Token, n = token.note settings.range tune.header := by
  unfold Tune.read at h
  cases hp : parts (source.copy settings.limits.bytes).bytes with
  | error error => simp [hp, Except.map] at h
  | ok parts =>
    simp only [hp, Except.map, Except.ok.injEq] at h
    subst h
    obtain ⟨token, -, rfl⟩ := List.mem_map.mp hn
    exact ⟨token, rfl⟩

theorem inRange_of_read (h : Tune.read settings source = .ok tune) :
    ∀ n ∈ tune.notes, n.InRange settings.range := by
  intro n hn
  obtain ⟨token, rfl⟩ := mem_notes_of_read h hn
  exact Pitch.frequency_inRange ..

end Tune

namespace MelodyPlayer

variable {p : MelodyPlayer} {leases : Leases} {source : Tune.Source} {tune : Tune}

/-- A melody with notes is let in on a free channel, and is held from its first note. -/
theorem start_on_free (p : MelodyPlayer) (free : leases.isLeased p.channel = false) {m : Melody}
    (hm : m.size ≠ 0) (now : UInt32) (repeats : UInt8) :
    (p.start leases now m repeats).verdict = .ok () ∧
      (p.start leases now m repeats).player.playback.map (·.melody) = some m := by
  have hcheck : m.check = .ok () := if_neg hm
  unfold start
  obtain ⟨error, he, _⟩ | ⟨_, error, he, _⟩ | ⟨_, lease, t, _, ha⟩ :=
    Attempt.start_cases p .melody p.channel p.lease leases m.check (p.enter now m repeats)
  · simp [hcheck] at he
  · cases hl : p.lease with
    | some lease => simp [Leases.secure, hl] at he
    | none =>
      have hc : p.channel ∉ leases.channels := by simpa [Leases.isLeased] using free
      simp [Leases.secure, hl, Leases.acquire, hc] at he
  · obtain ⟨n, notices, _, he⟩ := enter_spec t now p hm repeats lease
    rw [ha, he]
    refine ⟨rfl, ?_⟩
    simp only [(play_frame t now _ n).1, Option.map_some]

/-- A tune that can be read is started as the melody of its notes. -/
theorem startTune_of_read (read : Tune.read p.settings source = .ok tune) (leases : Leases)
    (now : UInt32) (repeats : UInt8) :
    ∃ notices, p.startTune leases now source repeats =
      { p.start leases now tune.melody repeats with notices } := by
  unfold startTune
  rw [read]
  exact ⟨_, rfl⟩

/-- A tune that can be read and has notes is let in on any free channel. The player then has a copy
of its own of exactly those notes, and when it has been ticked to its end it has sounded the audible
ones, in their order, once for each pass. No note is refused for its pitch. -/
theorem plays_what_is_read (p : MelodyPlayer) (leases : Leases) (now : UInt32)
    (source : Tune.Source) (repeats : UInt8) (tune : Tune)
    (read : Tune.read p.settings source = .ok tune) (some_notes : tune.notes ≠ [])
    (free : leases.isLeased p.channel = false) :
    let started := p.startTune leases now source repeats
    started.verdict = .ok () ∧
      started.player.playback.map (·.melody) = some ⟨tune.notes.toArray, .owned⟩ ∧
      (∀ schedule,
        let run := runTicks tick started.player schedule
        run.1.isActive = false →
          (started.commands ++ run.2).filterMap Command.frequency? =
            Note.audible tune.notes repeats) ∧
      (∃ schedule, (runTicks tick started.player schedule).1.isActive = false) ∧
      ∀ n ∈ tune.notes, ∀ q : TonePlayer, q.settings = p.settings →
        ∀ t at_ f low high, q.playNote t at_ n.frequency n.duration.toUInt32 ≠
          .error (.frequencyOutOfRange f low high) := by
  intro started
  have hrange := Tune.inRange_of_read read
  have hsize : tune.melody.size ≠ 0 := by simpa [Tune.melody, Melody.size] using some_notes
  obtain ⟨notices, hstarted⟩ := startTune_of_read read leases now repeats
  obtain ⟨accepted, hmelody⟩ := start_on_free p free hsize now repeats
  obtain ⟨hin, hstart⟩ := start_pays leases now accepted
  have hs : started = { p.start leases now tune.melody repeats with notices } := hstarted
  rw [hs]
  refine ⟨accepted, hmelody, ?_, exists_run_to_idle hin, ?_⟩
  · intro schedule run idle
    obtain ⟨-, howed⟩ := runTicks_owed (fun q t r h => tick_inStep t r h)
      (fun q t r h => tick_pays t r h) hin schedule
    have hall : run.2 = (p.start leases now tune.melody repeats).player.owed := by
      rw [← howed, (owed_eq_nil_iff _).mpr idle, List.append_nil]
    rw [hall, hstart]
    exact Melody.frequencies_score hrange p.channel repeats
  · intro n hn q hq t at_ f low high
    exact Note.playNote_of_inRange (hq ▸ hrange n hn) t at_ f low high

/-- A rest, a piece that is no note and a pitch out of range sound nothing, in either pass. -/
theorem plays_what_is_read_with_rests :
    let p : MelodyPlayer := { tone := { channel := ⟨2⟩, settings := { range := ⟨300, 1000⟩ } } }
    let tune : Tune := ⟨"x", ⟨4, 5, 120⟩, [⟨524, 500⟩, ⟨0, 250⟩, ⟨0, 1000⟩], false⟩
    let started := p.startTune {} 0xFFFFFF00 (.ram "x:o=5:c,8p,9,2e6") 2
    let run := runTicks tick started.player
      ([600, 700, 1900, 2100, 3000, 4000, 5000, 6100].map fun now => ⟨{}, now⟩)
    Tune.read p.settings (.ram "x:o=5:c,8p,9,2e6") = .ok tune ∧ run.1.isActive = false ∧
      (started.commands ++ run.2).filterMap Command.frequency? = [524, 524] := by
  intro p tune started run
  have read : Tune.read { range := ⟨300, 1000⟩ } (.ram "x:o=5:c,8p,9,2e6") =
      .ok ⟨"x", ⟨4, 5, 120⟩, [⟨524, 500⟩, ⟨0, 250⟩, ⟨0, 1000⟩], false⟩ := rfl
  obtain ⟨notices, h⟩ := startTune_of_read (p := p) read {} 0xFFFFFF00 2
  have player : started.player = (p.start {} 0xFFFFFF00 tune.melody 2).player :=
    congrArg (·.player) h
  have idle : run.1.isActive = false := by
    change (runTicks tick started.player _).1.isActive = false
    rw [player]
    decide
  refine ⟨read, idle, ?_⟩
  rw [(plays_what_is_read p {} 0xFFFFFF00 _ 2 tune read (by simp [tune]) rfl).2.2.1 _ idle]
  decide

end MelodyPlayer

end Piezo
