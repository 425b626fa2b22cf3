import Mathlib.Algebra.GroupWithZero.Nat
import Piezo.Wave.Render

/-!
Rendering as a law of single samples. A sample obeys the last event that is not later than its own
millisecond, and its phase is as old as the first sample of that event. So time and commands that
come later add samples at the end and change none that were there.
-/

namespace Piezo

/-- What may happen to a recording that goes on. -/
inductive Happening where
  | advance (ms : UInt32)
  | perform (command : Command)
deriving DecidableEq, Repr

namespace Happening

def apply (r : Recording) : Happening → Recording
  | .advance ms => r.advance ms
  | .perform command => r.perform command

/-- The milliseconds that go by. -/
def time : Happening → Nat
  | .advance ms => ms.toNat
  | .perform _ => 0

/-- The milliseconds that go by in all. -/
def passed (later : List Happening) : Nat := (later.map time).sum

end Happening

/-- A recording after all that happens to it. -/
def Recording.after (r : Recording) (later : List Happening) : Recording :=
  later.foldl Happening.apply r

namespace Wave

/-- The phase of a wave some samples after it began. Each sample is a part of a period, and whole
periods are left out. -/
def phaseAfter (frequency rate : UInt32) : Nat → Float
  | 0 => 0.0
  | n + 1 =>
    let moved := phaseAfter frequency rate n + frequency.toFloat / rate.toFloat
    moved - moved.floor

theorem nextPhase_phaseAfter (frequency rate : UInt32) (n : Nat) :
    nextPhase (phaseAfter frequency rate n) frequency rate = phaseAfter frequency rate (n + 1) :=
  rfl

/-- What a channel's events ask for, each with the milliseconds since the first one. -/
def log (r : Recording) (channel : Channel) : List (Nat × Option UInt32) :=
  match channelEvents r channel with
  | [] => []
  | first :: rest =>
    (first :: rest).map fun e => ((Clock.elapsed e.time first.time).toNat, e.frequency?)

/-- The milliseconds from a channel's first event to the clock. -/
def span (r : Recording) (channel : Channel) : Nat :=
  match channelEvents r channel with
  | [] => 0
  | first :: _ => (Clock.elapsed r.now first.time).toNat

section Log

variable {r : Recording} {c : Channel}

theorem channelEvents_perform (r : Recording) (command : Command) (c : Channel) :
    channelEvents (r.perform command) c =
      if command.channel = c then channelEvents r c ++ [⟨r.now, command⟩]
      else channelEvents r c := by
  unfold channelEvents Recording.perform
  rw [Array.toList_push, List.filter_append]
  by_cases hc : command.channel = c <;> simp [Event.channel, hc]

/-- Rendering a channel takes its events and the clock, and nothing else. -/
theorem render_congr {r r' : Recording} {c : Channel} (now : r'.now = r.now)
    (events : channelEvents r' c = channelEvents r c) (rate : UInt32) (amplitude : Float32) :
    render r' c rate amplitude = render r c rate amplitude := by
  unfold render
  rw [now, events]

theorem render_eq (r : Recording) (c : Channel) (rate : UInt32) (amplitude : Float32) :
    render r c rate amplitude =
      samplesFrom rate amplitude (sampleCount rate (span r c)) 0 { pending := log r c } #[] := by
  unfold render log span
  cases channelEvents r c with
  | nil => simp [sampleCount, samplesFrom]
  | cons first rest => rfl

theorem log_head (h : log r c ≠ []) : ∃ asked rest, log r c = (0, asked) :: rest := by
  unfold log at h ⊢
  cases he : channelEvents r c with
  | nil => simp [he] at h
  | cons first rest =>
    simp only [List.map_cons, Clock.elapsed, UInt32.sub_self]
    exact ⟨_, _, rfl⟩

theorem span_of_log_nil (h : log r c = []) : span r c = 0 := by
  unfold log at h
  unfold span
  cases he : channelEvents r c with
  | nil => rfl
  | cons first rest => simp [he] at h

theorem log_advance (r : Recording) (c : Channel) (ms : UInt32) :
    log (r.advance ms) c = log r c := rfl

theorem span_advance {ms : UInt32} (h : span r c + ms.toNat < UInt32.size) :
    span (r.advance ms) c ≤ span r c + ms.toNat ∧ span r c ≤ span (r.advance ms) c := by
  have same : channelEvents (r.advance ms) c = channelEvents r c := rfl
  unfold span at h ⊢
  rw [same]
  cases he : channelEvents r c with
  | nil => simp
  | cons first rest =>
    simp only [he, Clock.elapsed, UInt32.toNat_sub, UInt32.size] at h ⊢
    simp only [Recording.advance, UInt32.toNat_add]
    have := first.time.toNat_lt
    have := r.now.toNat_lt
    omega

/-- A command on the channel is the last of the log, at the time of the clock. -/
theorem log_perform (r : Recording) {command : Command} (h : command.channel = c) :
    log (r.perform command) c = log r c ++ [(span r c, command.frequency?)] := by
  unfold log span
  rw [channelEvents_perform, if_pos h]
  cases channelEvents r c with
  | nil => simp [Clock.elapsed, Event.frequency?]
  | cons first rest => simp [Event.frequency?]

theorem log_perform_of_ne (r : Recording) {command : Command} (h : command.channel ≠ c) :
    log (r.perform command) c = log r c := by
  unfold log
  rw [channelEvents_perform, if_neg h]

theorem span_perform (r : Recording) (command : Command) (c : Channel) :
    span (r.perform command) c = span r c := by
  unfold span
  rw [channelEvents_perform]
  cases channelEvents r c <;> by_cases h : command.channel = c <;>
    simp [h, Clock.elapsed, Recording.perform]

end Log

/-- The events of a channel are in the order of time, and none is later than the clock. -/
structure InTime (r : Recording) (channel : Channel) : Prop where
  ordered : (log r channel).Pairwise (·.1 ≤ ·.1)
  past : ∀ e ∈ log r channel, e.1 ≤ span r channel

section Later

variable {r r' : Recording} {c : Channel}

/-- A later recording has the same events and perhaps more, none of them earlier than the clock
was. -/
structure Extends (r r' : Recording) (c : Channel) : Prop where
  log : ∃ more, Wave.log r' c = Wave.log r c ++ more ∧ ∀ e ∈ more, span r c ≤ e.1
  span : span r c ≤ Wave.span r' c

theorem Extends.refl (r : Recording) (c : Channel) : Extends r r c := ⟨⟨[], by simp⟩, Nat.le_refl _⟩

theorem Extends.trans {r'' : Recording} (h : Extends r r' c) (k : Extends r' r'' c) :
    Extends r r'' c := by
  obtain ⟨more, hl, hm⟩ := h.log
  obtain ⟨further, kl, km⟩ := k.log
  refine ⟨⟨more ++ further, by rw [kl, hl, List.append_assoc], fun e he => ?_⟩,
    Nat.le_trans h.span k.span⟩
  rcases List.mem_append.mp he with he | he
  · exact hm e he
  · exact Nat.le_trans h.span (km e he)

theorem apply_inTime (h : InTime r c) (happening : Happening)
    (room : span r c + happening.time < UInt32.size) :
    InTime (happening.apply r) c ∧ Extends r (happening.apply r) c ∧
      span (happening.apply r) c ≤ span r c + happening.time := by
  cases happening with
  | advance ms =>
    obtain ⟨upper, lower⟩ := span_advance room
    exact ⟨⟨h.ordered, fun e he => Nat.le_trans (h.past e he) lower⟩,
      ⟨⟨[], by simp [Happening.apply, log_advance]⟩, lower⟩, upper⟩
  | perform command =>
    have hspan := span_perform r command c
    simp only [Happening.apply, Happening.time, Nat.add_zero, hspan]
    refine ⟨?_, ?_, Nat.le_refl _⟩
    all_goals by_cases hc : command.channel = c
    · constructor
      case ordered =>
        rw [log_perform r hc, List.pairwise_append]
        exact ⟨h.ordered, by simp, by simpa using h.past⟩
      case past =>
        rw [log_perform r hc, hspan]
        intro e he
        rcases List.mem_append.mp he with he | he
        · exact h.past e he
        · cases List.mem_singleton.mp he
          exact Nat.le_refl _
    · have same := log_perform_of_ne r hc
      exact ⟨by rw [same]; exact h.ordered, by rw [same, hspan]; exact h.past⟩
    · exact ⟨⟨_, log_perform r hc, by simp⟩, Nat.le_of_eq hspan.symm⟩
    · exact ⟨⟨[], by simp [log_perform_of_ne r hc]⟩, Nat.le_of_eq hspan.symm⟩

/-- As long as the clock does not come round, a recording stays in time and only grows. -/
theorem after_inTime (h : InTime r c) (later : List Happening)
    (room : span r c + Happening.passed later < UInt32.size) :
    InTime (r.after later) c ∧ Extends r (r.after later) c := by
  induction later generalizing r with
  | nil => exact ⟨h, .refl r c⟩
  | cons happening rest ih =>
    simp only [Happening.passed, List.map_cons, List.sum_cons] at room ih
    obtain ⟨inTime, grown, upper⟩ := apply_inTime h happening (by omega)
    obtain ⟨last, further⟩ := ih inTime (by omega)
    exact ⟨last, grown.trans further⟩

end Later

section Samples

variable {rate : UInt32} {events : List (Nat × Option UInt32)} {i : Nat} {v : Voice}

/-- The first sample in which an event at an offset is heard. -/
def onset (rate : UInt32) (offset : Nat) : Nat := (offset * rate.toNat + 999) / 1000

theorem onset_le_iff (hr : 0 < rate.toNat) (offset i : Nat) :
    onset rate offset ≤ i ↔ offset ≤ sampleTime rate i := by
  rw [sampleTime, Nat.le_div_iff_mul_le hr, onset]
  omega

theorem onset_mono {a b : Nat} (h : a ≤ b) : onset rate a ≤ onset rate b := by
  have := Nat.mul_le_mul_right rate.toNat h
  unfold onset
  omega

/-- What is heard of a channel in a sample. -/
def sampleAt (events : List (Nat × Option UInt32)) (rate : UInt32) (amplitude : Float32) (i : Nat) :
    Float32 :=
  match (events.filter (·.1 ≤ sampleTime rate i)).getLast? with
  | some (offset, some frequency) =>
    level (phaseAfter frequency rate (i - onset rate offset)) amplitude
  | _ => 0.0

/-- A voice sounds as the last event that it has heard asks, with the age of that. -/
def Obeys (rate : UInt32) (i : Nat) (last : Option (Nat × Option UInt32)) (v : Voice) : Prop :=
  v.frequency = last.bind Prod.snd ∧
    ∀ offset frequency, last = some (offset, some frequency) →
      v.phase = phaseAfter frequency rate (i - onset rate offset)

/-- Before a sample, a voice has heard what earlier samples hear, and has the rest before it. -/
def Ready (events : List (Nat × Option UInt32)) (rate : UInt32) (i : Nat) (v : Voice) : Prop :=
  ∃ past, events = past ++ v.pending ∧ (∀ e ∈ past, onset rate e.1 < i) ∧
    (∀ e ∈ v.pending, i ≤ onset rate e.1) ∧ Obeys rate i past.getLast? v

/-- In a sample, a voice has heard all that this sample hears. -/
def Sounds (events : List (Nat × Option UInt32)) (rate : UInt32) (i : Nat) (v : Voice) : Prop :=
  ∃ past, events = past ++ v.pending ∧ (∀ e ∈ past, onset rate e.1 ≤ i) ∧
    (∀ e ∈ v.pending, i < onset rate e.1) ∧ Obeys rate i past.getLast? v

/-- A voice hears the events that lead up to a time; the last of them counts. -/
theorem catchUp_spec (ms : Nat) (pending : List (Nat × Option UInt32)) (frequency : Option UInt32)
    (phase : Float) :
    ∃ heard rest, pending = heard ++ rest ∧ (∀ e ∈ heard, e.1 ≤ ms) ∧
      (∀ e ∈ rest.head?, ms < e.1) ∧
      (heard = [] ∧ Voice.catchUp ms pending frequency phase = ⟨rest, frequency, phase⟩ ∨
        ∃ e, heard.getLast? = some e ∧
          Voice.catchUp ms pending frequency phase = ⟨rest, e.2, 0.0⟩) := by
  induction pending generalizing frequency phase with
  | nil => exact ⟨[], [], rfl, by simp, by simp, .inl ⟨rfl, rfl⟩⟩
  | cons e pending ih =>
    obtain ⟨offset, asked⟩ := e
    unfold Voice.catchUp
    split
    · next hle =>
      obtain ⟨heard, rest, hp, hh, hr, hv⟩ := ih asked 0.0
      refine ⟨(offset, asked) :: heard, rest, by rw [hp]; rfl, ?_, hr, .inr ?_⟩
      · exact List.forall_mem_cons.mpr ⟨hle, hh⟩
      · obtain ⟨rfl, hv⟩ | ⟨e, he, hv⟩ := hv
        · exact ⟨_, rfl, hv⟩
        · exact ⟨e, by simp [List.getLast?_cons, he], hv⟩
    · next hlt =>
      exact ⟨[], _, rfl, by simp, by simpa using hlt, .inl ⟨rfl, rfl⟩⟩

theorem ready_atTime (hr : 0 < rate.toNat) (sorted : events.Pairwise (·.1 ≤ ·.1))
    (h : Ready events rate i v) : Sounds events rate i (v.atTime (sampleTime rate i)) := by
  obtain ⟨past, hevents, hpast, hpending, hobeys⟩ := h
  obtain ⟨heard, rest, hp, hh, hrest, hv⟩ :=
    catchUp_spec (sampleTime rate i) v.pending v.frequency v.phase
  have later : ∀ e ∈ rest, i < onset rate e.1 := by
    rw [hevents, hp] at sorted
    have sortedRest := (List.pairwise_append.mp (List.pairwise_append.mp sorted).2.1).2.1
    cases rest with
    | nil => simp
    | cons first rest =>
      have hfirst : i < onset rate first.1 := by
        rw [← Nat.not_le, onset_le_iff hr]
        exact Nat.not_le.mpr (hrest first rfl)
      rw [List.pairwise_cons] at sortedRest
      refine List.forall_mem_cons.mpr ⟨hfirst, fun e he => ?_⟩
      exact Nat.lt_of_lt_of_le hfirst (onset_mono (sortedRest.1 e he))
  have earlier : ∀ e ∈ past ++ heard, onset rate e.1 ≤ i := by
    intro e he
    rcases List.mem_append.mp he with he | he
    · exact Nat.le_of_lt (hpast e he)
    · exact (onset_le_iff hr _ _).mpr (hh e he)
  unfold Voice.atTime
  obtain ⟨rfl, hv⟩ | ⟨e, he, hv⟩ := hv
  · rw [hv]
    exact ⟨past, by rw [hevents, hp]; rfl, by simpa using earlier, later, hobeys⟩
  · rw [hv]
    refine ⟨past ++ heard, by rw [hevents, hp, List.append_assoc], earlier, later, ?_⟩
    have hlast : (past ++ heard).getLast? = some e := by simp [List.getLast?_append, he]
    rw [hlast]
    refine ⟨rfl, fun offset frequency heq => ?_⟩
    cases heq
    -- The event was not heard before, so this sample is its first.
    have hmem : (offset, some frequency) ∈ heard := List.mem_of_getLast? he
    have hfirst : i ≤ onset rate offset :=
      hpending (offset, some frequency) (by rw [hp]; exact List.mem_append_left _ hmem)
    rw [Nat.sub_eq_zero_of_le hfirst]
    rfl

theorem sounds_next (h : Sounds events rate i v) : Ready events rate (i + 1) (v.next rate) := by
  obtain ⟨past, hevents, hpast, hpending, frequency, phase⟩ := h
  have passed : ∀ e ∈ past, onset rate e.1 < i + 1 := fun e he => Nat.lt_succ_of_le (hpast e he)
  unfold Voice.next
  split
  · next asked hasked =>
    refine ⟨past, hevents, passed, hpending, frequency, fun offset frequency' hlast => ?_⟩
    rw [frequency, hlast] at hasked
    cases hasked
    have hle : onset rate offset ≤ i := hpast (offset, some asked) (List.mem_of_getLast? hlast)
    rw [phase offset asked hlast, Nat.succ_sub hle]
    exact nextPhase_phaseAfter ..
  · next hasked =>
    refine ⟨past, hevents, passed, hpending, frequency, fun offset frequency' hlast => ?_⟩
    rw [frequency, hlast] at hasked
    cases hasked

theorem sounds_sample (hr : 0 < rate.toNat) (h : Sounds events rate i v) (amplitude : Float32) :
    v.sample amplitude = sampleAt events rate amplitude i := by
  obtain ⟨past, hevents, hpast, hpending, frequency, phase⟩ := h
  have heard : events.filter (·.1 ≤ sampleTime rate i) = past := by
    have hkept : ∀ e ∈ past, e.1 ≤ sampleTime rate i := fun e he =>
      (onset_le_iff hr _ _).mp (hpast e he)
    have hleft : ∀ e ∈ v.pending, ¬ e.1 ≤ sampleTime rate i := fun e he hle =>
      absurd ((onset_le_iff hr _ _).mpr hle) (Nat.not_le.mpr (hpending e he))
    rw [hevents, List.filter_append, List.filter_eq_self.mpr (by simpa using hkept),
      List.filter_eq_nil_iff.mpr (by simpa using hleft), List.append_nil]
  unfold Voice.sample sampleAt
  rw [heard, frequency]
  cases hlast : past.getLast? with
  | none => rfl
  | some e =>
    obtain ⟨offset, asked⟩ := e
    cases asked with
    | none => rfl
    | some frequency => simp [phase offset frequency hlast]

theorem samplesFrom_eq (hr : 0 < rate.toNat) (sorted : events.Pairwise (·.1 ≤ ·.1))
    (amplitude : Float32) (count : Nat) (h : Ready events rate i v) (done : Array Float32) :
    (samplesFrom rate amplitude count i v done).toList =
      done.toList ++ (List.range' i count).map (sampleAt events rate amplitude) := by
  induction count generalizing i v done with
  | zero => simp [samplesFrom]
  | succ count ih =>
    have sounds := ready_atTime hr sorted h
    rw [samplesFrom, ih (sounds_next sounds), sounds_sample hr sounds, List.range'_succ]
    simp

/-- A new voice has heard nothing. -/
theorem ready_new (events : List (Nat × Option UInt32)) (rate : UInt32) :
    Ready events rate 0 { pending := events } :=
  ⟨[], rfl, by simp, fun _ _ => Nat.zero_le _, rfl, by simp⟩

theorem render_toList {r : Recording} {c : Channel} (h : InTime r c) (rate : UInt32)
    (amplitude : Float32) :
    (render r c rate amplitude).toList =
      (List.range (sampleCount rate (span r c))).map (sampleAt (log r c) rate amplitude) := by
  rw [render_eq]
  by_cases hr : rate.toNat = 0
  · simp [sampleCount, hr, samplesFrom]
  · rw [samplesFrom_eq (Nat.pos_of_ne_zero hr) h.ordered amplitude _ (ready_new ..),
      ← List.range_eq_range']
    simp

theorem mul_thousand_lt {ms : Nat} (h : i < sampleCount rate ms) :
    i * 1000 < ms * rate.toNat := by
  have : (i + 1) * 1000 ≤ ms * rate.toNat :=
    (Nat.le_div_iff_mul_le (by decide)).mp (Nat.succ_le_of_lt h)
  omega

/-- There are no samples at rate zero. -/
theorem rate_pos {ms : Nat} (h : i < sampleCount rate ms) : 0 < rate.toNat :=
  Nat.pos_of_mul_pos_left (Nat.zero_lt_of_lt (mul_thousand_lt h))

/-- Samples lie before the clock. -/
theorem sampleTime_lt {ms : Nat} (h : i < sampleCount rate ms) : sampleTime rate i < ms :=
  (Nat.div_lt_iff_lt_mul (rate_pos h)).mpr (mul_thousand_lt h)

/-- What comes later is not heard in the samples that were there. -/
theorem sampleAt_extends {r r' : Recording} {c : Channel} (h : Extends r r' c)
    (hi : i < sampleCount rate (span r c)) (amplitude : Float32) :
    sampleAt (log r' c) rate amplitude i = sampleAt (log r c) rate amplitude i := by
  obtain ⟨more, hlog, hmore⟩ := h.log
  have unheard : more.filter (·.1 ≤ sampleTime rate i) = [] := by
    rw [List.filter_eq_nil_iff]
    intro e he
    have := hmore e he
    have := sampleTime_lt hi
    simp only [decide_eq_true_eq]
    omega
  unfold sampleAt
  rw [hlog, List.filter_append, unheard, List.append_nil]

theorem render_extends {r r' : Recording} {c : Channel} (hr : InTime r c) (hr' : InTime r' c)
    (h : Extends r r' c) (rate : UInt32) (amplitude : Float32) :
    (render r c rate amplitude).toList <+: (render r' c rate amplitude).toList := by
  have fewer : sampleCount rate (span r c) ≤ sampleCount rate (span r' c) :=
    Nat.div_le_div_right (Nat.mul_le_mul_right _ h.span)
  have same : (List.range (sampleCount rate (span r c))).map (sampleAt (log r c) rate amplitude) =
      (List.range (sampleCount rate (span r c))).map (sampleAt (log r' c) rate amplitude) :=
    List.map_congr_left fun i hi => (sampleAt_extends h (List.mem_range.mp hi) amplitude).symm
  rw [render_toList hr, render_toList hr', same]
  refine List.IsPrefix.map _ ?_
  rw [← Nat.min_eq_left fewer, ← List.take_range]
  exact List.take_prefix ..

/-- Some event governs each sample, the first one if no other does. -/
theorem governed {r : Recording} {c : Channel} (h : i < sampleCount rate (span r c)) :
    ∃ e, ((log r c).filter (·.1 ≤ sampleTime rate i)).getLast? = some e := by
  have hne : log r c ≠ [] := fun h0 => by simp [span_of_log_nil h0, sampleCount] at h
  obtain ⟨asked, rest, hlog⟩ := log_head hne
  rw [← Option.isSome_iff_exists, List.getLast?_isSome, hlog]
  simp

end Samples

/-- A rendering has a sample for each whole period of the time since the channel's first event. Each
sample obeys the last event that is not later than the millisecond in which it lies. After a silence
it is zero; after a tone it is the wave's high or low level, by a phase that was zero in the first
sample not earlier than that event, and that has gone on from sample to sample since. Commands and
time that come later change no sample that was there, and events on other channels change none at
all. -/
theorem render_follows_events (r : Recording) (c : Channel) (rate : UInt32) (amplitude : Float32)
    (inTime : InTime r c) :
    let samples := render r c rate amplitude
    samples.size = span r c * rate.toNat / 1000 ∧
      (∀ i < samples.size, ∃ offset asked first,
        ((log r c).filter (·.1 ≤ i * 1000 / rate.toNat)).getLast? = some (offset, asked) ∧
        offset ≤ first * 1000 / rate.toNat ∧ (∀ j < first, j * 1000 / rate.toNat < offset) ∧
        samples[i]? = some (match asked with
          | some frequency =>
            if phaseAfter frequency rate (i - first) < 0.5 then amplitude else -amplitude
          | none => 0.0)) ∧
      (∀ later, span r c + Happening.passed later < UInt32.size →
        InTime (r.after later) c ∧
          samples.toList <+: (render (r.after later) c rate amplitude).toList) ∧
      ∀ r' : Recording, r'.now = r.now → channelEvents r' c = channelEvents r c →
        render r' c rate amplitude = samples := by
  intro samples
  have hlist := render_toList inTime rate amplitude
  have hsize : samples.size = sampleCount rate (span r c) := by
    rw [← Array.length_toList, hlist, List.length_map, List.length_range]
  refine ⟨hsize, fun i hi => ?_, fun later room => ?_, fun r' now events => ?_⟩
  · rw [hsize] at hi
    have hr : 0 < rate.toNat := Nat.pos_of_ne_zero fun h0 => by simp [sampleCount, h0] at hi
    obtain ⟨⟨offset, asked⟩, hlast⟩ := governed hi
    refine ⟨offset, asked, onset rate offset, hlast, (onset_le_iff hr _ _).mp (Nat.le_refl _),
      fun j hj => ?_, ?_⟩
    · rw [← Nat.not_le]
      exact fun hle => absurd ((onset_le_iff hr offset j).mpr hle) (Nat.not_le.mpr hj)
    · have hget : samples[i]? = some (sampleAt (log r c) rate amplitude i) := by
        rw [← Array.getElem?_toList, hlist, List.getElem?_map, List.getElem?_range hi]
        rfl
      rw [hget]
      simp only [sampleAt, hlast]
      cases asked with
      | none => rfl
      | some frequency => simp [level, isHigh]
  · obtain ⟨inTime', grown⟩ := after_inTime inTime later room
    exact ⟨inTime', render_extends inTime inTime' grown rate amplitude⟩
  · exact render_congr now events rate amplitude

/-- Two commands in one millisecond on a channel whose clock wraps, with another channel in between;
then more commands and more time. -/
theorem render_follows_events_over_wrap :
    let r := ({ now := 0xFFFFFFF8 } : Recording).after
      [.perform (.emit ⟨0⟩ 440), .advance 10, .perform (.silence ⟨0⟩), .perform (.emit ⟨1⟩ 500),
        .perform (.emit ⟨0⟩ 880), .advance 20, .perform (.silence ⟨0⟩)]
    let later : List Happening := [.perform (.emit ⟨0⟩ 100), .advance 4294967265]
    InTime r ⟨0⟩ ∧ (render r ⟨0⟩ 8000 0.5).size = 240 ∧
      (render r ⟨0⟩ 8000 0.5)[100]? =
        some (if phaseAfter 880 8000 20 < 0.5 then (0.5 : Float32) else -0.5) ∧
      (render r ⟨0⟩ 8000 0.5).toList <+: (render (r.after later) ⟨0⟩ 8000 0.5).toList := by
  intro r later
  have inTime : InTime r ⟨0⟩ := ⟨by decide, by decide⟩
  obtain ⟨size, sample, more, -⟩ := render_follows_events r ⟨0⟩ 8000 0.5 inTime
  have hsize : (render r ⟨0⟩ 8000 0.5).size = 240 := by
    rw [size]
    decide
  obtain ⟨offset, asked, first, hlast, hle, hlt, hs⟩ := sample 100 (by rw [hsize]; decide)
  have governing : ((log r ⟨0⟩).filter (·.1 ≤ 100 * 1000 / (8000 : UInt32).toNat)).getLast? =
      some (10, some 880) := by decide
  cases governing.symm.trans hlast
  have hfirst : first = 80 := by
    have hr : (8000 : UInt32).toNat = 8000 := rfl
    rw [hr] at hle hlt
    have := hlt 80
    omega
  rw [hfirst] at hs
  exact ⟨inTime, hsize, hs, (more later (by decide)).2⟩

end Wave

end Piezo
