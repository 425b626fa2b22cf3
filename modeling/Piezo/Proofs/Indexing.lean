import Piezo.Proofs.Rendering

/-!
Indexing: the numbers by which a rendering finds its samples and its events.

A number of samples is a product of milliseconds and a rate, and the millisecond of a sample is a
quotient by the rate. Whatever the clock, the rate and the times of the events, in order or not,
each of these numbers fits the word that it is kept in, and no event is looked for past the last.
-/

namespace Piezo.Wave

/-- A product, if it fits 64 bits. -/
def product? (a b : UInt64) : Option UInt64 :=
  if a.toNat * b.toNat < UInt64.size then some (a * b) else none

/-- A quotient, if the divisor is not zero. -/
def quotient? (a b : UInt64) : Option UInt64 := if b = 0 then none else some (a / b)

/-- The same number in 32 bits, if it fits them. -/
def narrow? (n : UInt64) : Option UInt32 :=
  if n.toNat < UInt32.size then some n.toUInt32 else none

/-- How many samples a number of milliseconds has room for, step by step. -/
def sampleCount? (rate ms : UInt32) : Option UInt64 := do
  quotient? (← product? ms.toUInt64 rate.toUInt64) 1000

/-- The millisecond in which a sample lies, step by step. -/
def sampleTime? (rate : UInt32) (i : UInt64) : Option UInt32 := do
  narrow? (← quotient? (← product? i 1000) rate.toUInt64)

/-- Where a rendering has got to: the place in the list of the next event, what sounds, and the
samples. -/
structure Progress where
  next : Nat := 0
  frequency : Option UInt32 := none
  phase : Float := 0.0
  done : Array Float32 := #[]

namespace Progress

/-- Hears the events from the next one on, up to the first that is later than `ms`. It comes to
nothing if there is no event where one is looked for. -/
def hear? (events : List Event) (origin ms : UInt32) (p : Progress) : Option Progress :=
  if p.next < events.length then
    match events[p.next]? with
    | none => none
    | some e =>
      if Clock.elapsed e.time origin ≤ ms then
        hear? events origin ms
          { p with next := p.next + 1, frequency := e.frequency?, phase := 0.0 }
      else some p
  else some p
termination_by events.length - p.next

/-- The sample of what sounds, and the phase after it. -/
def sound (rate : UInt32) (amplitude : Float32) (p : Progress) : Progress :=
  match p.frequency with
  | some frequency =>
    { p with
      phase := nextPhase p.phase frequency rate
      done := p.done.push (level p.phase amplitude) }
  | none => { p with done := p.done.push 0.0 }

/-- The next `count` samples, of which the first is `i`. -/
def turns? (events : List Event) (origin rate : UInt32) (amplitude : Float32) :
    Nat → UInt64 → Progress → Option Progress
  | 0, _, p => some p
  | count + 1, i, p => do
    let heard ← p.hear? events origin (← sampleTime? rate i)
    turns? events origin rate amplitude count (i + 1) (heard.sound rate amplitude)

end Progress

/-- Where a rendering of a channel has got to after so many samples. -/
def progress? (r : Recording) (c : Channel) (rate : UInt32) (amplitude : Float32) (count : Nat) :
    Option Progress :=
  match channelEvents r c with
  | [] => some {}
  | first :: rest => Progress.turns? (first :: rest) first.time rate amplitude count 0 {}

/-- What `render` gives, with every number kept in its word. It fails if a product or a millisecond
does not fit, if something is divided by zero, or if an event is looked for that is not there. -/
def renderWithin? (r : Recording) (c : Channel) (rate : UInt32) (amplitude : Float32) :
    Option (Array Float32) :=
  match channelEvents r c with
  | [] => some #[]
  | first :: _ => do
    let count ← sampleCount? rate (Clock.elapsed r.now first.time)
    (progress? r c rate amplitude count.toNat).map (·.done)

section Words

variable {rate ms : UInt32} {a b i : UInt64}

theorem product?_eq (h : a.toNat * b.toNat < 2 ^ 64) :
    ∃ c, product? a b = some c ∧ c.toNat = a.toNat * b.toNat :=
  ⟨a * b, if_pos h, by rw [UInt64.toNat_mul, Nat.mod_eq_of_lt h]⟩

theorem quotient?_eq (h : 0 < b.toNat) :
    ∃ c, quotient? a b = some c ∧ c.toNat = a.toNat / b.toNat := by
  refine ⟨a / b, if_neg ?_, UInt64.toNat_div a b⟩
  rintro rfl
  exact Nat.lt_irrefl 0 h

theorem narrow?_eq (h : a.toNat < 2 ^ 32) : ∃ c, narrow? a = some c ∧ c.toNat = a.toNat :=
  ⟨a.toUInt32, if_pos h, by rw [UInt64.toNat_toUInt32, Nat.mod_eq_of_lt h]⟩

theorem mul_rate_lt {ms : Nat} (h : ms < 2 ^ 32) (rate : UInt32) : ms * rate.toNat < 2 ^ 64 :=
  calc ms * rate.toNat
    _ < 2 ^ 32 * 2 ^ 32 := Nat.mul_lt_mul'' h rate.toNat_lt
    _ = 2 ^ 64 := rfl

theorem sampleCount?_eq (rate ms : UInt32) :
    ∃ count, sampleCount? rate ms = some count ∧ count.toNat = sampleCount rate ms.toNat := by
  obtain ⟨p, hp, product⟩ := product?_eq (a := ms.toUInt64) (b := rate.toUInt64)
    (by simpa using mul_rate_lt ms.toNat_lt rate)
  obtain ⟨q, hq, quotient⟩ := quotient?_eq (a := p) (b := 1000) (by decide)
  refine ⟨q, by simp [sampleCount?, hp, hq], ?_⟩
  rw [quotient, product]
  simp [sampleCount]

theorem sampleTime?_eq (h : i.toNat < sampleCount rate ms.toNat) :
    ∃ t, sampleTime? rate i = some t ∧ t.toNat = sampleTime rate i.toNat := by
  have before := sampleTime_lt h
  obtain ⟨p, hp, product⟩ := product?_eq (a := i) (b := 1000)
    (Nat.lt_trans (mul_thousand_lt h) (mul_rate_lt ms.toNat_lt rate))
  obtain ⟨q, hq, quotient⟩ := quotient?_eq (a := p) (b := rate.toUInt64)
    (by simpa using rate_pos h)
  have time : q.toNat = sampleTime rate i.toNat := by
    rw [quotient, product]
    simp [sampleTime]
  obtain ⟨t, ht, same⟩ := narrow?_eq (a := q) (time ▸ Nat.lt_trans before ms.toNat_lt)
  exact ⟨t, by simp [sampleTime?, hp, hq, ht], same.trans time⟩

end Words

namespace Progress

variable {events : List Event} {origin rate ms : UInt32} {p : Progress}

/-- What an event asks for, with the milliseconds since the first one. -/
def entry (origin : UInt32) (e : Event) : Nat × Option UInt32 :=
  ((Clock.elapsed e.time origin).toNat, e.frequency?)

/-- The voice that has heard the events before the next one. -/
def voice (events : List Event) (origin : UInt32) (p : Progress) : Voice where
  pending := (events.drop p.next).map (entry origin)
  frequency := p.frequency
  phase := p.phase

theorem hear?_eq (origin ms : UInt32) {p : Progress} (within : p.next ≤ events.length) :
    ∃ q, p.hear? events origin ms = some q ∧ q.next ≤ events.length ∧ q.done = p.done ∧
      q.voice events origin = (p.voice events origin).atTime ms.toNat := by
  rw [hear?]
  split
  · next more =>
    have left := List.drop_eq_getElem_cons more
    simp only [List.getElem?_eq_getElem more, voice, Voice.atTime, left, List.map_cons, entry,
      Voice.catchUp, ← UInt32.le_iff_toNat_le]
    split
    · exact hear?_eq origin ms (Nat.succ_le_of_lt more)
    · exact ⟨p, rfl, within, rfl, by rw [left]; rfl⟩
  · next ended =>
    have none_left : events.drop p.next = [] := List.drop_eq_nil_of_le (Nat.not_lt.mp ended)
    refine ⟨p, rfl, within, rfl, ?_⟩
    simp [voice, Voice.atTime, Voice.catchUp, none_left]
termination_by events.length - p.next

theorem next_sound (rate : UInt32) (amplitude : Float32) (p : Progress) :
    (p.sound rate amplitude).next = p.next := by
  unfold sound
  split <;> rfl

theorem voice_sound (events : List Event) (origin rate : UInt32) (amplitude : Float32)
    (p : Progress) :
    (p.sound rate amplitude).voice events origin = (p.voice events origin).next rate := by
  unfold sound voice Voice.next
  cases p.frequency <;> rfl

theorem done_sound (events : List Event) (origin rate : UInt32) (amplitude : Float32)
    (p : Progress) :
    (p.sound rate amplitude).done =
      p.done.push ((p.voice events origin).sample amplitude) := by
  unfold sound voice Voice.sample
  cases p.frequency <;> rfl

/-- As long as there are samples to come, nothing fails. -/
theorem turns?_eq (amplitude : Float32) (within : p.next ≤ events.length) {count : Nat}
    {i : UInt64} (room : i.toNat + count ≤ sampleCount rate ms.toNat) :
    ∃ q, turns? events origin rate amplitude count i p = some q ∧ q.next ≤ events.length ∧
      q.done = samplesFrom rate amplitude count i.toNat (p.voice events origin) p.done := by
  induction count generalizing i p with
  | zero => exact ⟨p, rfl, within, rfl⟩
  | succ count ih =>
    have few : sampleCount rate ms.toNat < 2 ^ 64 :=
      Nat.lt_of_le_of_lt (Nat.div_le_self ..) (mul_rate_lt ms.toNat_lt rate)
    have step : (i + 1).toNat = i.toNat + 1 := by
      rw [UInt64.toNat_add, UInt64.toNat_one, Nat.mod_eq_of_lt (by omega)]
    have ahead : i.toNat < sampleCount rate ms.toNat := by omega
    obtain ⟨t, time, exact⟩ := sampleTime?_eq ahead
    obtain ⟨heard, hears, kept, done, voice⟩ := hear?_eq origin t within
    obtain ⟨q, hq, next, samples⟩ := ih (p := heard.sound rate amplitude) (i := i + 1)
      (by rw [next_sound]; exact kept) (by omega)
    refine ⟨q, by simp [turns?, time, hears, hq], next, ?_⟩
    rw [samples, voice_sound, done_sound events origin, voice, done, step, exact, samplesFrom]

end Progress

theorem size_samplesFrom (rate : UInt32) (amplitude : Float32) (count i : Nat) (v : Voice)
    (done : Array Float32) :
    (samplesFrom rate amplitude count i v done).size = done.size + count := by
  induction count generalizing i v done with
  | zero => rfl
  | succ count ih =>
    rw [samplesFrom, ih, Array.size_push]
    omega

theorem span_lt (r : Recording) (c : Channel) : span r c < 2 ^ 32 := by
  unfold span
  cases channelEvents r c with
  | nil => exact Nat.two_pow_pos 32
  | cons first rest => exact UInt32.toNat_lt _

theorem progress?_eq (r : Recording) (c : Channel) (rate : UInt32) (amplitude : Float32)
    {count : Nat} (room : count ≤ sampleCount rate (span r c)) :
    ∃ p, progress? r c rate amplitude count = some p ∧ p.next ≤ (channelEvents r c).length ∧
      p.done = samplesFrom rate amplitude count 0 { pending := log r c } #[] := by
  unfold progress? log span at *
  cases he : channelEvents r c with
  | nil =>
    obtain rfl : count = 0 := by simpa [he, sampleCount] using room
    exact ⟨{}, rfl, Nat.le_refl _, rfl⟩
  | cons first rest =>
    rw [he] at room
    exact Progress.turns?_eq amplitude (Nat.zero_le _) (i := 0) (by simpa using room)

theorem renderWithin?_eq (r : Recording) (c : Channel) (rate : UInt32) (amplitude : Float32) :
    renderWithin? r c rate amplitude = some (render r c rate amplitude) := by
  unfold renderWithin?
  cases he : channelEvents r c with
  | nil => simp [render, he]
  | cons first rest =>
    obtain ⟨count, hcount, exact⟩ := sampleCount?_eq rate (Clock.elapsed r.now first.time)
    have whole : (Clock.elapsed r.now first.time).toNat = span r c := by simp [span, he]
    obtain ⟨p, hp, -, done⟩ := progress?_eq r c rate amplitude (Nat.le_refl _)
    simp [hcount, exact, whole, hp, done, render_eq]

/-- Whatever was recorded, in the order of time or not, and whatever the clock and the rate, a
rendering goes through with every number kept in its word, and gives what it should. It has a sample
for each whole period of the time since the channel's first event, and none at rate zero. No product
on the way takes more than 64 bits. The millisecond of a sample, which is no quotient by zero, is
less than that time, and so fits 32 bits. The place of the next event is never past the end of the
list, whatever number of samples are done. -/
theorem indices_exact (r : Recording) (c : Channel) (rate : UInt32) (amplitude : Float32) :
    let samples := render r c rate amplitude
    let ms := span r c
    renderWithin? r c rate amplitude = some samples ∧
      samples.size = ms * rate.toNat / 1000 ∧ ms < 2 ^ 32 ∧ ms * rate.toNat < 2 ^ 64 ∧
      (rate = 0 → samples.size = 0) ∧
      (∀ i < samples.size, 0 < rate.toNat ∧ i * 1000 < 2 ^ 64 ∧ i * 1000 / rate.toNat < ms) ∧
      ∀ count ≤ samples.size, ∃ p, progress? r c rate amplitude count = some p ∧
        p.done.size = count ∧ p.next ≤ (channelEvents r c).length := by
  intro samples ms
  have size : samples.size = sampleCount rate ms := by
    simp only [samples, render_eq, size_samplesFrom, Array.size_empty, Nat.zero_add, ms]
  have product : ms * rate.toNat < 2 ^ 64 := mul_rate_lt (span_lt r c) rate
  refine ⟨renderWithin?_eq .., size, span_lt r c, product, ?_, fun i hi => ?_, fun count hc => ?_⟩
  · rintro rfl
    simp [size, sampleCount]
  · rw [size] at hi
    exact ⟨rate_pos hi, Nat.lt_trans (mul_thousand_lt hi) product, sampleTime_lt hi⟩
  · rw [size] at hc
    obtain ⟨p, hp, next, done⟩ := progress?_eq r c rate amplitude hc
    exact ⟨p, hp, by simp [done, size_samplesFrom], next⟩

/-- An event from before the first one, a clock that has gone all but round since, and the greatest
rate. The last sample lies in the last millisecond. -/
theorem indices_exact_round_clock :
    let r : Recording :=
      { now := 4
        events := #[⟨5, .emit ⟨0⟩ 440⟩, ⟨3, .silence ⟨0⟩⟩, ⟨9, .emit ⟨1⟩ 1⟩, ⟨6, .emit ⟨0⟩ 880⟩] }
    let samples := render r ⟨0⟩ 0xFFFFFFFF 0.5
    renderWithin? r ⟨0⟩ 0xFFFFFFFF 0.5 = some samples ∧ samples.size = 18446744065119617 ∧
      18446744065119616 * 1000 < 2 ^ 64 ∧
      18446744065119616 * 1000 / (0xFFFFFFFF : UInt32).toNat < 4294967295 ∧
      ∃ p, progress? r ⟨0⟩ 0xFFFFFFFF 0.5 18446744065119617 = some p ∧
        p.done.size = 18446744065119617 ∧ p.next ≤ 3 := by
  intro r samples
  obtain ⟨within, size, -, -, -, each, places⟩ := indices_exact r ⟨0⟩ 0xFFFFFFFF 0.5
  have whole : span r ⟨0⟩ = 4294967295 := by decide
  have all : samples.size = 18446744065119617 := by
    rw [size, whole]
    rfl
  obtain ⟨-, product, time⟩ := each 18446744065119616 (by rw [all]; decide)
  exact ⟨within, all, product, whole ▸ time, places _ (Nat.le_of_eq all.symm)⟩

end Piezo.Wave
