import Piezo.Proofs.Admission
import Piezo.Proofs.Calls
import Piezo.Proofs.Timing

/-!
Cursors: where a melody that plays stands, whatever was asked of its player before.

Between two calls the cursor is on a note of the melody and in one of its passes, and the notes that
have begun are those up to there. Within a tick it may be past the end for a moment, but what is
read then is never past the end, and the number of the pass still fits its byte. Only the player's
own count of the notes wraps, if there are enough of them.
-/

namespace Piezo

/-- The number after this one, if it fits a byte. -/
def succ? (n : UInt8) : Option UInt8 := if n.toNat + 1 < UInt8.size then some (n + 1) else none

namespace Playback

/-- Moves on step by step, with the index first and the pass when the index is at the end. It comes
to nothing if the pass does not fit its byte, and to `some none` after the last pass. -/
def move? (b : Playback) (now : UInt32) : Option (Option Playback) := do
  let index := b.index + 1
  if index = b.melody.size then
    let pass ← succ? b.pass
    if b.passes ≤ pass then return none
    return some { b with index := 0, pass, since := now }
  return some { b with index, since := now }

end Playback

namespace MelodyPlayer

/-- Goes on as `advance` does, but comes to nothing if there is no note at the cursor or the cursor
does not move. -/
def advance? (p : MelodyPlayer) (leases : Leases) (now : UInt32) : Option (Turn MelodyPlayer) :=
  match p.playback with
  | none => some { player := p, leases }
  | some playback => do
    if Clock.elapsed now playback.since < p.wait (← playback.note?) then
      return { player := p, leases }
    match ← playback.move? now with
    | none => return p.finish leases .finished
    | some next => return { p with playback := some next }.play leases now (← next.note?)

/-- A tick that comes to nothing where `advance?` does. -/
def tick? (p : MelodyPlayer) (leases : Leases) (now : UInt32) : Option (Turn MelodyPlayer) :=
  if p.isActive then
    let settled := p.settle leases now
    (settled.player.advance? settled.leases now).map fun advanced =>
      { advanced with
        commands := settled.commands ++ advanced.commands
        notices := settled.notices ++ advanced.notices }
  else some { player := p, leases }

end MelodyPlayer

/-- The melody that a request is about, and how often it is to be played. -/
def Request.melody? (settings : Settings) : Request → Option (Melody × UInt8)
  | .melody m repeats => some (m, repeats)
  | .tune source repeats =>
    match Tune.read settings source with
    | .ok read => some (read.melody, repeats)
    | .error _ => none
  | _ => none

namespace Player

/-- The melody that a call starts, and how often, if the call is a start and is let in. -/
def started? (p : Player) (m : Moment) : Call → Option (Melody × UInt8)
  | .start request =>
    match p.start? m.leases m.now request with
    | some attempt => if attempt.verdict.isOk then request.melody? p.settings else none
    | none => none
  | _ => none

/-- What the last of these calls started that started anything. -/
def lastStarted? (p : Player) (before : Option (Melody × UInt8)) :
    List (Moment × Call) → Option (Melody × UInt8)
  | [] => before
  | (m, call) :: rest => (p.respond m call).player.lastStarted? ((p.started? m call).or before) rest

/-- How far a melody's player has counted its notes. -/
def counted? : Player → Option UInt32
  | .melody p => some p.counted
  | _ => none

/-- How many notes have begun since the last start once a call is answered, if `n` had before: the
first one if the call is a start that is let in, and one more if the player counts on. -/
def notesAfter (p : Player) (m : Moment) (call : Call) (n : Nat) : Nat :=
  if (p.started? m call).isSome then 1
  else if (p.respond m call).player.counted? = p.counted? then n else n + 1

/-- The same for calls, one after another. -/
def notesBegun (p : Player) (before : Nat) : List (Moment × Call) → Nat
  | [] => before
  | (m, call) :: rest => (p.respond m call).player.notesBegun (p.notesAfter m call before) rest

end Player

namespace MelodyPlayer

/-- The cursor stands within the melody that was started last and its passes. The notes up to there
are those that have begun, and the player has counted them as far as its count goes. -/
structure InBounds (p : MelodyPlayer) (started : Option (Melody × UInt8)) (n : Nat)
    (b : Playback) : Prop where
  started : ∃ repeats, started = some (b.melody, repeats) ∧ b.passes = max repeats 1
  index : b.index < b.melody.size
  pass : b.pass < b.passes
  begun : n = b.pass.toNat * b.melody.size + b.index + 1
  counted : p.counted = UInt32.ofNat n

/-- If the player plays, its cursor is in bounds. -/
def Placed (p : MelodyPlayer) (started : Option (Melody × UInt8)) (n : Nat) : Prop :=
  ∀ b, p.playback = some b → p.InBounds started n b

variable {p q : MelodyPlayer} {started : Option (Melody × UInt8)} {n : Nat} {b c : Playback}

theorem Placed.of_idle (h : p.playback = none) : p.Placed started n := by
  intro b hb
  rw [h] at hb
  cases hb

theorem InBounds.placed (h : p.InBounds started n b) (hp : p.playback = some b) :
    p.Placed started n := by
  intro c hc
  obtain rfl := Option.some.inj (hp.symm.trans hc)
  exact h

theorem Placed.of_same (h : p.Placed started n) (playback : q.playback = p.playback)
    (counted : q.counted = p.counted) : q.Placed started n := by
  intro b hb
  obtain ⟨hs, hi, hp, hn, hc⟩ := h b (playback ▸ hb)
  exact ⟨hs, hi, hp, hn, counted.trans hc⟩

/-- The next note is in bounds, and one more has begun. -/
theorem InBounds.next (h : p.InBounds started n b) {now : UInt32} (moved : b.next? now = some c)
    (counted : q.counted = p.counted + 1) : q.InBounds started (n + 1) c := by
  have begun := h.begun
  have index := h.index
  have count : q.counted = UInt32.ofNat (n + 1) := by
    rw [counted, h.counted, UInt32.ofNat_add]
    rfl
  unfold Playback.next? at moved
  split_ifs at moved with more again
  · cases moved
    exact ⟨h.started, more, h.pass, congrArg (· + 1) begun, count⟩
  · cases moved
    refine ⟨h.started, Nat.zero_lt_of_lt index, again, ?_, count⟩
    -- A whole pass more has begun, of which the cursor stands on the first note.
    have whole : b.index + 1 = b.melody.size := Nat.le_antisymm index (Nat.not_lt.mp more)
    calc n + 1
      _ = b.pass.toNat * b.melody.size + (b.index + 1) + 1 := by
        rw [begun, Nat.add_assoc (_ * _)]
      _ = (b.pass + 1).toNat * b.melody.size + 0 + 1 := by
        rw [whole, Playback.toNat_pass_succ h.pass, Nat.succ_mul, Nat.add_zero]

theorem InBounds.begun_le (h : p.InBounds started n b) : n ≤ b.passes.toNat * b.melody.size := by
  have pass : b.pass.toNat + 1 ≤ b.passes.toNat := UInt8.lt_iff_toNat_lt.mp h.pass
  have whole := Nat.mul_le_mul_right b.melody.size pass
  have index := h.index
  rw [Nat.succ_mul] at whole
  rw [h.begun]
  omega

theorem InBounds.exists_note (h : p.InBounds started n b) : ∃ n, b.note? = some n :=
  ⟨_, Array.getElem?_eq_getElem h.index⟩

theorem InBounds.succ?_pass (h : p.InBounds started n b) : succ? b.pass = some (b.pass + 1) := by
  have := UInt8.lt_iff_toNat_lt.mp h.pass
  have := b.passes.toNat_lt
  exact if_pos (by rw [UInt8.size]; omega)

/-- Step by step, the cursor gets to where it should be. -/
theorem InBounds.move?_eq (h : p.InBounds started n b) (now : UInt32) :
    b.move? now = some (b.next? now) := by
  have index := h.index
  unfold Playback.move? Playback.next?
  by_cases more : b.index + 1 < b.melody.size
  · simp [more, Nat.ne_of_lt more]
  · have whole : b.index + 1 = b.melody.size := Nat.le_antisymm index (Nat.not_lt.mp more)
    by_cases again : b.pass + 1 < b.passes
    · simp [whole, h.succ?_pass, again, UInt8.not_le.mpr again]
    · simp [whole, h.succ?_pass, again, UInt8.not_lt.mp again]

/-- Nothing goes wrong on the way to the next note. -/
theorem Placed.advance?_eq (h : p.Placed started n) (leases : Leases) (now : UInt32) :
    p.advance? leases now = some (p.advance leases now) := by
  unfold advance? advance
  cases hp : p.playback with
  | none => rfl
  | some b =>
    have bounds := h b hp
    obtain ⟨k, hk⟩ := bounds.exists_note
    simp only [hk, Option.bind_eq_bind, Option.bind_some, Option.getD_some, bounds.move?_eq]
    split
    · rfl
    · cases moved : b.next? now with
      | none => rfl
      | some c =>
        have next := bounds.next (q := { p with counted := p.counted + 1 }) moved rfl
        obtain ⟨k, hk⟩ := next.exists_note
        simp only [hk, Option.bind_some, Option.getD_some]
        rfl

theorem Placed.settle (h : p.Placed started n) (leases : Leases) (now : UInt32) :
    (p.settle leases now).player.Placed started n :=
  h.of_same (settle_frame leases now p).1 (settle_counted leases now p)

theorem Placed.tick?_eq (h : p.Placed started n) (leases : Leases) (now : UInt32) :
    p.tick? leases now = some (p.tick leases now) := by
  unfold tick? tick
  split
  · simp only [(h.settle leases now).advance?_eq, Option.map_some]
  · rfl

/-- One more note has begun if the player has counted on, and none otherwise. -/
theorem Placed.advance (h : p.Placed started n) (leases : Leases) (now : UInt32) :
    let q := (p.advance leases now).player
    q.Placed started (if q.counted = p.counted then n else n + 1) := by
  unfold MelodyPlayer.advance
  cases hp : p.playback with
  | none => exact .of_idle hp
  | some b =>
    simp only
    split
    · simpa only [if_true] using h
    · cases moved : b.next? now with
      | none => exact .of_idle rfl
      | some c =>
        have counted := (play_spec leases now { p with playback := some c }
          (c.note?.getD default)).2.1
        have playback := (play_frame leases now { p with playback := some c }
          (c.note?.getD default)).1
        simp only [counted, count_ne, if_false]
        exact ((h b hp).next moved counted).placed playback

theorem Placed.tick (h : p.Placed started n) (leases : Leases) (now : UInt32) :
    let q := (p.tick leases now).player
    q.Placed started (if q.counted = p.counted then n else n + 1) := by
  unfold MelodyPlayer.tick
  split
  · have settled := settle_counted leases now p
    exact settled ▸ (h.settle leases now).advance _ now
  · simpa only [if_true] using h

theorem Placed.stop (h : p.Placed started n) (leases : Leases) :
    (p.stop leases).player.Placed started n ∧ (p.stop leases).player.counted = p.counted := by
  unfold MelodyPlayer.stop
  split
  · exact ⟨.of_idle rfl, rfl⟩
  · exact ⟨h, rfl⟩

/-- A melody that is let in is placed on its first note. -/
theorem placed_start {leases : Leases} {now : UInt32} {m : Melody} {repeats : UInt8}
    (accepted : (p.start leases now m repeats).verdict = .ok ()) :
    (p.start leases now m repeats).player.Placed (some (m, repeats)) 1 := by
  obtain ⟨lease, t, first, notices, hn, he⟩ := start_enters leases now accepted
  rw [he]
  refine InBounds.placed (b := ⟨m, 0, 0, max repeats 1, now⟩) ?_ (play_frame ..).1
  refine ⟨⟨repeats, rfl, rfl⟩, hn.index_lt, hn.2, ?_, (play_spec ..).2.1⟩
  rw [UInt8.toNat_zero, Nat.zero_mul]
  rfl

/-- One that is not let in changes nothing. -/
theorem start_refused {leases : Leases} {now : UInt32} {m : Melody} {repeats : UInt8}
    {error : Error} (refused : (p.start leases now m repeats).verdict = .error error) :
    (p.start leases now m repeats).player = p := by
  unfold MelodyPlayer.start at refused ⊢
  obtain ⟨_, -, hs⟩ | ⟨-, _, -, hs⟩ | ⟨-, _, _, -, hs⟩ :=
    Attempt.start_cases p .melody p.channel p.lease leases m.check (p.enter now m repeats)
  · rw [hs]
  · rw [hs]
  · rw [hs] at refused
    cases refused

/-- What comes of a request: a player on the first note of what was asked for, or the one from
before. -/
def Outcome (p : MelodyPlayer) (request : Request) (attempt : Attempt MelodyPlayer) : Prop :=
  (attempt.verdict = .ok () ∧ ∃ s, request.melody? p.settings = some s ∧
      attempt.player.Placed (some s) 1) ∨
    (∃ error, attempt.verdict = .error error) ∧ attempt.player = p

theorem start_outcome (p : MelodyPlayer) (leases : Leases) (now : UInt32) (m : Melody)
    (repeats : UInt8) : p.Outcome (.melody m repeats) (p.start leases now m repeats) := by
  cases hv : (p.start leases now m repeats).verdict with
  | ok accepted => exact .inl ⟨hv, _, rfl, placed_start hv⟩
  | error error => exact .inr ⟨⟨error, hv⟩, start_refused hv⟩

theorem startTune_outcome (p : MelodyPlayer) (leases : Leases) (now : UInt32)
    (source : Tune.Source) (repeats : UInt8) :
    p.Outcome (.tune source repeats) (p.startTune leases now source repeats) := by
  cases hr : Tune.read p.settings source with
  | error error =>
    simp only [startTune, hr]
    exact .inr ⟨⟨error, rfl⟩, rfl⟩
  | ok read =>
    simp only [Outcome, startTune, Request.melody?, hr]
    exact p.start_outcome leases now read.melody repeats

end MelodyPlayer

namespace Player

variable {p : MelodyPlayer} {started : Option (Melody × UInt8)} {n : Nat}

theorem start_placed (h : p.Placed started n) {m : Moment} {request : Request}
    {attempt : Attempt MelodyPlayer}
    (ha : (melody p).start? m.leases m.now request = some (attempt.map melody))
    (outcome : p.Outcome request attempt) :
    attempt.player.Placed (((melody p).started? m (.start request)).or started)
      ((melody p).notesAfter m (.start request) n) := by
  obtain ⟨accepted, s, asked, placed⟩ | ⟨⟨error, refused⟩, same⟩ := outcome
  · have begun : (melody p).started? m (.start request) = some s := by
      simp only [started?, ha, Attempt.map, accepted]
      exact asked
    rw [notesAfter, begun]
    exact placed
  · have none_begun : (melody p).started? m (.start request) = none := by
      simp only [started?, ha, Attempt.map, refused]
      rfl
    have counted : ((melody p).respond m (.start request)).player.counted? =
        (melody p).counted? := by
      simp only [respond, ha, Attempt.map, Turn.map, same]
    rw [notesAfter, none_begun, if_neg (by decide), if_pos counted, same]
    exact h

theorem respond_placed (h : p.Placed started n) (m : Moment) (call : Call) :
    ∃ q, ((melody p).respond m call).player = .melody q ∧
      q.Placed (((melody p).started? m call).or started) ((melody p).notesAfter m call n) := by
  cases call with
  | start request =>
    cases ha : (melody p).start? m.leases m.now request with
    | none =>
      refine ⟨p, by simp only [respond, ha], ?_⟩
      simpa [notesAfter, started?, respond, ha] using h
    | some attempt =>
      cases request <;> simp only [start?, reduceCtorEq, Option.some.injEq] at ha
      case melody s repeats =>
        subst ha
        exact ⟨_, rfl, start_placed h rfl (p.start_outcome m.leases m.now s repeats)⟩
      case tune source repeats =>
        subst ha
        exact ⟨_, rfl, start_placed h rfl (p.startTune_outcome m.leases m.now source repeats)⟩
  | tick =>
    refine ⟨_, rfl, ?_⟩
    simpa [notesAfter, started?, respond, Player.tick, Turn.map, counted?] using
      h.tick m.leases m.now
  | stop =>
    obtain ⟨placed, counted⟩ := h.stop m.leases
    refine ⟨_, rfl, ?_⟩
    simpa [notesAfter, started?, respond, Player.stop, Turn.map, counted?, counted] using placed

theorem runCalls_placed (h : p.Placed started n) (calls : List (Moment × Call)) :
    ∃ q, ((melody p).runCalls calls).1 = .melody q ∧
      q.Placed ((melody p).lastStarted? started calls) ((melody p).notesBegun n calls) := by
  induction calls generalizing p started n with
  | nil => exact ⟨p, rfl, h⟩
  | cons first rest ih =>
    obtain ⟨m, call⟩ := first
    obtain ⟨q, hq, placed⟩ := respond_placed h m call
    simp only [runCalls_cons, lastStarted?, notesBegun, hq]
    exact ih placed

end Player

namespace MelodyPlayer

/-- Whatever a melody's player has been asked for, and whenever, its cursor is on a note of the
melody that was let in last, in a pass that is less than the repeats of that melody, and the notes
that have begun since then are those up to the cursor. The player's count of them is exact for as
long as it fits 32 bits, and wraps after that. So nothing goes wrong at any tick: what it reads is
there, and no pass is too much for a byte. -/
theorem cursor_in_bounds (channel : Channel) (settings : Settings)
    (calls : List (Moment × Call)) :
    let first := Player.idle .melody channel settings
    let notes := first.notesBegun 0 calls
    ∃ p, (first.runCalls calls).1 = .melody p ∧
      (∀ leases now, p.tick? leases now = some (p.tick leases now)) ∧
      ∀ b, p.playback = some b →
        (∃ repeats, first.lastStarted? none calls = some (b.melody, repeats) ∧
          b.passes = max repeats 1) ∧
        b.index < b.melody.size ∧ b.pass < b.passes ∧
        notes = b.pass.toNat * b.melody.size + b.index + 1 ∧
        notes ≤ b.passes.toNat * b.melody.size ∧ p.counted = UInt32.ofNat notes := by
  intro first notes
  have fresh : Placed { tone := { channel, settings } } none 0 := .of_idle rfl
  obtain ⟨p, hp, placed⟩ := Player.runCalls_placed fresh calls
  refine ⟨p, hp, placed.tick?_eq, fun b hb => ?_⟩
  have bounds := placed b hb
  exact ⟨bounds.started, bounds.index, bounds.pass, bounds.begun, bounds.begun_le, bounds.counted⟩

/-- Three notes, and a shorter melody in their place, played as often as can be asked for. -/
def shortened : List (Moment × Call) :=
  let m : Moment := ⟨{}, 0⟩
  let long : Melody := ⟨#[⟨440, 0⟩, ⟨880, 0⟩, ⟨440, 0⟩], .owned⟩
  [(m, .start (.melody long 1)), (m, .tick), (m, .tick),
    (m, .start (.melody ⟨#[⟨440, 0⟩], .shared⟩ 255))] ++ List.replicate 254 (m, .tick)

/-- In the last pass of all. -/
theorem cursor_in_bounds_shortened :
    let first := Player.idle .melody ⟨0⟩ { settleMargin := 0 }
    let short : Melody := ⟨#[⟨440, 0⟩], .shared⟩
    ∃ p, (first.runCalls shortened).1 = .melody p ∧
      p.playback = some ⟨short, 0, 254, 255, 0⟩ ∧ first.notesBegun 0 shortened = 255 ∧
      p.counted = 255 ∧
      (∃ repeats, first.lastStarted? none shortened = some (short, repeats) ∧
        255 = max repeats 1) ∧
      ∀ leases now, p.tick? leases now = some (p.tick leases now) := by
  intro first short
  obtain ⟨p, hp, ticks, bounds⟩ := cursor_in_bounds ⟨0⟩ { settleMargin := 0 } shortened
  have played : (first.runCalls shortened).1 =
      .melody
        { tone := { channel := ⟨0⟩, settings := { settleMargin := 0 } }
          playback := some ⟨short, 0, 254, 255, 0⟩
          lease := some ⟨⟨0⟩⟩
          counted := 255 } := by
    decide +kernel
  obtain rfl := Player.melody.inj (played.symm.trans hp)
  obtain ⟨started, -, -, notes, -⟩ := bounds _ rfl
  exact ⟨_, hp, rfl, notes, rfl, started, ticks⟩

end MelodyPlayer

end Piezo
