import Mathlib.Data.List.Chain
import Piezo.Proofs.Score

/-!
Timing: at which tick a melody moves on.

Whoever reads the clock at each tick knows when the current note began and how late the ticks since
then have come, and that is all it takes to tell what the melody does at the next one. A note is
silenced at the first tick at which its time is over, and left at the first one at which its margin
is over too, however late that tick may come and whatever its tone has been through.
-/

namespace Piezo

namespace Note

/-- Milliseconds from the beginning of a note to the earliest beginning of the next. -/
def due (margin : UInt32) (n : Note) : Nat :=
  min (n.duration.toNat + margin.toNat) (UInt32.size - 1)

/-- The command that a note begins with. -/
def opening (range : FrequencyRange) (channel : Channel) (n : Note) : Command :=
  if n.IsPlayable range then Hold.command channel n.frequency else .silence channel

end Note

/-- What is known of the current note from the clock alone. -/
structure Watch where
  began : UInt32
  /-- What the clock showed at each tick since then. -/
  ticks : List UInt32 := []
deriving DecidableEq, Repr

namespace Watch

variable (w : Watch) (now : UInt32)

/-- Milliseconds that the note is old. -/
def age : Nat := (Clock.elapsed now w.began).toNat

/-- The note was younger than this at every tick so far. -/
def Within (ms : Nat) : Prop := ∀ now ∈ w.ticks, w.age now < ms

instance (ms : Nat) : Decidable (w.Within ms) :=
  inferInstanceAs (Decidable (∀ now ∈ w.ticks, w.age now < ms))

/-- One more tick has come. -/
def wait : Watch := { w with ticks := w.ticks ++ [now] }

@[simp] theorem began_wait : (w.wait now).began = w.began := rfl

@[simp] theorem within_new (ms : Nat) : Within ⟨now, []⟩ ms := by simp [Within]

@[simp] theorem within_wait (ms : Nat) :
    (w.wait now).Within ms ↔ w.Within ms ∧ w.age now < ms := by
  simp [Within, wait, age, or_imp, forall_and]

end Watch

/-- The beginning of a note, with the clock at that tick. -/
structure Beginning where
  clock : UInt32
  note : Note
deriving DecidableEq, Repr

/-- The next note waits for the length of this one and the margin. -/
def Beginning.Spaced (margin : UInt32) (a b : Beginning) : Prop :=
  a.note.due margin ≤ (Clock.elapsed b.clock a.clock).toNat

namespace MelodyPlayer

/-- What is known after a tick. One that begins a note starts the watch anew. -/
def watchTick (p : MelodyPlayer) (w : Watch) (m : Moment) : Watch :=
  if (p.tick m.leases m.now).player.counted = p.counted then w.wait m.now else ⟨m.now, []⟩

/-- What is known after a tick at each moment in order. -/
def watch (p : MelodyPlayer) (w : Watch) : List Moment → Watch
  | [] => w
  | m :: rest => (p.tick m.leases m.now).player.watch (p.watchTick w m) rest

/-- The current note as one that begins now. -/
def beginning? (p : MelodyPlayer) (now : UInt32) : Option Beginning :=
  (p.playback.bind (·.note?)).map fun n => ⟨now, n⟩

/-- The notes that ticks at these moments begin. -/
def beginnings (p : MelodyPlayer) : List Moment → List Beginning
  | [] => []
  | m :: rest =>
    let q := (p.tick m.leases m.now).player
    (if q.counted = p.counted then [] else (q.beginning? m.now).toList) ++ q.beginnings rest

variable {p : MelodyPlayer} {w : Watch} {b : Playback} {n : Note} (leases : Leases) (now : UInt32)

theorem toNat_wait (p : MelodyPlayer) (n : Note) :
    (p.wait n).toNat = n.due p.settings.settleMargin := by
  simp [wait, Note.due, Clock.toNat_addCapped]

theorem play_spec (p : MelodyPlayer) (n : Note) :
    (p.play leases now n).commands = [n.opening p.settings.range p.channel] ∧
      (p.play leases now n).player.counted = p.counted + 1 ∧
      (p.play leases now n).player.tone.hold =
        if n.IsPlayable p.settings.range then some (n.hold now) else none := by
  by_cases hn : n.IsPlayable p.settings.range
  · rw [play_of_isPlayable _ _ hn]
    simp [Note.opening, hn]
  · obtain ⟨_, he⟩ := play_of_not_isPlayable leases now hn
    rw [he]
    simp [Note.opening, hn]

/-- The player stands on a note that began when the watch did, and holds it for as long as no tick
has found its time over. -/
structure Timed (p : MelodyPlayer) (w : Watch) (b : Playback) (n : Note) : Prop where
  playback : p.playback = some b
  onNote : b.OnNote n
  since : b.since = w.began
  within : w.Within (n.due p.settings.settleMargin)
  hold : p.tone.hold =
    if n.IsPlayable p.settings.range ∧ w.Within n.duration.toNat then some (n.hold w.began)
    else none

/-- A player that plays is in time with the watch. -/
def KeepsTime (p : MelodyPlayer) (w : Watch) : Prop :=
  ∀ b, p.playback = some b → ∃ n, p.Timed w b n

theorem KeepsTime.of_idle (h : p.playback = none) : p.KeepsTime w := by
  intro b hb
  simp [h] at hb

theorem Timed.keepsTime (h : p.Timed w b n) : p.KeepsTime w := by
  intro c hc
  obtain rfl := Option.some.inj (h.playback.symm.trans hc)
  exact ⟨n, h⟩

theorem Timed.beginning?_eq (h : p.Timed w b n) : p.beginning? now = some ⟨now, n⟩ := by
  simp [beginning?, h.playback, h.onNote.1]

theorem Timed.isActive_iff (h : p.Timed w b n) :
    p.tone.isActive = true ↔ n.IsPlayable p.settings.range ∧ w.Within n.duration.toNat := by
  unfold TonePlayer.isActive
  rw [h.hold]
  split
  · next hs => simp [hs]
  · next hs => simp [hs]

/-- The silence of a note whose time is found to be over. -/
def ended (p : MelodyPlayer) (w : Watch) (n : Note) (now : UInt32) : List Command :=
  if p.tone.isActive ∧ n.duration.toNat ≤ w.age now then [.silence p.channel] else []

theorem isOver_hold (w : Watch) (n : Note) :
    (n.hold w.began).isOver now = true ↔ n.duration.toNat ≤ w.age now := by
  simp [Hold.isOver, Note.hold, Watch.age, UInt32.le_iff_toNat_le]

/-- One note more is another count, wrapped or not. -/
theorem count_ne (count : UInt32) : count + 1 ≠ count := by
  simp

theorem settle_counted (p : MelodyPlayer) : (p.settle leases now).player.counted = p.counted := by
  obtain ⟨ht, _⟩ | ⟨ht, _⟩ := settle_cases leases now p <;> rw [ht]

/-- The tone is let go of at the tick that finds its time over, and at no other. -/
theorem Timed.settle (h : p.Timed w b n) :
    (p.settle leases now).commands = p.ended w n now ∧
      (p.settle leases now).player.tone.hold =
        if n.IsPlayable p.settings.range ∧ (w.wait now).Within n.duration.toNat then
          some (n.hold w.began)
        else none := by
  have hover := isOver_hold now w n
  simp only [Watch.within_wait, ← and_assoc]
  obtain ⟨ht, ho⟩ | ⟨ht, held, hh, ho⟩ := settle_cases leases now p
  · rw [ht]
    by_cases hs : n.IsPlayable p.settings.range ∧ w.Within n.duration.toNat
    · have hhold : p.tone.hold = some (n.hold w.began) := by rw [h.hold, if_pos hs]
      have hlt : w.age now < n.duration.toNat := by simpa [hover] using ho _ hhold
      simp [ended, hhold, hs, hlt]
    · have hhold : p.tone.hold = none := by rw [h.hold, if_neg hs]
      simp [ended, TonePlayer.isActive, hhold, hs]
  · have hs : n.IsPlayable p.settings.range ∧ w.Within n.duration.toNat :=
      h.isActive_iff.mp (by simp [TonePlayer.isActive, hh])
    have hheld : n.hold w.began = held := by simpa [h.hold, hs] using hh
    subst hheld
    have hle := hover.mp ho
    rw [ht]
    simp [ended, TonePlayer.isActive, hh, hle]

theorem Timed.lt_wait_iff (h : p.Timed w b n) :
    Clock.elapsed now b.since < p.wait n ↔ w.age now < n.due p.settings.settleMargin := by
  rw [UInt32.lt_iff_toNat_lt, toNat_wait, h.since, Watch.age]

theorem advance_of_wait (hp : p.playback = some b) (hb : b.OnNote n)
    (hw : Clock.elapsed now b.since < p.wait n) :
    p.advance leases now = { player := p, leases } := by
  simp only [advance, hp, hb.1, Option.getD_some, if_pos hw]

theorem advance_of_last (hp : p.playback = some b) (hb : b.OnNote n)
    (hw : ¬ Clock.elapsed now b.since < p.wait n) (hn : b.next? now = none) :
    p.advance leases now = p.finish leases .finished := by
  simp only [advance, hp, hb.1, Option.getD_some, if_neg hw, hn]

theorem advance_of_next {c : Playback} {m : Note} (hp : p.playback = some b) (hb : b.OnNote n)
    (hw : ¬ Clock.elapsed now b.since < p.wait n) (hn : b.next? now = some c) (hc : c.OnNote m) :
    p.advance leases now = { p with playback := some c }.play leases now m := by
  simp only [advance, hp, hb.1, Option.getD_some, if_neg hw, hn, hc.1]

/-- A note that begins now is in time with a new watch. -/
theorem play_timed (hp : p.playback = some b) (hb : b.OnNote n) (hs : b.since = now) :
    (p.play leases now n).player.Timed ⟨now, []⟩ b n := by
  obtain ⟨hplayback, _, hsettings⟩ := play_frame leases now p n
  refine ⟨hplayback.trans hp, hb, hs, by simp, ?_⟩
  rw [(play_spec leases now p n).2.2, hsettings]
  simp

/-- Everything a tick can do to a melody that plays: wait, end it, or begin the next note. The
clock alone decides which. -/
theorem Timed.tick_cases (h : p.Timed w b n) :
    let turn := p.tick leases now
    (w.age now < n.due p.settings.settleMargin ∧
        turn.player.Timed (w.wait now) b n ∧ turn.player.counted = p.counted ∧
        turn.commands = p.ended w n now) ∨
      (n.due p.settings.settleMargin ≤ w.age now ∧ b.next? now = none ∧ b.remaining = [] ∧
        turn.player.playback = none ∧ turn.player.counted = p.counted ∧
        turn.commands = p.ended w n now ++ [.silence p.channel]) ∨
      (n.due p.settings.settleMargin ≤ w.age now ∧
        ∃ c m, b.next? now = some c ∧ b.remaining = m :: c.remaining ∧
          turn.player.Timed ⟨now, []⟩ c m ∧ turn.player.counted = p.counted + 1 ∧
          turn.commands = p.ended w n now ++ [m.opening p.settings.range p.channel]) := by
  intro turn
  obtain ⟨hplayer, hcommands⟩ := tick_of_playback leases now h.playback
  obtain ⟨hp, hchannel, hsettings⟩ := settle_frame leases now p
  obtain ⟨hsilence, hhold⟩ := h.settle leases now
  have hcounted := settle_counted leases now p
  have hwait := settle_wait leases now p n
  have hlt := h.lt_wait_iff now
  rw [h.playback] at hp
  rw [hsilence] at hcommands
  -- Only the tone is settled by now. The cursor stands where it stood, with the same wait ahead.
  generalize (p.settle leases now).player = s at *
  by_cases hw : w.age now < n.due p.settings.settleMargin
  · rw [advance_of_wait _ now hp h.onNote (hwait ▸ hlt.mpr hw)] at hplayer hcommands
    refine .inl ⟨hw, ?_, hplayer ▸ hcounted, by simpa using hcommands⟩
    rw [hplayer]
    exact ⟨hp, h.onNote, h.since, by simp [hsettings, h.within, hw], hsettings ▸ hhold⟩
  · have hdue : ¬ Clock.elapsed now b.since < s.wait n := fun he => hw (hlt.mp (hwait ▸ he))
    obtain ⟨hn, hr⟩ | ⟨c, m, hn, hm, hr, hc⟩ := Playback.next?_spec h.onNote now
    · rw [advance_of_last _ now hp h.onNote hdue hn] at hplayer hcommands
      refine .inr (.inl ⟨Nat.not_lt.mp hw, hn, hr, ?_, ?_, ?_⟩)
      · rw [hplayer]
        rfl
      · rw [hplayer]
        exact hcounted
      · rw [hcommands, ← hchannel]
        rfl
    · rw [advance_of_next _ now hp h.onNote hdue hn hm] at hplayer hcommands
      obtain ⟨hopening, hsucc, _⟩ :=
        play_spec (p.settle leases now).leases now { s with playback := some c } m
      refine .inr (.inr ⟨Nat.not_lt.mp hw, c, m, hn, hr, ?_, ?_, ?_⟩)
      · rw [hplayer]
        exact play_timed _ now rfl hm hc
      · rw [hplayer, hsucc, ← hcounted]
      · rw [hcommands, hopening, ← hchannel, ← hsettings]
        rfl

theorem tick_of_idle (h : p.playback = none) : p.tick leases now = { player := p, leases } := by
  simp [tick, isActive, h]

theorem advance_frame (p : MelodyPlayer) :
    (p.advance leases now).player.settings = p.settings ∧
      (p.advance leases now).player.channel = p.channel := by
  unfold advance
  split
  · exact ⟨rfl, rfl⟩
  · split
    · exact ⟨rfl, rfl⟩
    · split
      · exact ⟨rfl, rfl⟩
      · exact (play_frame ..).2.symm

theorem tick_frame (p : MelodyPlayer) :
    (p.tick leases now).player.settings = p.settings ∧
      (p.tick leases now).player.channel = p.channel := by
  cases hp : p.playback with
  | none =>
    rw [tick_of_idle _ _ hp]
    exact ⟨rfl, rfl⟩
  | some b =>
    obtain ⟨_, hc, hs⟩ := settle_frame leases now p
    rw [(tick_of_playback leases now hp).1, ← hs, ← hc]
    exact advance_frame ..

theorem run_frame (p : MelodyPlayer) (schedule : List Moment) :
    (runTicks tick p schedule).1.settings = p.settings ∧
      (runTicks tick p schedule).1.channel = p.channel := by
  induction schedule generalizing p with
  | nil => exact ⟨rfl, rfl⟩
  | cons m rest ih =>
    obtain ⟨hs, hc⟩ := tick_frame m.leases m.now p
    rw [← hs, ← hc]
    exact ih _

theorem KeepsTime.tick (h : p.KeepsTime w) (m : Moment) :
    (p.tick m.leases m.now).player.KeepsTime (p.watchTick w m) := by
  cases hp : p.playback with
  | none =>
    rw [tick_of_idle _ _ hp]
    exact .of_idle hp
  | some b =>
    obtain ⟨n, hn⟩ := h b hp
    obtain ⟨_, ht, hb, _⟩ | ⟨_, _, _, hq, _⟩ | ⟨_, c, k, _, _, ht, hb, _⟩ :=
      hn.tick_cases m.leases m.now
    · rw [watchTick, if_pos hb]
      exact ht.keepsTime
    · exact .of_idle hq
    · rw [watchTick, if_neg (hb ▸ count_ne _)]
      exact ht.keepsTime

theorem KeepsTime.run (h : p.KeepsTime w) (schedule : List Moment) :
    (runTicks MelodyPlayer.tick p schedule).1.KeepsTime (p.watch w schedule) := by
  induction schedule generalizing p w with
  | nil => exact h
  | cons m rest ih => exact ih (h.tick m)

theorem beginnings_of_idle (h : p.playback = none) (schedule : List Moment) :
    p.beginnings schedule = [] ∧ (runTicks tick p schedule).1 = p := by
  induction schedule with
  | nil => exact ⟨rfl, rfl⟩
  | cons m rest ih => simpa [beginnings, runTicks_cons, tick_of_idle _ _ h] using ih

/-- The notes that are still to begin. -/
def upcoming (p : MelodyPlayer) : List Note := p.playback.elim [] (·.remaining)

/-- The notes of a run begin in order, each counted once as far as the count goes, with time enough
for the one before. -/
theorem KeepsTime.beginnings (h : p.KeepsTime w) (schedule : List Moment) :
    let q := (runTicks MelodyPlayer.tick p schedule).1
    let begun := p.beginnings schedule
    ((p.beginning? w.began).toList ++ begun).IsChain (Beginning.Spaced p.settings.settleMargin) ∧
      p.counted + UInt32.ofNat begun.length = q.counted ∧
      begun.map (·.note) ++ q.upcoming = p.upcoming := by
  induction schedule generalizing p w with
  | nil =>
    simp only [MelodyPlayer.beginnings, runTicks_nil]
    cases p.beginning? w.began <;> simp
  | cons m rest ih =>
    have ih := ih (h.tick m)
    cases hp : p.playback with
    | none =>
      obtain ⟨hb, hq⟩ := beginnings_of_idle hp (m :: rest)
      simp [hb, hq, beginning?, hp]
    | some b =>
      obtain ⟨n, hn⟩ := h b hp
      rw [(tick_frame ..).1] at ih
      simp only [runTicks_cons, MelodyPlayer.beginnings]
      obtain ⟨_, ht, hb, _⟩ | ⟨_, _, hr, hq, hb, _⟩ | ⟨hd, c, k, _, hr, ht, hb, _⟩ :=
        hn.tick_cases m.leases m.now
      · simp only [watchTick, hb, if_true, ht.beginning?_eq, hn.beginning?_eq] at ih ⊢
        simpa [upcoming, hn.playback, ht.playback] using ih
      · -- The last note has no neighbour to be spaced from: an idle melody begins nothing more.
        obtain ⟨hnil, hrun⟩ := beginnings_of_idle hq rest
        simp [hb, hnil, hrun, hn.beginning?_eq, upcoming, hn.playback, hq, hr]
      · have hne : (p.tick m.leases m.now).player.counted ≠ p.counted := hb ▸ count_ne _
        simp only [watchTick, hne, if_false, ht.beginning?_eq, hn.beginning?_eq] at ih ⊢
        obtain ⟨hchain, hlength, hnotes⟩ := ih
        refine ⟨?_, ?_, ?_⟩
        · exact List.isChain_cons_cons.mpr ⟨hd, hchain⟩
        · rw [List.length_append, UInt32.ofNat_add, ← UInt32.add_assoc, ← hlength, hb]
          rfl
        · rw [List.map_append, List.append_assoc, hnotes]
          simp [upcoming, hn.playback, ht.playback, hr]

/-- A melody that is let in begins its first note, on the clock of the start. -/
theorem start_timed {m : Melody} {repeats : UInt8}
    (h : (p.start leases now m repeats).verdict = .ok ()) :
    let started := (p.start leases now m repeats).player
    ∃ b n, started.Timed ⟨now, []⟩ b n ∧ started.counted = 1 ∧
      n :: started.upcoming = (List.replicate (max repeats.toNat 1) m.notes.toList).flatten ∧
      started.settings = p.settings ∧ started.channel = p.channel := by
  obtain ⟨lease, t, n, _, hn, he⟩ := start_enters leases now h
  have ht := play_timed t now (p := { p with
    playback := some ⟨m, 0, 0, max repeats 1, now⟩, lease := some lease, counted := 0 }) rfl hn rfl
  rw [he]
  refine ⟨_, n, ht, (play_spec ..).2.1, ?_, (play_frame ..).2.2, (play_frame ..).2.1⟩
  simp only [upcoming, ht.playback, Option.elim_some]
  exact remaining_first m repeats now hn

/-- Whatever the clock shows at the ticks after a start, a note sounds or rests until the first tick
that finds its time over, and is current until the first one that finds its margin over too. That
tick begins the next note, on its own clock, or ends the melody. So the notes begin in order, each
as long after the one before as that and its margin last. -/
theorem notes_keep_time (p : MelodyPlayer) (leases : Leases) (now : UInt32) (m : Melody)
    (repeats : UInt8) (accepted : (p.start leases now m repeats).verdict = .ok ())
    (schedule : List Moment) :
    let started := p.start leases now m repeats
    let q := (runTicks tick started.player schedule).1
    let w := started.player.watch ⟨now, []⟩ schedule
    let margin := p.settings.settleMargin
    let begun := (started.player.beginning? now).toList ++ started.player.beginnings schedule
    (∀ b, q.playback = some b → ∃ n, b.note? = some n ∧ b.since = w.began ∧
        (q.tone.isActive = true ↔ n.IsPlayable p.settings.range ∧ w.Within n.duration.toNat) ∧
        w.Within (n.due margin) ∧
        ∀ later : Moment,
          let turn := q.tick later.leases later.now
          let ended : List Command :=
            if q.tone.isActive ∧ n.duration.toNat ≤ w.age later.now then [.silence p.channel]
            else []
          (w.age later.now < n.due margin →
            turn.player.playback = some b ∧ turn.player.counted = q.counted ∧
              turn.commands = ended) ∧
          (n.due margin ≤ w.age later.now →
            match b.next? later.now with
            | none =>
              turn.player.playback = none ∧ turn.player.counted = q.counted ∧
                turn.commands = ended ++ [.silence p.channel]
            | some c => ∃ k, c.note? = some k ∧
              turn.player.playback = some c ∧ turn.player.counted = q.counted + 1 ∧
                turn.commands = ended ++ [k.opening p.settings.range p.channel])) ∧
      begun.IsChain (Beginning.Spaced margin) ∧ UInt32.ofNat begun.length = q.counted ∧
      begun.map (·.note) <+: (List.replicate (max repeats.toNat 1) m.notes.toList).flatten := by
  intro started q w margin begun
  obtain ⟨_, first, ht, hone, hall, hs, hc⟩ := start_timed leases now accepted
  have hqs : q.settings = p.settings := (run_frame started.player schedule).1.trans hs
  have hqc : q.channel = p.channel := (run_frame started.player schedule).2.trans hc
  have hfirst : started.player.beginning? now = some ⟨now, first⟩ := ht.beginning?_eq now
  obtain ⟨hchain, hlength, hnotes⟩ := ht.keepsTime.beginnings schedule
  rw [hs] at hchain
  refine ⟨?_, hchain, ?_, q.upcoming, ?_⟩
  · intro b hb
    obtain ⟨n, hn⟩ := ht.keepsTime.run schedule b hb
    have hactive := hn.isActive_iff
    have hwithin := hn.within
    have hcases (later : Moment) := hn.tick_cases later.leases later.now
    simp only [ended] at hcases
    rw [hqs] at hactive hwithin hcases
    rw [hqc] at hcases
    refine ⟨n, hn.onNote.1, hn.since, hactive, hwithin, ?_⟩
    intro later turn silenced
    obtain ⟨he, hq, hb, hcmd⟩ | ⟨hd, hnext, _, hq, hb, hcmd⟩ | ⟨hd, c, k, hnext, _, hq, hb, hcmd⟩ :=
      hcases later
    · exact ⟨fun _ => ⟨hq.playback, hb, hcmd⟩, fun hd => absurd he (Nat.not_lt.mpr hd)⟩
    · rw [hnext]
      exact ⟨fun he => absurd he (Nat.not_lt.mpr hd), fun _ => ⟨hq, hb, hcmd⟩⟩
    · rw [hnext]
      exact ⟨fun he => absurd he (Nat.not_lt.mpr hd),
        fun _ => ⟨k, hq.onNote.1, hq.playback, hb, hcmd⟩⟩
  · calc UInt32.ofNat begun.length
      _ = UInt32.ofNat (1 + (started.player.beginnings schedule).length) := by
        simp [begun, hfirst, Nat.add_comm]
      _ = started.player.counted + UInt32.ofNat (started.player.beginnings schedule).length := by
        rw [hone, UInt32.ofNat_add]
        rfl
      _ = q.counted := hlength
  · calc begun.map (·.note) ++ q.upcoming
      _ = first :: ((started.player.beginnings schedule).map (·.note) ++ q.upcoming) := by
        simp [begun, hfirst]
      _ = first :: started.player.upcoming := congrArg _ hnotes
      _ = _ := hall

/-- The longest tone there is, a rest and a pitch out of range, twice, on a clock that wraps. A late
tick silences the tone, and a later one the rest as it begins the last note of the pass. -/
theorem notes_keep_time_late :
    let p : MelodyPlayer := { tone := { channel := ⟨3⟩ } }
    let m : Melody := ⟨#[⟨440, 65535⟩, ⟨0, 50⟩, ⟨5, 10⟩], .owned⟩
    let started := p.start {} 0xFFFFFF00 m 2
    let schedule : List Moment := [0, 65300, 65328, 65329, 65450].map fun now => ⟨{}, now⟩
    let q := (runTicks tick (p.start {} 0xFFFFFF00 m 2).player schedule).1
    let begun := (started.player.beginning? 0xFFFFFF00).toList ++ started.player.beginnings schedule
    started.verdict = .ok () ∧
      begun = [⟨0xFFFFFF00, ⟨440, 65535⟩⟩, ⟨65329, ⟨0, 50⟩⟩, ⟨65450, ⟨5, 10⟩⟩] ∧
      begun.IsChain (Beginning.Spaced 50) ∧
      (∀ leases, (q.tick leases 65509).commands = []) ∧
      ∀ leases, (q.tick leases 65510).player.playback = some ⟨m, 0, 1, 2, 65510⟩ ∧
        (q.tick leases 65510).commands = [.emit ⟨3⟩ 440] := by
  intro p m started schedule q begun
  have accepted : started.verdict = .ok () := rfl
  have playing : q.playback = some ⟨m, 2, 0, 2, 65450⟩ := by decide
  have silent : q.tone.isActive = false := by decide
  have watched : started.player.watch ⟨0xFFFFFF00, []⟩ schedule = ⟨65450, []⟩ := by decide
  obtain ⟨hnote, hchain, _⟩ := notes_keep_time p {} 0xFFFFFF00 m 2 accepted schedule
  rw [watched, show (runTicks tick (p.start {} 0xFFFFFF00 m 2).player schedule).1 = q from rfl]
    at hnote
  clear_value q
  obtain ⟨n, hn, _, _, _, hlater⟩ := hnote _ playing
  obtain rfl : (⟨5, 10⟩ : Note) = n := Option.some.inj hn
  refine ⟨accepted, by decide, hchain, ?_, ?_⟩
  · intro leases
    have early : Watch.age ⟨65450, []⟩ 65509 < Note.due 50 ⟨5, 10⟩ := by decide
    simpa [silent] using ((hlater ⟨leases, 65509⟩).1 early).2.2
  · intro leases
    have due : Note.due 50 ⟨5, 10⟩ ≤ Watch.age ⟨65450, []⟩ 65510 := by decide
    obtain ⟨_, hk, hp, _, hc⟩ := (hlater ⟨leases, 65510⟩).2 due
    obtain rfl := Option.some.inj hk
    have opening : Note.opening p.settings.range p.channel m.notes[0] = .emit ⟨3⟩ 440 := by decide
    exact ⟨hp, by simpa [silent, opening] using hc⟩

end MelodyPlayer

end Piezo
