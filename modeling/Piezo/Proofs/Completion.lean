import Piezo.Proofs.Beeping
import Piezo.Proofs.Pacing
import Piezo.Proofs.Sweeping
import Piezo.Proofs.Timing

/-!
Completion: how long each kind of player takes from its start until it is idle.

Each waits for one thing after another, so the time is that of its waits, and it can be read off what
was asked for.
-/

namespace Piezo

/-- Milliseconds that the notes take in all passes, each with its margin. -/
def Melody.time (m : Melody) (margin : UInt32) (step : Nat) (repeats : UInt8) : Nat :=
  max repeats.toNat 1 * (m.notes.toList.map fun n => roundUp step (n.due margin)).sum

/-- Milliseconds from the start until the player is idle, if it is ticked every `step` of them. -/
def Request.time (settings : Settings) (step : Nat) : Request → Nat
  | .tone _ duration => roundUp step duration.toNat
  | .melody m repeats => m.time settings.settleMargin step repeats
  | .tune source repeats =>
    match Tune.read settings source with
    | .error _ => 0
    | .ok read => read.melody.time settings.settleMargin step repeats
  | .alert w =>
    w.count.toNat * roundUp step w.duration.toNat +
      (w.count.toNat - 1) * roundUp step w.lapse.toNat
  | .sweep r => r.size * roundUp step r.duration.toNat
  | .siren w => roundUp step w.total.toNat

theorem Pattern.totalTime_cues (w : Pattern) (c : Channel) (step more : Nat) :
    totalTime step ((w.cues c more).map Cue.wait) =
      (more + 1) * roundUp step w.duration.toNat + more * roundUp step w.lapse.toNat := by
  have pair : totalTime step [w.lapse, w.duration] =
      roundUp step w.lapse.toNat + roundUp step w.duration.toNat := by
    rw [totalTime_cons, totalTime_cons]
    rfl
  rw [cues, List.map_cons, totalTime_cons, List.map_flatten, List.map_replicate, totalTime_passes,
    List.map_cons, List.map_cons, List.map_nil, pair, Nat.mul_add, Nat.succ_mul]
  simp only
  omega

theorem Ramp.wait_cues (r : Ramp) (c : Channel) :
    (r.cues c 1).map Cue.wait = List.replicate r.size r.duration := by
  have := r.size_pos
  rw [List.eq_replicate_iff]
  constructor
  · simp only [cues, List.length_map, List.length_append, List.length_drop, length_terms,
      List.length_singleton]
    omega
  · simp only [cues, List.map_append, List.map_map, List.mem_append, List.mem_map,
      Function.comp_apply, List.map_cons, List.map_nil, List.mem_singleton]
    rintro _ (⟨f, -, rfl⟩ | rfl) <;> rfl

namespace MelodyPlayer

variable {p : MelodyPlayer} {b : Playback} {n : Note}

/-- A melody moves on with the waits of its notes. -/
theorem tick_playback (hp : p.playback = some b) (hb : b.OnNote n) (leases : Leases)
    (now : UInt32) :
    let q := (p.tick leases now).player
    (Clock.elapsed now b.since < p.wait n ∧ q.playback = some b) ∨
      (¬ Clock.elapsed now b.since < p.wait n ∧ b.remaining = [] ∧ q.playback = none) ∨
      (¬ Clock.elapsed now b.since < p.wait n ∧ ∃ c m, q.playback = some c ∧ c.OnNote m ∧
        c.since = now ∧ b.remaining = m :: c.remaining) := by
  intro q
  have settled := (settle_frame leases now p).1.trans hp
  have hq : q = _ := (tick_of_playback leases now hp).1
  rw [hq, ← settle_wait leases now]
  obtain ⟨hw, ha⟩ | ⟨hw, hr, ha⟩ | ⟨hw, c, m, hc, hs, hr, ha⟩ :=
    advance_cases (p.settle leases now).leases now settled hb
  · exact .inl ⟨hw, by rw [ha]; exact settled⟩
  · exact .inr (.inl ⟨hw, hr, by rw [ha]; rfl⟩)
  · exact .inr (.inr ⟨hw, c, m, by rw [ha, (play_frame ..).1], hc, hs, hr⟩)

theorem tick_wait (p : MelodyPlayer) (leases : Leases) (now : UInt32) (n : Note) :
    (p.tick leases now).player.wait n = p.wait n := by
  unfold wait
  rw [(tick_frame leases now p).1]

end MelodyPlayer

namespace Player

/-- The pace of a player: since when it waits, how long, and how long it will wait after that. -/
inductive Awaits : Player → Pace → Prop
  | tone {p : TonePlayer} {h : Hold} (hold : p.hold = some h) :
      Awaits (.tone p) ⟨h.since, [h.duration]⟩
  | melody {p : MelodyPlayer} {b : Playback} {n : Note} (playback : p.playback = some b)
      (onNote : b.OnNote n) : Awaits (.melody p) ⟨b.since, (n :: b.remaining).map p.wait⟩
  | alert {p : AlertPlayer} {w : Pattern} {c : Channel} {s : Sheet} (beeps : p.Beeps w c s) :
      Awaits (.alert p) s.pace
  | sweep {p : SweepPlayer} {r : Ramp} {c : Channel} {s : Sheet} (step : r.step.toInt ≠ 0)
      (sweeps : p.Sweeps r c s) : Awaits (.sweep p) s.pace
  | siren {p : SirenPlayer} {a : Alternation} (alternation : p.alternation = some a) :
      Awaits (.siren p) ⟨a.since, [a.wail.total]⟩
  | idle {p : Player} {since : UInt32} (idle : p.isActive = false) : Awaits p ⟨since, []⟩

variable {p : Player} {s : Pace}

theorem Awaits.idle_iff (h : p.Awaits s) : p.isActive = false ↔ s.waits = [] := by
  cases h with
  | tone hold => simp [isActive, TonePlayer.isActive, hold]
  | melody playback => simp [isActive, MelodyPlayer.isActive, playback]
  | alert beeps => simp [isActive, beeps.idle_iff, Sheet.pace]
  | sweep _ sweeps => simp [isActive, sweeps.idle_iff, Sheet.pace]
  | siren alternation => simp [isActive, SirenPlayer.isActive, alternation]
  | idle idle => simp [idle]

theorem tone_tick_awaits {p : TonePlayer} {h : Hold} (hold : p.hold = some h) (leases : Leases)
    (now : UInt32) :
    Awaits (.tone (p.tick leases now).player) (Pace.tick ⟨h.since, [h.duration]⟩ now) := by
  obtain ⟨ht, ho⟩ | ⟨ht, held, hh, ho⟩ := p.tick_cases leases now
  · have early : Clock.elapsed now h.since < h.duration := by simpa [Hold.isOver] using ho h hold
    rw [ht, Pace.tick_early [] early]
    exact .tone hold
  · obtain rfl := Option.some.inj (hh.symm.trans hold)
    have late : ¬ Clock.elapsed now held.since < held.duration := by
      simpa [Hold.isOver] using ho
    rw [ht, Pace.tick_late [] late]
    exact .idle rfl

theorem siren_tick_awaits {p : SirenPlayer} {a : Alternation} (alternation : p.alternation = some a)
    (leases : Leases) (now : UInt32) :
    Awaits (.siren (p.tick leases now).player) (Pace.tick ⟨a.since, [a.wail.total]⟩ now) := by
  obtain ⟨ht, hw⟩ | ⟨b, hb, hw, -, ht⟩ | ⟨b, hb, hw, ht⟩ := p.tick_cases leases now
  · rw [ht, Pace.tick_early [] (hw a alternation).1]
    exact .siren alternation
  · obtain rfl := Option.some.inj (hb.symm.trans alternation)
    -- The flipped siren still waits for the same end.
    rw [ht, Pace.tick_early [] hw]
    exact .siren (a := b.flip now) rfl
  · obtain rfl := Option.some.inj (hb.symm.trans alternation)
    rw [ht, Pace.tick_late [] (UInt32.not_lt.mpr hw)]
    exact .idle rfl

theorem melody_tick_awaits {p : MelodyPlayer} {b : Playback} {n : Note}
    (playback : p.playback = some b) (onNote : b.OnNote n) (leases : Leases) (now : UInt32) :
    Awaits (.melody (p.tick leases now).player)
      (Pace.tick ⟨b.since, (n :: b.remaining).map p.wait⟩ now) := by
  have waits : (p.tick leases now).player.wait = p.wait :=
    funext (p.tick_wait leases now)
  rw [List.map_cons]
  obtain ⟨hw, hq⟩ | ⟨hw, hr, hq⟩ | ⟨hw, c, m, hq, hc, rfl, hr⟩ :=
    MelodyPlayer.tick_playback playback onNote leases now
  · rw [Pace.tick_early _ hw, ← List.map_cons, ← waits]
    exact .melody hq onNote
  · rw [Pace.tick_late _ hw, hr]
    exact .idle (by simp [isActive, MelodyPlayer.isActive, hq])
  · rw [Pace.tick_late _ hw, hr, ← waits]
    exact .melody hq hc

/-- A tick finds a wait over when the clock says so, and not before. -/
theorem Awaits.tick (h : p.Awaits s) (leases : Leases) (now : UInt32) :
    (p.tick leases now).player.Awaits (s.tick now) := by
  cases h with
  | tone hold => exact tone_tick_awaits hold leases now
  | melody playback onNote => exact melody_tick_awaits playback onNote leases now
  | alert beeps =>
    obtain ⟨t, ht, hpace⟩ := (AlertPlayer.beeps_leads _ _).pace beeps leases now
    rw [← hpace]
    exact .alert ht
  | sweep step sweeps =>
    obtain ⟨t, ht, hpace⟩ := (SweepPlayer.sweeps_leads _ step).pace sweeps leases now
    rw [← hpace]
    exact .sweep step ht
  | siren alternation => exact siren_tick_awaits alternation leases now
  | idle idle =>
    rw [tick_idle p leases now idle]
    exact .idle idle

theorem tone_start_awaits {p : TonePlayer} {leases : Leases} {now frequency duration : UInt32}
    (accepted : (p.start leases now frequency duration).verdict = .ok ()) :
    Awaits (.tone (p.start leases now frequency duration).player) ⟨now, [duration]⟩ := by
  obtain ⟨-, lease, t, entered⟩ := Attempt.entered accepted
  rw [TonePlayer.start, entered]
  exact .tone (h := ⟨frequency, duration, now⟩) rfl

theorem siren_start_awaits {p : SirenPlayer} {leases : Leases} {now : UInt32} {w : Wail}
    (accepted : (p.start leases now w).verdict = .ok ()) :
    Awaits (.siren (p.start leases now w).player) ⟨now, [w.total]⟩ := by
  obtain ⟨-, lease, t, entered⟩ := Attempt.entered accepted
  rw [SirenPlayer.start, entered]
  exact .siren (a := ⟨w, w.interval p.settings.sirenDivisions, now, now, true⟩) rfl

theorem melody_start_awaits {p : MelodyPlayer} {leases : Leases} {now : UInt32} {m : Melody}
    {repeats : UInt8} (accepted : (p.start leases now m repeats).verdict = .ok ()) :
    ∃ waits, Awaits (.melody (p.start leases now m repeats).player) ⟨now, waits⟩ ∧
      ∀ step, totalTime step waits = m.time p.settings.settleMargin step repeats := by
  obtain ⟨lease, t, n, notices, onNote, entered⟩ := MelodyPlayer.start_enters leases now accepted
  rw [entered]
  have playing := MelodyPlayer.play_frame t now
    { p with playback := some ⟨m, 0, 0, max repeats 1, now⟩, lease := some lease, counted := 0 } n
  refine ⟨_, .melody playing.1 onNote, fun step => ?_⟩
  rw [MelodyPlayer.remaining_first m repeats now onNote, List.map_flatten, List.map_replicate,
    totalTime_passes, Melody.time, totalTime, List.map_map]
  congr 3
  funext note
  rw [Function.comp_apply, MelodyPlayer.toNat_wait, playing.2.2]
  rfl

theorem alert_start_awaits {p : AlertPlayer} {leases : Leases} {now : UInt32} {w : Pattern}
    (accepted : (p.start leases now w).verdict = .ok ()) :
    ∃ waits, Awaits (.alert (p.start leases now w).player) ⟨now, waits⟩ ∧
      ∀ step, totalTime step waits = w.count.toNat * roundUp step w.duration.toNat +
        (w.count.toNat - 1) * roundUp step w.lapse.toNat := by
  obtain ⟨begun, -⟩ := AlertPlayer.start_beeps accepted
  refine ⟨_, .alert begun, fun step => ?_⟩
  rw [Pattern.totalTime_cues, Pattern.pred_count_succ (Attempt.entered accepted).1]

theorem sweep_start_awaits {p : SweepPlayer} {leases : Leases} {now : UInt32} {r : Ramp}
    (accepted : (p.start leases now r).verdict = .ok ()) :
    ∃ waits, Awaits (.sweep (p.start leases now r).player) ⟨now, waits⟩ ∧
      ∀ step, totalTime step waits = r.size * roundUp step r.duration.toNat := by
  obtain ⟨hstep, begun, -⟩ := SweepPlayer.start_sweeps accepted
  refine ⟨_, .sweep hstep begun, fun step => ?_⟩
  rw [Ramp.wait_cues, totalTime]
  simp

/-- A start that is let in waits for what the request's time is made of. -/
theorem start?_awaits {p : Player} {leases : Leases} {now : UInt32} {request : Request}
    {attempt : Attempt Player} (started : p.start? leases now request = some attempt)
    (accepted : attempt.verdict = .ok ()) :
    ∃ waits, attempt.player.Awaits ⟨now, waits⟩ ∧
      ∀ step, totalTime step waits = request.time p.settings step := by
  cases request with
  | tone frequency duration =>
    cases p <;> cases started
    exact ⟨_, tone_start_awaits accepted, fun step => by simp [totalTime, Request.time]⟩
  | melody m repeats =>
    cases p <;> cases started
    exact melody_start_awaits accepted
  | tune source repeats =>
    cases p with
    | melody p =>
      cases started
      simp only [MelodyPlayer.startTune, Request.time, settings] at accepted ⊢
      cases hr : Tune.read p.settings source with
      | error error =>
        simp only [hr] at accepted
        cases accepted
      | ok read =>
        simp only [hr] at accepted ⊢
        exact melody_start_awaits accepted
    | _ => cases started
  | alert w =>
    cases p <;> cases started
    exact alert_start_awaits accepted
  | sweep r =>
    cases p <;> cases started
    exact sweep_start_awaits accepted
  | siren w =>
    cases p <;> cases started
    exact ⟨_, siren_start_awaits accepted, fun step => by simp [totalTime, Request.time]⟩

/-- Players keep the pace of what they await. -/
theorem machine_paced :
    machine.Paced fun (d : Driven) s => d.player.Awaits s where
  idle_iff h := h.idle_iff
  tick now h := h.tick _ now

/-- Whatever is asked for, a start that is let in and a run of ticks until the player is idle take
exactly the time of the request: each wait rounded up to whole steps, and at least one. -/
theorem runUntilIdle_takes (p : Player) (leases : Leases) (recording : Recording)
    (request : Request) {attempt : Attempt Player}
    (started : p.start? leases recording.now request = some attempt)
    (accepted : attempt.verdict = .ok ()) (step limit : UInt32)
    (enough : request.time p.settings (max step.toNat 1) ≤ limit.toNat) :
    let time := request.time p.settings (max step.toNat 1)
    let run := attempt.player.runUntilIdle attempt.leases step limit
      (recording.performAll attempt.commands)
    run.spent.toNat = time ∧ run.recording.now = recording.now + UInt32.ofNat time ∧
      run.state.player.isActive = false := by
  intro time run
  obtain ⟨waits, awaits, total⟩ := start?_awaits started accepted
  obtain ⟨spent, clock, idle⟩ : run.spent.toNat = totalTime (max step.toNat 1) waits ∧
      run.recording.now = (recording.performAll attempt.commands).now + run.spent ∧
      run.state.player.isActive = false :=
    machine_paced.run_takes (by rw [Recording.now_performAll]; exact awaits)
      (by rwa [total])
  have spent : run.spent.toNat = time := spent.trans (total _)
  refine ⟨spent, ?_, idle⟩
  rw [clock, Recording.now_performAll, ← spent, UInt32.ofNat_toNat]

/-- Three tones of 100 with gaps of no length, ticked every 7, on a clock that wraps. A tone takes
105 and a gap a whole step, and the limit is just enough. -/
theorem runUntilIdle_takes_beeping :
    let p : Player := .alert { channel := ⟨1⟩ }
    let recording : Recording := { now := 0xFFFFFF00 }
    let request : Request := .alert ⟨3, 880, 100, 0⟩
    ∃ attempt, p.start? {} recording.now request = some attempt ∧ attempt.verdict = .ok () ∧
      let run := attempt.player.runUntilIdle attempt.leases 7 329
        (recording.performAll attempt.commands)
      run.spent.toNat = 3 * 105 + 2 * 7 ∧ run.recording.now = 73 ∧
        run.state.player.isActive = false := by
  intro p recording request
  have time : request.time p.settings 7 = 329 := by decide
  obtain ⟨spent, clock, idle⟩ :=
    runUntilIdle_takes p {} recording request rfl rfl 7 329 (Nat.le_of_eq time)
  exact ⟨_, rfl, rfl, spent.trans time, clock.trans (by decide), idle⟩

end Player

end Piezo
