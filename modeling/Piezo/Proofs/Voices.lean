import Piezo.Proofs.Chord
import Piezo.Proofs.Exclusive

/-!
Voices: where players on one table are all that drives an output, what sounds on a channel is what
the active player on it has it sound, and nothing if there is none.
-/

namespace Piezo

namespace Soundings

theorem get?_foldl_of_ne (s : Soundings) {commands : List Command} {other : Channel}
    (h : ∀ c ∈ commands, c.channel ≠ other) :
    (commands.foldl perform s).get? other = s.get? other := by
  induction commands generalizing s with
  | nil => rfl
  | cons c rest ih =>
    rw [List.foldl_cons, ih _ fun d hd => h d (List.mem_cons_of_mem _ hd), get?_perform,
      if_neg (h c List.mem_cons_self).symm]

theorem get?_foldl_getLast (s : Soundings) {commands : List Command} {last : Command}
    (hl : commands.getLast? = some last) :
    (commands.foldl perform s).get? last.channel = last.frequency? := by
  obtain ⟨before, rfl⟩ := List.getLast?_eq_some_iff.mp hl
  rw [List.foldl_append, List.foldl_cons, List.foldl_nil, get?_perform, if_pos rfl]

end Soundings

namespace Session

/-- What sounds is what the active players have sound. -/
structure Voiced (s : Session) : Prop where
  active : ∀ i p, s.player? i = some p → p.isActive = true →
    s.recording.sounding.get? p.channel = p.voice
  idle : ∀ c, (∀ i p, s.player? i = some p → p.isActive = true → p.channel ≠ c) →
    s.recording.sounding.get? c = none

/-- The players share one table of leases, and the output sounds what they have it sound. -/
structure Attuned (s : Session) : Prop where
  accounted : s.Accounted []
  shared : ∀ i home, s.home? i = some home → home = none
  voiced : s.Voiced

variable {s s' : Session} {i j : Nat} {home : Option Nat} {p q : Player} {t u : Leases}

theorem home?_of_player? (hp : s.player? i = some p) : ∃ home, s.home? i = some home := by
  obtain ⟨t, ht⟩ := seated?_of_player? hp
  obtain ⟨-, home, hi, -⟩ := seated?_eq_some.mp ht
  exact ⟨home, hi⟩

/-- On one table, at most one player on a channel is active. -/
theorem Accounted.single_shared (h : s.Accounted [])
    (shared : ∀ i home, s.home? i = some home → home = none) (hp : s.player? i = some p)
    (hq : s.player? j = some q) (ap : p.isActive = true) (aq : q.isActive = true)
    (hc : p.channel = q.channel) : i = j := by
  obtain ⟨_, hi⟩ := home?_of_player? hp
  obtain ⟨_, hj⟩ := home?_of_player? hq
  cases shared i _ hi
  cases shared j _ hj
  exact h.single rfl hi hj hp hq ap aq hc

section Replacement

variable (k : Replaced s s' i home (some q) t) (hp : s.player? i = some p)
  (hc : q.channel = p.channel)
include k hp hc

/-- Without a command, another player that is as active and has the same voice may take the seat. -/
theorem Voiced.replace_quiet (h : s.Voiced)
    (hs : s'.recording.sounding = s.recording.sounding) (hact : q.isActive = p.isActive)
    (hvoice : q.voice = p.voice) : s'.Voiced := by
  constructor
  case active =>
    intro j r hr ar
    rw [hs]
    by_cases hj : i = j
    · subst hj
      cases k.player_self.symm.trans hr
      rw [hc, hvoice]
      exact h.active i p hp (hact ▸ ar)
    · exact h.active j r (k.player_of_ne hj ▸ hr) ar
  case idle =>
    intro c hn
    rw [hs]
    refine h.idle c fun j r hr ar hrc => ?_
    by_cases hj : i = j
    · subst hj
      cases hp.symm.trans hr
      exact hn i q k.player_self (hact.trans ar) (hc.trans hrc)
    · exact hn j r ((k.player_of_ne hj).trans hr) ar hrc

/-- Where no other player is active on the channel, a command may give it the voice of the player
that takes the seat. -/
theorem Voiced.replace_loud (h : s.Voiced) (hq : q.Coherent)
    (here : s'.recording.sounding.get? p.channel = q.voice)
    (elsewhere : ∀ c, c ≠ p.channel →
      s'.recording.sounding.get? c = s.recording.sounding.get? c)
    (free : ∀ j r, i ≠ j → s.player? j = some r → r.isActive = true → r.channel ≠ p.channel) :
    s'.Voiced := by
  constructor
  case active =>
    intro j r hr ar
    by_cases hj : i = j
    · subst hj
      cases k.player_self.symm.trans hr
      rw [hc]
      exact here
    · have hr : s.player? j = some r := k.player_of_ne hj ▸ hr
      rw [elsewhere _ (free j r hj hr ar)]
      exact h.active j r hr ar
  case idle =>
    intro c hn
    by_cases he : c = p.channel
    · subst he
      have hi : q.isActive = false :=
        Bool.eq_false_iff.mpr fun aq => hn i q k.player_self aq hc
      rw [here, hq.voice_of_idle hi]
    · rw [elsewhere c he]
      refine h.idle c fun j r hr ar hrc => ?_
      by_cases hj : i = j
      · subst hj
        cases hp.symm.trans hr
        exact he hrc.symm
      · exact hn j r ((k.player_of_ne hj).trans hr) ar hrc

/-- A player may be replaced after commands on its channel if the last of them gives the voice of
the new one, and there is a command only where the old or the new one is active. -/
theorem Attuned.replace (h : s.Attuned) (ha : s'.Accounted []) {commands : List Command}
    (hs : s'.recording.sounding = commands.foldl Soundings.perform s.recording.sounding)
    (on : ∀ c ∈ commands, c.channel = p.channel)
    (quiet : commands = [] → q.isActive = p.isActive ∧ q.voice = p.voice)
    (loud : ∀ c, commands.getLast? = some c →
      (p.isActive = true ∨ q.isActive = true) ∧ q.voice = c.frequency?) : s'.Attuned := by
  have shared : ∀ j home, s'.home? j = some home → home = none := by
    intro j home hj
    exact h.shared j home (by rwa [← k.homes])
  refine ⟨ha, shared, ?_⟩
  cases hl : commands.getLast? with
  | none =>
    have hnil : commands = [] := List.getLast?_eq_none_iff.mp hl
    obtain ⟨hact, hvoice⟩ := quiet hnil
    exact h.voiced.replace_quiet k hp hc (by rw [hs, hnil]; rfl) hact hvoice
  | some last =>
    obtain ⟨hact, hvoice⟩ := loud last hl
    have hlast : last.channel = p.channel := on last (List.mem_of_getLast? hl)
    refine h.voiced.replace_loud k hp hc (ha.coherent i q k.player_self) ?_ ?_ ?_
    · rw [hs, ← hlast, Soundings.get?_foldl_getLast _ hl, hvoice]
    · intro c hne
      rw [hs]
      exact Soundings.get?_foldl_of_ne _ fun d hd he => hne (he.symm.trans (on d hd))
    -- the channel is the player's own before or after, so no other player is active on it
    · intro j r hj hr ar he
      rcases hact with ap | aq
      · exact hj (h.accounted.single_shared h.shared hp hr ap ar he.symm)
      · have hr : s'.player? j = some r := (k.player_of_ne hj).trans hr
        exact hj (ha.single_shared shared k.player_self hr aq ar (hc.trans he.symm))

end Replacement

theorem Attuned.proper (h : s.Attuned) (hs : s.seated? i = some (p, t)) {turn : Turn Player}
    (k : p.Coherent → p.Listed t → p.Proper t turn) : (s.apply i turn).Attuned := by
  obtain ⟨hp, home, hi, -⟩ := seated?_eq_some.mp hs
  obtain ⟨k, ha⟩ := h.accounted.proper hs k
  refine h.replace (replaced_apply hi turn) hp k.channel ha ?_ k.commands k.quiet ?_
  · rw [recording_apply, Recording.sounding_performAll]
  · intro c hc
    obtain ⟨ap, hv⟩ := k.loud c hc
    exact ⟨.inl ap, hv⟩

theorem Attuned.tick (h : s.Attuned) (i : Nat) : (s.tick i).1.Attuned := by
  unfold Session.tick
  split
  · next p t hs => exact h.proper hs Player.tick_proper
  · exact h

theorem Attuned.stop (h : s.Attuned) (i : Nat) : (s.stop i).1.Attuned := by
  unfold Session.stop
  split
  · next p t hs => exact h.proper hs Player.stop_proper
  · exact h

theorem Attuned.run (h : s.Attuned) (hs : s.seated? i = some (p, t)) (step limit : UInt32) :
    ({ (s.setTable i (p.runUntilIdle t step limit s.recording).state.leases).setPlayer i
        (some (p.runUntilIdle t step limit s.recording).state.player) with
      recording := (p.runUntilIdle t step limit s.recording).recording } : Session).Attuned := by
  obtain ⟨hp, home, hi, ht⟩ := seated?_eq_some.mp hs
  obtain ⟨commands, k, hr⟩ := Player.runUntilIdle_proper (h.accounted.coherent i p hp)
    (h.accounted.listed hi hp ht) step limit s.recording
  refine h.replace ((replaced_setPlayer hi _ _).withRecording _) hp k.channel
    (h.accounted.run hs step limit _) hr.sounding k.commands k.quiet ?_
  intro c hc
  obtain ⟨ap, hv⟩ := k.loud c hc
  exact ⟨.inl ap, hv⟩

/-- A refused start changes nothing, and one that goes on gives its command its voice. -/
theorem Attuned.start (h : s.Attuned) (hs : s.seated? i = some (p, t)) {now : UInt32}
    {request : Request} {attempt : Attempt Player}
    (ha : p.start? t now request = some attempt) : (s.apply i attempt.toTurn).Attuned := by
  obtain ⟨hp, home, hi, -⟩ := seated?_eq_some.mp hs
  have k := Player.start?_decided (h.accounted.coherent i p hp) ha
  have hsound : (s.apply i attempt.toTurn).recording.sounding =
      attempt.commands.foldl Soundings.perform s.recording.sounding := by
    rw [recording_apply, Recording.sounding_performAll]
  refine h.replace (replaced_apply hi attempt.toTurn) hp ?_ (h.accounted.start hs ha) hsound
    ?_ ?_ ?_
  all_goals cases hv : attempt.verdict with
    | ok =>
      have k := k.admitted hv
      obtain ⟨c, hc, hcc, hvoice⟩ := k.command
      simp [hc, hcc, k.channel, k.active, hvoice]
    | error error =>
      obtain ⟨hq, -, hc⟩ := k.refused error hv
      simp [hq, hc]

/-- The second session differs from the first beside its active players and its output. -/
structure Aside (s s' : Session) : Prop where
  active : ∀ i p, p.isActive = true → (s'.player? i = some p ↔ s.player? i = some p)
  homes : ∀ i home, s'.home? i = some home → home = none ∨ s.home? i = some home
  sounding : s'.recording.sounding = s.recording.sounding

theorem Aside.refl (s : Session) : Aside s s :=
  ⟨fun _ _ _ => .rfl, fun _ _ hi => .inr hi, rfl⟩

theorem Aside.trans {s'' : Session} (h : Aside s s') (k : Aside s' s'') : Aside s s'' where
  active i p ap := (k.active i p ap).trans (h.active i p ap)
  homes i home hi := (k.homes i home hi).elim .inl (h.homes i home)
  sounding := k.sounding.trans h.sounding

theorem Retabled.aside (k : Retabled s s' home u) : Aside s s' where
  active i p _ := by rw [k.players]
  homes i other hi := .inr (by rwa [← k.homes])
  sounding := by rw [k.recording]

theorem Attuned.aside (h : s.Attuned) (k : Aside s s') (ha : s'.Accounted []) : s'.Attuned where
  accounted := ha
  shared i home hi := (k.homes i home hi).elim id (h.shared i home)
  voiced := by
    constructor
    case active =>
      intro i p hp ap
      rw [k.sounding]
      exact h.voiced.active i p ((k.active i p ap).mp hp) ap
    case idle =>
      intro c hn
      rw [k.sounding]
      exact h.voiced.idle c fun i p hp ap => hn i p ((k.active i p ap).mpr hp) ap

theorem aside_giveBack (s : Session) (kept : Kept) : Aside s (s.giveBack kept) := by
  unfold giveBack
  split
  · exact (retabled_leases s _).aside
  · next i _ =>
    cases hs : s.seats[i]? with
    | none => exact .refl s
    | some seat =>
      have hi : s.home? i = some (seat.home i) := by simp [home?, hs]
      exact (retabled_setTable hi _).aside

theorem aside_kept (s : Session) (kept : List Kept) : Aside s { s with kept } :=
  ⟨fun _ _ _ => .rfl, fun _ _ hi => .inr hi, rfl⟩

theorem aside_empty (s : Session) (slot : Nat) : Aside s (s.empty slot).1 := by
  unfold empty
  split
  · next kept _ => exact (aside_kept s _).trans (aside_giveBack _ kept)
  · exact .refl s

theorem aside_keep (s : Session) (kept : Kept) : Aside s (s.keep kept) :=
  (aside_empty s kept.slot).trans (aside_kept _ _)

theorem aside_join (s : Session) {seat : Seat} (hp : seat.player = some p)
    (hi : p.isActive = false) (ht : seat.table = none) :
    Aside s { s with seats := s.seats.push seat } where
  active i q aq := by
    rw [player?_join]
    split
    · next hn =>
      have hq : s.player? i = none := by simp [player?, hn]
      have hne : p ≠ q := fun he => by rw [he, aq] at hi; cases hi
      simp [hp, hq, hne]
    · rfl
  homes i home hh := by
    rw [home?_join] at hh
    split at hh
    · cases hh
      exact .inl (by simp [Seat.home, ht])
    · exact .inr hh
  sounding := rfl

/-- Dropping an idle player is beside the active ones. -/
theorem aside_drop (s : Session) (i : Nat)
    (hi : ∀ p, s.player? i = some p → p.isActive = false) : Aside s (s.drop i) := by
  unfold drop
  split
  · next p t hs =>
    obtain ⟨hp, home, hh, -⟩ := seated?_eq_some.mp hs
    have k := replaced_setPlayer hh none (p.drop t)
    constructor
    case active =>
      intro j q aq
      rw [k.players]
      split
      · next hj =>
        subst hj
        have hne : p ≠ q := fun he => by
          have := hi p hp
          rw [he, aq] at this
          cases this
        simp [hp, hne]
      · rfl
    case homes => exact fun j other hj => .inr (by rwa [← k.homes])
    case sounding => simp [setPlayer]
  · exact .refl s

theorem aside_advance (s : Session) (ms : UInt32) : Aside s (s.advance ms) := by
  unfold advance
  split <;> exact ⟨fun _ _ _ => .rfl, fun _ _ hi => .inr hi, rfl⟩

theorem Attuned.advance (h : s.Attuned) (ms : UInt32) : (s.advance ms).Attuned :=
  h.aside (aside_advance s ms) (h.accounted.advance ms)

theorem Attuned.loop (h : s.Attuned) (ms : UInt32) (count : Nat) :
    (Session.loop ms count s).1.Attuned :=
  loop_keeps (fun _ h => h.advance ms) (fun _ i h => h.tick i) h count

/-- The steps of sessions in which players alone drive the output, on one table, and none is dropped
while it is active. -/
def ByPlayers (s : Session) : Step → Prop
  | .join _ _ own _ => own = false
  | .drop i => ∀ p, s.player? i = some p → p.isActive = false
  | .command _ => False
  | _ => True

theorem Attuned.step (h : s.Attuned) {step : Step} {outcome : Outcome} (may : s.ByPlayers step)
    (ho : s.step? step = some outcome) : outcome.session.Attuned := by
  have ha := h.accounted.step ho
  cases step <;>
    simp only [step?, Option.bind_eq_bind, Option.bind_eq_some_iff, Option.some.injEq,
      Option.pure_def] at ho
  case advance ms =>
    subst ho
    exact h.advance ms
  case advanceOutput | setTime | clear =>
    subst ho
    exact h.aside ⟨fun _ _ _ => .rfl, fun _ _ hi => .inr hi, rfl⟩ ha
  case command => cases may
  case join kind channel own settings =>
    subst ho
    cases (may : own = false)
    exact h.aside (aside_join s rfl (Player.isActive_idle kind channel settings) rfl) ha
  case start i request =>
    obtain ⟨⟨p, t⟩, hs, attempt, hattempt, rfl⟩ := ho
    exact h.start hs hattempt
  case tick i =>
    obtain ⟨_, -, rfl⟩ := ho
    exact h.tick i
  case stop i =>
    obtain ⟨_, -, rfl⟩ := ho
    exact h.stop i
  case drop i =>
    obtain ⟨_, -, rfl⟩ := ho
    exact h.aside (aside_drop s i may) ha
  case loop ms count =>
    subst ho
    exact h.loop ms count
  case run i step limit =>
    obtain ⟨⟨p, t⟩, hs, rfl⟩ := ho
    exact h.run hs step limit
  case lease channel slot =>
    split at ho
    · next lease t _ =>
      cases ho
      exact h.aside ((retabled_leases s t).aside.trans (aside_keep _ _)) ha
    · cases ho
      exact h
  case leaseOwn i slot =>
    obtain ⟨seat, hs, ho⟩ := ho
    have hi : s.home? i = some (seat.home i) := by simp [home?, hs]
    split at ho
    · next lease t _ =>
      cases ho
      exact h.aside ((retabled_setTable hi t).aside.trans (aside_keep _ _)) ha
    · cases ho
      exact h
  case release slot =>
    subst ho
    exact h.aside (aside_empty s slot) ha

theorem attuned_empty {recording : Recording} (silent : ∀ c, recording.sounding.get? c = none)
    (board : Option UInt32) : ({ recording, board } : Session).Attuned where
  accounted := accounted_empty recording board
  shared i home hi := by simp [home?] at hi
  voiced := ⟨fun i p hp _ => by simp [player?] at hp, fun c _ => silent c⟩

end Session

namespace MelodyPlayer

/-- What a melody has its channel sound is the current note, if it is anything. -/
theorem InStep.voice_eq {m : MelodyPlayer} (h : m.InStep) :
    (Player.melody m).voice = none ∨
      ∃ n, m.playback.bind Playback.note? = some n ∧
        (Player.melody m).voice = some n.frequency := by
  cases hp : m.playback with
  | none =>
    left
    simp [Player.voice, TonePlayer.frequency?, h.hold_eq_none hp]
  | some b =>
    obtain ⟨n, hb, hh | hh⟩ := h.onNote hp
    · left
      simp [Player.voice, TonePlayer.frequency?, hh]
    · by_cases hf : n.frequency = 0
      · left
        simp [Player.voice, TonePlayer.frequency?, hh, Note.hold, hf]
      · right
        exact ⟨n, hb.1, by simp [Player.voice, TonePlayer.frequency?, hh, Note.hold, hf]⟩

end MelodyPlayer

namespace Session

variable {s : Session}

/-- Where players on one table alone drive an output that was silent, a channel without an active
player is silent, and one with an active player has no other and sounds what that player has it
sound: of a melody the current note or nothing. -/
theorem output_matches_players {recording : Recording} {board : Option UInt32}
    (silent : ∀ c, recording.sounding.get? c = none)
    (reached : Reaches ByPlayers { recording, board } s) :
    (∀ c, (∀ i p, s.player? i = some p → p.isActive = true → p.channel ≠ c) →
      s.recording.sounding.get? c = none) ∧
      ∀ i p, s.player? i = some p → p.isActive = true →
        (∀ j q, s.player? j = some q → q.isActive = true → q.channel = p.channel → j = i) ∧
          s.recording.sounding.get? p.channel = p.voice ∧
          ∀ m, p = .melody m → p.voice = none ∨
            ∃ n, m.playback.bind Playback.note? = some n ∧ p.voice = some n.frequency := by
  have h : s.Attuned :=
    reached.keeps (fun _ _ _ h may ho => Attuned.step h may ho) (attuned_empty silent board)
  refine ⟨h.voiced.idle, fun i p hp ap => ⟨?_, h.voiced.active i p hp ap, ?_⟩⟩
  · exact fun j q hq aq hc => h.accounted.single_shared h.shared hq hp aq ap hc
  · rintro m rfl
    exact (h.accounted.coherent i _ hp).inner.2.voice_eq

/-- The player that is refused a channel does not silence the one that has it. -/
theorem output_matches_players_under_contention :
    ∃ s, Reaches ByPlayers {} s ∧ s.leases.isLeased ⟨0⟩ = true ∧
      s.recording.sounding.get? ⟨0⟩ = some 440 ∧ s.recording.sounding.get? ⟨2⟩ = none := by
  obtain ⟨s, hs, hl, hp, hidle⟩ : ∃ s, ({} : Session).perform? contention = some s ∧
      s.leases.isLeased ⟨0⟩ = true ∧
      s.player? 0 = some
        (.tone { channel := ⟨0⟩, hold := some ⟨440, 100, 0⟩, lease := some ⟨⟨0⟩⟩ }) ∧
      s.seats.toList.all fun seat => seat.player.all fun p => p.channel = ⟨0⟩ :=
    ⟨_, rfl, rfl, rfl, rfl⟩
  have reached : Reaches ByPlayers {} s := by
    refine reaches_of_perform? contention .refl ?_ hs
    simp [contention, ByPlayers]
  obtain ⟨quiet, voiced⟩ := output_matches_players (fun _ => rfl) reached
  refine ⟨s, reached, hl, (voiced 0 _ hp rfl).2.1, quiet ⟨2⟩ ?_⟩
  intro i p hq _ hc
  obtain ⟨seat, hseat, hplayer⟩ := Option.bind_eq_some_iff.mp hq
  have h0 := List.all_eq_true.mp hidle seat (Array.mem_toList_iff.mpr (Array.mem_of_getElem? hseat))
  simp [hplayer, hc] at h0

end Session

end Piezo
