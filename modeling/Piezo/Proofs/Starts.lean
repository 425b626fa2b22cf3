import Piezo.Proofs.Exclusive

/-!
Starts in a session: the first condition that fails decides, and a start that is refused leaves the
whole session as it was.
-/

namespace Piezo

namespace Session

variable {s s' : Session} {i : Nat} {p : Player} {t : Leases} {request : Request}

theorem setTable_same {seat : Seat} (hs : s.seats[i]? = some seat) :
    s.setTable i (s.tableOf seat) = s := by
  obtain ⟨hi, rfl⟩ := Array.getElem?_eq_some_iff.mp hs
  unfold setTable
  rw [hs]
  cases ho : s.seats[i].table with
  | none => simp [tableOf, ho]
  | some own =>
    have hseat : { s.seats[i] with table := some own } = s.seats[i] := by rw [← ho]
    simp [tableOf, ho, hseat, Array.setIfInBounds, hi]

theorem setPlayer_same (hp : s.player? i = some p) : s.setPlayer i (some p) = s := by
  have hseats : (s.seats.modify i fun seat => { seat with player := some p }) = s.seats := by
    apply Array.ext_getElem?
    intro j
    rw [Array.getElem?_modify]
    split
    · next hj =>
      subst hj
      cases hs : s.seats[i]? with
      | none => rfl
      | some seat =>
        have hseat : seat.player = some p := by simpa [player?, hs] using hp
        rw [Option.map_some, ← hseat]
    · rfl
  rw [setPlayer, hseats]

/-- A turn in which nothing changes leaves the session as it was. -/
theorem apply_same (hs : s.seated? i = some (p, t)) {turn : Turn Player} (hp : turn.player = p)
    (ht : turn.leases = t) (hc : turn.commands = []) : s.apply i turn = s := by
  obtain ⟨seat, hseat, ho⟩ := Option.bind_eq_some_iff.mp hs
  obtain ⟨q, hq, he⟩ := Option.bind_eq_some_iff.mp ho
  cases he
  have hplayer : s.player? i = some p := by simp [player?, hseat, hq]
  rw [apply, hp, ht, hc, setTable_same hseat, setPlayer_same hplayer]
  rfl

/-- A start has gone on: it has issued one command, on its own channel, and the player is active on
its channel's lease. -/
structure Started (s s' : Session) (i : Nat) (channel : Channel) : Prop where
  command : ∃ c, c.channel = channel ∧ s'.recording = s.recording.perform c
  seated : ∃ q u, s'.seated? i = some (q, u) ∧ q.channel = channel ∧ q.isActive = true ∧
    q.lease = some ⟨channel⟩ ∧ u.isLeased channel = true

theorem started_of_admitted (hs : s.seated? i = some (p, t)) {turn : Turn Player}
    (h : (s.apply i turn).Accounted []) (k : p.Admitted t turn) :
    Started s (s.apply i turn) i p.channel := by
  obtain ⟨hp, home, hi, ht⟩ := seated?_eq_some.mp hs
  have r := replaced_apply hi turn
  obtain ⟨c, hc, hcc, -⟩ := k.command
  have hl := k.coherent.lease_of_active k.active
  have hm := h.listed r.home_self r.player_self r.table_self k.active
  rw [k.channel] at hl hm
  constructor
  case command =>
    refine ⟨c, hcc, ?_⟩
    rw [recording_apply, hc]
    rfl
  case seated =>
    exact ⟨_, _, seated?_apply hs turn, k.channel, k.active, hl,
      by simpa [Leases.isLeased] using hm⟩

/-- The answer to a start is the attempt's verdict. -/
theorem step?_start {attempt : Attempt Player} (hs : s.seated? i = some (p, t))
    (ha : p.start? t s.now request = some attempt) :
    ∃ outcome, s.step? (.start i request) = some outcome ∧
      outcome.session = s.apply i attempt.toTurn ∧
      (attempt.verdict = .ok () → outcome.answer = .ok) ∧
      ∀ error, attempt.verdict = .error error → outcome.answer = .refused error := by
  simp only [step?, hs, ha, Option.bind_eq_bind, Option.bind_some, Option.pure_def]
  refine ⟨_, rfl, rfl, ?_, ?_⟩
  · intro hv
    simp only [hv]
  · intro error hv
    simp only [hv]

/-- A start in any session is refused by its first failing condition, the busy channel last, and
then nothing has changed; if none fails, it goes on. -/
theorem start_decided {recording : Recording} {board : Option UInt32}
    (reached : Reaches (fun _ _ => True) { recording, board } s)
    (seated : s.seated? i = some (p, t)) (kind : request.kind = p.kind) :
    ∃ outcome, s.step? (.start i request) = some outcome ∧
      match Condition.firstFailing? (p.conditions t request) with
      | some error => outcome.answer = .refused error ∧ outcome.session = s
      | none => outcome.answer = .ok ∧ Started s outcome.session i p.channel := by
  have h := reached.accounted
  obtain ⟨hp, -⟩ := seated?_eq_some.mp seated
  obtain ⟨attempt, ha⟩ := Option.isSome_iff_exists.mp ((p.isSome_start? t s.now request).mpr kind)
  have k := Player.start?_decided (h.coherent i p hp) ha
  obtain ⟨outcome, hstep, hsession, hok, herror⟩ := step?_start seated ha
  refine ⟨outcome, hstep, ?_⟩
  have hv := k.verdict
  split
  · next error he =>
    rw [(Condition.verdict_eq_error _ _).mpr he] at hv
    obtain ⟨hq, hl, hc⟩ := k.refused error hv
    exact ⟨herror error hv, hsession.trans (apply_same seated hq hl hc)⟩
  · next he =>
    rw [(Condition.verdict_eq_ok _).mpr he] at hv
    rw [hsession]
    exact ⟨hok hv, started_of_admitted seated (h.start seated ha) (k.admitted hv)⟩

/-- In the middle of a tone, a tone of no duration is refused. -/
theorem start_decided_amid_tone :
    ∃ s outcome, Reaches (fun _ _ => True) {} s ∧ s.leases.channels = [⟨1⟩, ⟨0⟩] ∧
      s.step? (.start 0 (.tone 440 0)) = some outcome ∧
      outcome.answer = .refused .zeroDuration ∧ outcome.session = s := by
  obtain ⟨s, hs, hc, hp⟩ : ∃ s, ({} : Session).perform? contention = some s ∧
      s.leases.channels = [⟨1⟩, ⟨0⟩] ∧
      s.seated? 0 = some
        (.tone { channel := ⟨0⟩, hold := some ⟨440, 100, 0⟩, lease := some ⟨⟨0⟩⟩ }, s.leases) :=
    ⟨_, rfl, rfl, rfl⟩
  have reached : Reaches (fun _ _ => True) {} s :=
    reaches_of_perform? contention .refl (fun _ _ _ => trivial) hs
  obtain ⟨outcome, ho, hd⟩ :=
    start_decided reached hp (rfl : (Request.tone 440 0).kind = .tone)
  exact ⟨s, outcome, reached, hc, ho, hd⟩

end Session

end Piezo
