import Piezo.Proofs.Scene

/-!
Separation: what is done on other channels makes no difference to a channel.

A script goes through a session, and what is left of it for one channel through another one. The
two sessions stay alike in all that there is of the channel.
-/

namespace Piezo

namespace Session

/-- What is left of a step for a channel. Of a step for another channel nothing is left, but that a
lease put into a slot takes the place of the channel's own, which is given back. -/
def left? (s : Session) (c : Channel) (step : Step) : Option Step :=
  match s.channel? step with
  | none => some step
  | some d =>
    if d = c then some step
    else if s.leases.isLeased d then none
    else (step.slot?.filter fun slot => (s.lent? slot).any (·.lease.channel = c)).map .release

/-- What is left for a channel of a script that a session goes through. -/
def left (c : Channel) : Session → List Step → List Step
  | _, [] => []
  | s, step :: rest =>
    (s.left? c step).toList ++ (s.step? step).elim [] fun outcome => outcome.session.left c rest

/-- The second session is alike in all that there is of a channel, and has no leases in its slots
but that channel's. -/
structure Alone (c : Channel) (s s' : Session) : Prop where
  whole : s.Shared
  part : s'.Shared
  scene : s'.scene c = s.scene c
  kept : ∀ k ∈ s'.kept, k.lease.channel = c

end Session

/-- The outcomes of a step in two such sessions. -/
structure Outcome.Alike (c : Channel) (o o' : Outcome) : Prop where
  scene : o'.session.scene c = o.session.scene c
  kept : ∀ k ∈ o'.session.kept, k.lease.channel = c
  answer : o'.answer.uncounted = o.answer.uncounted
  notices : o'.notices = o.notices

namespace Session

variable {s s' : Session} {c : Channel} {i slot : Nat} {seat : Seat} {step : Step} {o : Outcome}
  {f : Player → Leases → Turn Player}

namespace Alone

theorem leased (a : Alone c s s') : s'.leases.isLeased c = s.leases.isLeased c :=
  congrArg Scene.isLeased a.scene

theorem now (a : Alone c s s') : s'.now = s.now :=
  congrArg (fun sc : Scene => sc.board.getD sc.now) a.scene

/-- A seat on the channel is the same in both. -/
theorem seat_eq (a : Alone c s s') (hs : s.seats[i]? = some seat) (hc : seat.channel = c) :
    s'.seats[i]? = some seat := by
  have hm : (s'.scene c).seats[i]? = some (some seat) := by
    rw [a.scene]
    simp [Session.scene, hs, Seat.on?, hc]
  simp only [Session.scene, Array.getElem?_map, Option.map_eq_some_iff] at hm
  obtain ⟨seat', hs', ho⟩ := hm
  unfold Seat.on? at ho
  split at ho
  · cases ho
    exact hs'
  · cases ho

/-- A slot has the same lease in both if it is the channel's. -/
theorem lent? (a : Alone c s s') (slot : Nat) :
    s'.lent? slot = (s.lent? slot).filter (·.lease.channel = c) := by
  have hk : s'.kept = (s.scene c).kept := by
    rw [← a.scene]
    exact (List.filter_eq_self.mpr fun k hk => by simpa using a.kept k hk).symm
  rw [Session.lent?, hk]
  exact a.whole.tidy.find?_filter slot _

/-- After turns that agree the scenes are the same again. -/
theorem apply (a : Alone c s s') (hs : s.seats[i]? = some seat) (hc : seat.channel = c)
    {turn turn' : Turn Player} (k : turn.Agree c turn') :
    (s'.apply i turn').scene c = (s.apply i turn).scene c := by
  rw [scene_apply a.part (a.seat_eq hs hc), scene_apply a.whole hs, k.commands, k.player,
    k.leased, a.scene]

theorem call (a : Alone c s s') (hs : s.seats[i]? = some seat) (hc : seat.channel = c)
    (k : Player.IsCall f) :
    (s'.call i f).1.scene c = (s.call i f).1.scene c ∧ (s'.call i f).2 = (s.call i f).2 := by
  rw [a.whole.call_eq hs, a.part.call_eq (a.seat_eq hs hc)]
  cases hp : seat.player with
  | none => exact ⟨a.scene, rfl⟩
  | some p =>
    have agree := k.agree p c _ _ a.leased
    exact ⟨a.apply hs hc agree, agree.notices⟩

theorem called (a : Alone c s s') (hs : s.seats[i]? = some seat) (hc : seat.channel = c)
    (k : Player.IsCall f) :
    Outcome.Alike c { session := (s.call i f).1, notices := (s.call i f).2 }
      { session := (s'.call i f).1, notices := (s'.call i f).2 } where
  scene := (a.call hs hc k).1
  kept := by
    rw [kept_call]
    exact a.kept
  answer := rfl
  notices := (a.call hs hc k).2

theorem start (a : Alone c s s') {request : Request}
    (hd : ∀ d, s.channel? (.start i request) = some d → d = c)
    (ho : s.step? (.start i request) = some o) :
    ∃ o', s'.step? (.start i request) = some o' ∧ o.Alike c o' := by
  obtain ⟨seat, p, attempt, hs, hp, ha, rfl⟩ := a.whole.start_cases ho
  have hc : seat.channel = c := hd _ (by simp [channel?, hs])
  have hpc : p.channel = c := ((a.whole.player hs hp).2.2).trans hc
  have rel := p.start?_agree a.leased s.now hpc request
  rw [ha] at rel
  cases hb : p.start? s'.leases s.now request with
  | none =>
    rw [hb] at rel
    cases rel
  | some attempt' =>
    rw [hb] at rel
    obtain ⟨agree⟩ := rel
    refine ⟨_, a.part.start_of_attempt (a.seat_eq hs hc) hp (a.now ▸ hb), ?_⟩
    constructor
    case scene => exact a.apply hs hc agree.toAgree
    case kept =>
      rw [started, kept_apply]
      exact a.kept
    case answer => simp only [started, agree.verdict]
    case notices => exact agree.notices

theorem drop (a : Alone c s s') (hs : s.seats[i]? = some seat) (hc : seat.channel = c) :
    Outcome.Alike c { session := s.drop i } { session := s'.drop i } where
  scene := by
    have hs' := a.seat_eq hs hc
    rw [a.whole.drop_eq hs, a.part.drop_eq hs']
    cases seat.player with
    | none => exact a.scene
    | some p => rw [scene_dropped, scene_dropped, p.drop_agree a.leased, a.scene]
  kept := by
    rw [kept_drop]
    exact a.kept
  answer := rfl
  notices := rfl

theorem release (a : Alone c s s') (hc : ∀ k, s.lent? slot = some k → k.lease.channel = c) :
    Outcome.Alike c { session := (s.empty slot).1, answer := .released (s.empty slot).2 }
      { session := (s'.empty slot).1, answer := .released (s'.empty slot).2 } where
  scene := by rw [scene_empty a.part.tidy, scene_empty a.whole.tidy, a.scene]
  kept k hk := a.kept k (kept_empty_subset s' slot hk)
  answer := by
    have hl : s'.lent? slot = s.lent? slot := by
      rw [a.lent?]
      cases hl : s.lent? slot with
      | none => rfl
      | some k => simp [Option.filter, hc k hl]
    simp only [empty_snd, hl]
  notices := rfl

theorem lend (a : Alone c s s') (hslot : step.slot? = some slot) (hd : s.channel? step = some c)
    (hd' : s'.channel? step = some c) (ho : s.step? step = some o) :
    ∃ o', s'.step? step = some o' ∧ o.Alike c o' := by
  obtain ⟨hl, he⟩ | ⟨hl, t, answer, ht, ha, he⟩ := lend_cases a.whole hslot hd <;>
    obtain ⟨hl', he'⟩ | ⟨hl', t', answer', ht', ha', he'⟩ := lend_cases a.part hslot hd' <;>
    cases ho.symm.trans he
  · exact ⟨_, he', a.scene, a.kept, rfl, rfl⟩
  · rw [a.leased, hl] at hl'
    cases hl'
  · rw [a.leased, hl] at hl'
    cases hl'
  · refine ⟨_, he', ?_, ?_, ha'.trans ha.symm, rfl⟩
    · rw [scene_lend a.part.tidy ht', scene_lend a.whole.tidy ht, a.scene]
    · intro k hk
      rcases List.mem_cons.mp hk with rfl | hk
      · rfl
      · exact a.kept k (kept_empty_subset { s' with leases := t' } slot hk)

/-- A step for the channel, or for all of them, goes alike in both. -/
theorem outcome (a : Alone c s s') (simple : step.IsSimple)
    (hd : ∀ d, s.channel? step = some d → d = c) (ho : s.step? step = some o) :
    ∃ o', s'.step? step = some o' ∧ o.Alike c o' := by
  cases step with
  | loop => cases simple
  | run => cases simple
  | advance ms =>
    cases ho
    exact ⟨_, rfl, by simp only [scene_advance, a.scene], by rw [kept_advance]; exact a.kept,
      rfl, rfl⟩
  | advanceOutput ms =>
    cases ho
    exact ⟨_, rfl, congrArg (fun sc : Scene => { sc with now := sc.now + ms }) a.scene, a.kept,
      rfl, rfl⟩
  | setTime now =>
    cases ho
    exact ⟨_, rfl, congrArg (fun sc : Scene => { sc with now }) a.scene, a.kept, rfl, rfl⟩
  | join kind channel own settings =>
    cases ho
    exact ⟨_, rfl, by simp only [scene_join, a.scene], a.kept, rfl, rfl⟩
  | clear =>
    cases ho
    exact ⟨_, rfl, congrArg (fun sc : Scene => { sc with events := [] }) a.scene, a.kept, rfl, rfl⟩
  | command command =>
    cases ho
    exact ⟨_, rfl, by simp only [scene_perform, a.scene], a.kept, rfl, rfl⟩
  | start i request => exact a.start hd ho
  | tick i =>
    obtain ⟨seat, hs, ⟨⟩⟩ := Option.bind_eq_some_iff.mp ho
    have hc : seat.channel = c := hd _ (by simp [channel?, hs])
    refine ⟨_, by simp only [step?, a.seat_eq hs hc]; rfl, ?_⟩
    have k := a.called hs hc (Player.isCall_tick s.now)
    rw [← tick_eq_call, ← a.now, ← tick_eq_call] at k
    exact k
  | stop i =>
    obtain ⟨seat, hs, ⟨⟩⟩ := Option.bind_eq_some_iff.mp ho
    have hc : seat.channel = c := hd _ (by simp [channel?, hs])
    refine ⟨_, by simp only [step?, a.seat_eq hs hc]; rfl, ?_⟩
    exact a.called hs hc Player.isCall_stop
  | drop i =>
    obtain ⟨seat, hs, ⟨⟩⟩ := Option.bind_eq_some_iff.mp ho
    have hc : seat.channel = c := hd _ (by simp [channel?, hs])
    refine ⟨_, by simp only [step?, a.seat_eq hs hc]; rfl, ?_⟩
    exact a.drop hs hc
  | lease channel slot =>
    cases hd channel rfl
    exact a.lend rfl rfl rfl ho
  | leaseOwn i slot =>
    obtain ⟨seat, hs, -⟩ := Option.bind_eq_some_iff.mp ho
    have hc : seat.channel = c := hd _ (by simp [channel?, hs])
    refine a.lend rfl ?_ ?_ ho
    · simp [channel?, hs, hc]
    · simp [channel?, a.seat_eq hs hc, hc]
  | release slot =>
    cases ho
    refine ⟨_, rfl, a.release fun k hk => hd _ ?_⟩
    simp [channel?, hk]

end Alone

/-- A step is left whole, or leaves nothing and does nothing to the scene, or leaves the giving back
of the lease whose place it takes. -/
theorem left?_cases (h : s.Shared) (simple : step.IsSimple) (ho : s.step? step = some o) :
    (s.left? c step = some step ∧ ∀ d, s.channel? step = some d → d = c) ∨
      (s.left? c step = none ∧ o.session.scene c = s.scene c) ∨
      ∃ slot, s.left? c step = some (.release slot) ∧ step.slot? = some slot ∧
        o.session.scene c = (s.scene c).empty slot := by
  unfold left?
  cases hd : s.channel? step with
  | none => exact .inl ⟨rfl, by simp⟩
  | some d =>
    by_cases hne : d = c
    · exact .inl ⟨if_pos hne, by simp [hne]⟩
    · have hs := scene_step_of_ne h simple hd hne ho
      simp only [if_neg hne]
      right
      cases hl : s.leases.isLeased d with
      | true => exact .inl ⟨rfl, by simpa [hl] using hs⟩
      | false =>
        simp only [hl, Bool.false_eq_true, if_false] at hs ⊢
        cases hslot : step.slot? with
        | none => exact .inl ⟨rfl, by simpa [hslot] using hs⟩
        | some slot =>
          rw [hslot] at hs
          by_cases hk : (s.lent? slot).any (·.lease.channel = c) = true
          · exact .inr ⟨slot, by simp [Option.filter, hk], rfl, hs⟩
          · refine .inl ⟨by simp [Option.filter, hk], hs.trans (empty_scene_of_ne h.tidy ?_)⟩
            intro k hk' hc
            simp [hk', hc] at hk

/-- The sessions stay alike for the channel while one goes through a script and the other through
what is left of it. -/
theorem Alone.through (a : Alone c s s') {script : List Step}
    (simple : ∀ step ∈ script, step.IsSimple) {u : Session} (done : s.perform? script = some u) :
    ∃ u', s'.perform? (s.left c script) = some u' ∧ Alone c u u' := by
  induction script generalizing s s' with
  | nil =>
    cases done
    exact ⟨s', rfl, a⟩
  | cons step rest ih =>
    obtain ⟨o, ho, hrest⟩ := Option.bind_eq_some_iff.mp done
    have hstep := simple step List.mem_cons_self
    have simple := fun step hm => simple step (List.mem_cons_of_mem _ hm)
    have whole := shared_step a.whole hstep ho
    have hleft : s.left c (step :: rest) = (s.left? c step).toList ++ o.session.left c rest := by
      simp [left, ho]
    obtain ⟨hl, hd⟩ | ⟨hl, hs⟩ | ⟨slot, hl, -, hs⟩ := left?_cases (c := c) a.whole hstep ho <;>
      rw [hleft, hl]
    · obtain ⟨o', ho', k⟩ := a.outcome hstep hd ho
      have part := shared_step a.part hstep ho'
      obtain ⟨u', hu, k⟩ := ih ⟨whole, part, k.scene, k.kept⟩ simple hrest
      exact ⟨u', by simpa [perform?, ho'] using hu, k⟩
    · exact ih ⟨whole, a.part, a.scene.trans hs.symm, a.kept⟩ simple hrest
    · have released : s'.step? (.release slot) =
          some { session := (s'.empty slot).1, answer := .released (s'.empty slot).2 } := rfl
      have part := shared_step a.part (by trivial) released
      have scene : (s'.empty slot).1.scene c = o.session.scene c := by
        rw [scene_empty a.part.tidy, a.scene, hs]
      have kept : ∀ k ∈ (s'.empty slot).1.kept, k.lease.channel = c :=
        fun k hk => a.kept k (kept_empty_subset s' slot hk)
      obtain ⟨u', hu, k⟩ := ih ⟨whole, part, scene, kept⟩ simple hrest
      exact ⟨u', hu, k⟩

theorem alone_empty (c : Channel) (recording : Recording) (board : Option UInt32) :
    Alone c { recording, board } { recording, board } := by
  have h : ({ recording, board } : Session).Shared := by
    constructor
    case accounted => exact accounted_empty recording board
    case tables => simp
    case channels => simp
    case tidy => exact ⟨by simp, by simp⟩
  exact ⟨h, h, rfl, by simp⟩

/-- Leaving out of a script all that is for other channels makes no difference to a channel: its
scene after the script is the same, it sounds the same, and every further step that is for it, or
for all channels, has the same answer and notices and leads to the same scene. -/
theorem other_channels_unnoticed (c : Channel) (recording : Recording) (board : Option UInt32)
    {script : List Step} (simple : ∀ step ∈ script, step.IsSimple)
    (done : ({ recording, board } : Session).perform? script = some s) :
    ∃ s', ({ recording, board } : Session).perform? (left c { recording, board } script) = some s' ∧
      s'.scene c = s.scene c ∧
      (∀ rate amplitude, Wave.render s'.recording c rate amplitude =
        Wave.render s.recording c rate amplitude) ∧
      ∀ step o, step.IsSimple → s.left? c step = some step → s.step? step = some o →
        ∃ o', s'.step? step = some o' ∧ o'.answer.uncounted = o.answer.uncounted ∧
          o'.notices = o.notices ∧ o'.session.scene c = o.session.scene c := by
  obtain ⟨s', hs', a⟩ := (alone_empty c recording board).through simple done
  have now : s'.recording.now = s.recording.now := congrArg Scene.now a.scene
  have events : Wave.channelEvents s'.recording c = Wave.channelEvents s.recording c :=
    congrArg Scene.events a.scene
  refine ⟨s', hs', a.scene, Wave.render_congr now events, ?_⟩
  intro step o hstep hl ho
  obtain ⟨-, hd⟩ | ⟨hn, -⟩ | ⟨slot, hr, hslot, -⟩ := left?_cases (c := c) a.whole hstep ho
  · obtain ⟨o', ho', k⟩ := a.outcome hstep hd ho
    exact ⟨o', ho', k.answer, k.notices, k.scene⟩
  · rw [hn] at hl
    cases hl
  -- what takes a lease is never the giving back that is left of it
  · cases Option.some.inj (hl.symm.trans hr)
    cases hslot

/-- A tone beside a siren, and leases that are taken and put into each other's slots. -/
def crossing : List Step :=
  [.join .tone ⟨0⟩ false {}, .join .siren ⟨1⟩ false {}, .start 1 (.siren ⟨200, 400, 300⟩),
    .start 0 (.tone 440 50), .lease ⟨2⟩ 7, .lease ⟨0⟩ 8, .advance 60, .tick 1, .tick 0,
    .lease ⟨0⟩ 8, .lease ⟨3⟩ 8, .stop 1, .start 0 (.tone 523 10)]

theorem other_channels_unnoticed_amid_crossing :
    ∃ s s', ({} : Session).perform? crossing = some s ∧
      ({} : Session).perform?
        [.join .tone ⟨0⟩ false {}, .join .siren ⟨1⟩ false {}, .start 0 (.tone 440 50),
          .lease ⟨0⟩ 8, .advance 60, .tick 0, .lease ⟨0⟩ 8, .release 8,
          .start 0 (.tone 523 10)] = some s' ∧
      s'.scene ⟨0⟩ = s.scene ⟨0⟩ ∧ s.recording.sounding.get? ⟨0⟩ = some 523 ∧
      ∃ o', s'.step? (.lease ⟨0⟩ 9) = some o' ∧
        o'.answer.uncounted = .refused (.channelBusy ⟨0⟩) := by
  have simple : ∀ step ∈ crossing, step.IsSimple := by simp [crossing, Step.IsSimple]
  obtain ⟨s, o, hs, hsound, hl, ho, hbusy⟩ : ∃ s o, ({} : Session).perform? crossing = some s ∧
      s.recording.sounding.get? ⟨0⟩ = some 523 ∧
      s.left? ⟨0⟩ (.lease ⟨0⟩ 9) = some (.lease ⟨0⟩ 9) ∧ s.step? (.lease ⟨0⟩ 9) = some o ∧
      o.answer.uncounted = .refused (.channelBusy ⟨0⟩) := ⟨_, _, rfl, rfl, rfl, rfl, rfl⟩
  obtain ⟨s', hs', hscene, -, hnext⟩ := other_channels_unnoticed ⟨0⟩ {} none simple hs
  obtain ⟨o', ho', ha, -⟩ := hnext (.lease ⟨0⟩ 9) o trivial hl ho
  exact ⟨s, s', hs, hs', hscene, hsound, o', ho', ha.trans hbusy⟩

end Session

end Piezo
