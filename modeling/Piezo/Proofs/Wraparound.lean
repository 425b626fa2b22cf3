import Mathlib.Data.List.Forall2
import Piezo.Proofs.Seats
import Piezo.Proofs.Shift

/-!
Wrap-around: where the clock begins, and when it wraps, makes no difference to a session.

A session on a shifted clock goes through the shifted states of the original one, and a shift is
seen in nothing but the clock and the times of the events.
-/

namespace Piezo

variable (d : UInt32)

/-- A machine that does not notice a shift of its clock does not notice it in a whole run. -/
theorem Machine.resume_shift {State : Type} (m : Machine State) (f : State → State)
    (active : ∀ state, m.isActive (f state) = m.isActive state)
    (tick : ∀ state now, m.tick (f state) (now + d) =
      (f (m.tick state now).1, (m.tick state now).2))
    {step limit : UInt32} (positive : 0 < step) (run : Run State) :
    m.resume step limit positive ⟨f run.state, run.recording.shift d, run.spent⟩ =
      let run := m.resume step limit positive run
      ⟨f run.state, run.recording.shift d, run.spent⟩ := by
  induction run using Machine.resume.induct m step limit positive with
  | case1 run hgo recording state commands ht ih =>
    have hadvance := run.recording.advance_shift d step
    have hnow : (recording.shift d).now = recording.now + d := rfl
    rw [resume.eq_def m step limit positive run, resume.eq_def, if_pos hgo,
      if_pos (by simpa [active] using hgo)]
    simp only [hadvance]
    simp only [recording] at ht ih hnow
    simp only [hnow, tick, ht, Recording.performAll_shift]
    exact ih
  | case2 run hstop =>
    rw [resume.eq_def m step limit positive run, resume.eq_def, if_neg hstop,
      if_neg (by simpa [active] using hstop)]

theorem Player.runUntilIdle_shift (p : Player) (leases : Leases) (step limit : UInt32)
    (recording : Recording) :
    (p.shift d).runUntilIdle leases step limit (recording.shift d) =
      let run := p.runUntilIdle leases step limit recording
      ⟨{ run.state with player := run.state.player.shift d }, run.recording.shift d,
        run.spent⟩ := by
  refine Machine.resume_shift d Player.machine
    (fun driven => { driven with player := driven.player.shift d })
    (fun driven => driven.player.isActive_shift d) (fun driven now => ?_) _
    ⟨⟨p, leases, []⟩, recording, 0⟩
  simp only [Player.machine, Player.tick_shift]
  rfl

def Seat.shift (seat : Seat) : Seat := { seat with player := seat.player.map (Player.shift d) }

namespace Session

/-- The session as it would be if its clocks had been ahead from the beginning. -/
def shift (s : Session) : Session :=
  { s with
    seats := s.seats.map (Seat.shift d)
    recording := s.recording.shift d
    board := s.board.map (· + d) }

variable (s : Session)

theorem now_shift : (s.shift d).now = s.now + d := by
  unfold now shift
  cases s.board <;> rfl

theorem getElem?_shift (i : Nat) : (s.shift d).seats[i]? = s.seats[i]?.map (Seat.shift d) := by
  simp [shift]

theorem player?_shift (i : Nat) : (s.shift d).player? i = (s.player? i).map (Player.shift d) := by
  unfold player?
  rw [getElem?_shift]
  cases s.seats[i]? <;> rfl

theorem table?_shift (home : Option Nat) : (s.shift d).table? home = s.table? home := by
  cases home with
  | none => rfl
  | some i =>
    unfold table?
    simp only [getElem?_shift]
    cases s.seats[i]? <;> rfl

theorem seated?_shift (i : Nat) :
    (s.shift d).seated? i = (s.seated? i).map fun (p, leases) => (p.shift d, leases) := by
  unfold seated?
  rw [getElem?_shift]
  cases s.seats[i]? with
  | none => rfl
  | some seat => cases hp : seat.player <;> simp [Seat.shift, hp, tableOf, shift]

theorem advance_shift (ms : UInt32) : (s.shift d).advance ms = (s.advance ms).shift d := by
  unfold advance
  cases hb : s.board with
  | none => simp [shift, hb, Recording.advance_shift]
  | some now =>
    simp only [shift, hb, Option.map_some, Session.mk.injEq, Option.some.injEq, true_and]
    ac_rfl

theorem setTable_shift (i : Nat) (leases : Leases) :
    (s.shift d).setTable i leases = (s.setTable i leases).shift d := by
  unfold setTable
  rw [getElem?_shift]
  cases s.seats[i]? with
  | none => rfl
  | some seat =>
    have ht : (seat.shift d).table = seat.table := rfl
    simp only [Option.map_some, ht]
    split
    · simp [shift, Array.map_setIfInBounds, Seat.shift]
    · rfl

theorem setPlayer_shift (i : Nat) (p : Option Player) :
    (s.shift d).setPlayer i (p.map (Player.shift d)) = (s.setPlayer i p).shift d := by
  have hseats := map_modify (f := Seat.shift d) (g := fun seat => { seat with player := p })
    (h := fun seat => { seat with player := p.map (Player.shift d) }) (fun _ => rfl) s.seats i
  simp only [setPlayer, shift, hseats]

theorem apply_shift (i : Nat) (turn : Turn Player) :
    (s.shift d).apply i (turn.map (Player.shift d)) = (s.apply i turn).shift d := by
  have hp := setPlayer_shift d (s.setTable i turn.leases) i (some turn.player)
  rw [Option.map_some] at hp
  simp only [apply, Turn.map, setTable_shift, hp]
  simp only [shift, Recording.performAll_shift]

theorem tick_shift (i : Nat) : (s.shift d).tick i = ((s.tick i).1.shift d, (s.tick i).2) := by
  unfold tick
  rw [seated?_shift, now_shift]
  cases s.seated? i with
  | none => rfl
  | some seated =>
    simp only [Option.map_some, Player.tick_shift]
    rw [apply_shift]
    rfl

theorem stop_shift (i : Nat) : (s.shift d).stop i = ((s.stop i).1.shift d, (s.stop i).2) := by
  unfold stop
  rw [seated?_shift]
  cases s.seated? i with
  | none => rfl
  | some seated =>
    simp only [Option.map_some, Player.stop_shift]
    rw [apply_shift]
    rfl

theorem drop_shift (i : Nat) : (s.shift d).drop i = (s.drop i).shift d := by
  unfold drop
  rw [seated?_shift]
  cases s.seated? i with
  | none => rfl
  | some seated =>
    simp only [Option.map_some, Player.drop_shift, setTable_shift]
    exact setPlayer_shift d _ i none

theorem tickAll_shift : (s.shift d).tickAll = (s.tickAll.1.shift d, s.tickAll.2) := by
  unfold tickAll
  have hsize : (s.shift d).seats.size = s.seats.size := by simp [shift]
  rw [hsize]
  generalize ([] : List Notice) = notices
  generalize List.range s.seats.size = seats
  clear hsize
  induction seats generalizing s notices with
  | nil => rfl
  | cons i rest ih =>
    simp only [List.foldl_cons, tick_shift]
    exact ih (s.tick i).1 _

theorem loop_shift (ms : UInt32) (count : Nat) :
    loop ms count (s.shift d) = ((loop ms count s).1.shift d, (loop ms count s).2) := by
  induction count generalizing s with
  | zero => rfl
  | succ count ih =>
    unfold loop
    simp only [advance_shift, tickAll_shift, ih]

theorem giveBack_shift (kept : Kept) : (s.shift d).giveBack kept = (s.giveBack kept).shift d := by
  unfold giveBack
  cases kept.home with
  | none => rfl
  | some i =>
    simp only [getElem?_shift]
    cases s.seats[i]? with
    | none => rfl
    | some seat => exact setTable_shift d s i _

theorem empty_shift (slot : Nat) :
    (s.shift d).empty slot = ((s.empty slot).1.shift d, (s.empty slot).2) := by
  unfold empty
  have hk : (s.shift d).kept = s.kept := rfl
  rw [hk]
  cases s.kept.find? (·.slot = slot) with
  | none => rfl
  | some kept =>
    have hg := giveBack_shift d { s with kept := s.kept.erase kept } kept
    exact Prod.ext hg rfl

theorem keep_shift (kept : Kept) : (s.shift d).keep kept = (s.keep kept).shift d := by
  unfold keep
  simp only [empty_shift]
  rfl

end Session

def Outcome.shift (o : Outcome) : Outcome := { o with session := o.session.shift d }

/-- A step that does not set the clock to a time of its own. -/
def Step.IsRelative : Step → Prop
  | .setTime _ => False
  | _ => True

namespace Session

theorem start_step_shift (s : Session) (i : Nat) (request : Request) :
    (s.shift d).step? (.start i request) =
      (s.step? (.start i request)).map (Outcome.shift d) := by
  simp only [step?, seated?_shift, now_shift, Option.bind_eq_bind]
  cases s.seated? i with
  | none => rfl
  | some seated =>
    simp only [Option.map_some, Option.bind_some, Player.start?_shift]
    cases seated.1.start? seated.2 s.now request with
    | none => rfl
    | some attempt =>
      have happly := apply_shift d s i attempt.toTurn
      simp only [Option.map_some, Option.bind_some, Option.pure_def, Outcome.shift]
      rw [← happly]
      rfl

theorem run_step_shift (s : Session) (i : Nat) (step limit : UInt32) :
    (s.shift d).step? (.run i step limit) =
      (s.step? (.run i step limit)).map (Outcome.shift d) := by
  simp only [step?, seated?_shift, Option.bind_eq_bind]
  cases s.seated? i with
  | none => rfl
  | some seated =>
    have hr : (s.shift d).recording = s.recording.shift d := rfl
    have hp := setPlayer_shift d
      (s.setTable i (seated.1.runUntilIdle seated.2 step limit s.recording).state.leases) i
      (some (seated.1.runUntilIdle seated.2 step limit s.recording).state.player)
    rw [Option.map_some] at hp
    simp only [Option.map_some, Option.bind_some, Option.pure_def, hr,
      Player.runUntilIdle_shift, setTable_shift, hp, Outcome.shift]
    rfl

theorem lease_step_shift (s : Session) (channel : Channel) (slot : Nat) :
    (s.shift d).step? (.lease channel slot) =
      (s.step? (.lease channel slot)).map (Outcome.shift d) := by
  have hleases : (s.shift d).leases = s.leases := rfl
  simp only [step?, hleases]
  cases s.leases.acquire channel with
  | error error => rfl
  | ok taken =>
    have hk := keep_shift d { s with leases := taken.2 } ⟨slot, taken.1, none⟩
    exact congrArg (fun session => some ({ session, answer := .leased taken.1 } : Outcome)) hk

theorem leaseOwn_step_shift (s : Session) (i slot : Nat) :
    (s.shift d).step? (.leaseOwn i slot) =
      (s.step? (.leaseOwn i slot)).map (Outcome.shift d) := by
  simp only [step?, getElem?_shift, Option.bind_eq_bind]
  cases s.seats[i]? with
  | none => rfl
  | some seat =>
    have htable : (s.shift d).tableOf (seat.shift d) = s.tableOf seat := rfl
    have hchannel : (seat.shift d).channel = seat.channel := rfl
    simp only [Option.map_some, Option.bind_some, htable, hchannel]
    cases (s.tableOf seat).acquire seat.channel with
    | error error => rfl
    | ok taken =>
      simp only [setTable_shift, keep_shift]
      rfl

/-- A step from a shifted session leads to the shifted outcome. -/
theorem step?_shift (s : Session) {step : Step} (relative : step.IsRelative) :
    (s.shift d).step? step = (s.step? step).map (Outcome.shift d) := by
  cases step with
  | setTime now => cases relative
  | advance ms => simp only [step?, advance_shift, Option.map_some, Outcome.shift]
  | advanceOutput ms =>
    simp [step?, Outcome.shift, shift, Recording.advance_shift]
  | join kind channel own settings =>
    have hidle :
        (Player.idle kind channel settings).shift d = Player.idle kind channel settings := by
      cases kind <;> rfl
    simp [step?, Outcome.shift, shift, Seat.shift, hidle]
  | start i request => exact start_step_shift d s i request
  | tick i =>
    simp only [step?, getElem?_shift, tick_shift]
    cases s.seats[i]? <;> rfl
  | stop i =>
    simp only [step?, getElem?_shift, stop_shift]
    cases s.seats[i]? <;> rfl
  | drop i =>
    simp only [step?, getElem?_shift, drop_shift]
    cases s.seats[i]? <;> rfl
  | loop ms count => simp only [step?, loop_shift, Option.map_some, Outcome.shift]
  | run i step limit => exact run_step_shift d s i step limit
  | lease channel slot => exact lease_step_shift d s channel slot
  | leaseOwn i slot => exact leaseOwn_step_shift d s i slot
  | release slot => simp only [step?, empty_shift, Option.map_some, Outcome.shift]
  | command command => simp [step?, Outcome.shift, shift, Recording.perform_shift]
  | clear => simp [step?, Outcome.shift, shift, Recording.clear, Recording.shift]

/-- The outcomes of the steps of a script, if each step has one. -/
def outcomes? (s : Session) : List Step → Option (List Outcome)
  | [] => some []
  | step :: rest => do
    let outcome ← s.step? step
    let later ← outcome.session.outcomes? rest
    return outcome :: later

theorem outcomes?_shift (s : Session) {script : List Step}
    (relative : ∀ step ∈ script, step.IsRelative) :
    (s.shift d).outcomes? script = (s.outcomes? script).map (List.map (Outcome.shift d)) := by
  induction script generalizing s with
  | nil => rfl
  | cons step rest ih =>
    simp only [outcomes?, step?_shift d s (relative step List.mem_cons_self), Option.bind_eq_bind]
    cases s.step? step with
    | none => rfl
    | some outcome =>
      have ih := ih outcome.session fun step hs => relative step (List.mem_cons_of_mem _ hs)
      simp only [Option.map_some, Option.bind_some, Outcome.shift, ih]
      cases outcome.session.outcomes? rest <;> rfl

/-- The second session has its clock ahead of the first one's, and looks and sounds alike. -/
structure Ahead (s s' : Session) : Prop where
  clock : s'.now = s.now + d
  size : s'.seats.size = s.seats.size
  /-- Every player tells the same when it is asked now. -/
  displays : ∀ i, (s'.player? i).map (·.display s'.now) = (s.player? i).map (·.display s.now)
  tables : ∀ home, s'.table? home = s.table? home
  kept : s'.kept = s.kept
  events : s'.recording.events = s.recording.events.map (Event.shift d)
  sounding : s'.recording.sounding = s.recording.sounding
  samples : ∀ channel rate amplitude,
    Wave.render s'.recording channel rate amplitude = Wave.render s.recording channel rate amplitude

theorem ahead_shift (s : Session) : Ahead d s (s.shift d) where
  clock := now_shift d s
  size := by simp [shift]
  displays i := by
    rw [player?_shift, now_shift, Option.map_map]
    exact congrArg (Option.map · (s.player? i)) (funext fun p => p.display_shift d s.now)
  tables := table?_shift d s
  kept := rfl
  events := rfl
  sounding := rfl
  samples := Wave.render_shift d s.recording

/-- Whatever the clock shows at first, and wherever it wraps, a script of steps has the same
answers and notices, and after each of its steps the players, the leases and the output are the
same but for the times of the events. -/
theorem wrap_unnoticed (start shift : UInt32) (script : List Step)
    (relative : ∀ step ∈ script, step.IsRelative) :
    Option.Rel
      (List.Forall₂ fun o o' : Outcome =>
        o'.answer = o.answer ∧ o'.notices = o.notices ∧ Ahead shift o.session o'.session)
      (({ recording := { now := start } } : Session).outcomes? script)
      (({ recording := { now := start + shift } } : Session).outcomes? script) := by
  have hs : ({ recording := { now := start + shift } } : Session) =
      ({ recording := { now := start } } : Session).shift shift := by
    simp [Session.shift, Recording.shift]
  rw [hs, outcomes?_shift shift _ relative]
  cases ({ recording := { now := start } } : Session).outcomes? script with
  | none => exact .none
  | some outcomes =>
    refine .some (List.forall₂_map_right_iff.mpr (List.forall₂_same.mpr ?_))
    exact fun o _ => ⟨rfl, rfl, ahead_shift shift o.session⟩

/-- A melody and a siren on clocks of which one wraps in the middle of both. -/
def duet : List Step :=
  [.join .melody ⟨0⟩ false {}, .join .siren ⟨1⟩ false {},
    .start 0 (.melody ⟨#[⟨440, 100⟩, ⟨0, 50⟩], .owned⟩ 2), .start 1 (.siren ⟨200, 400, 300⟩),
    .advance 60, .tick 1, .advance 90, .tick 0, .tick 1, .advance 200, .tick 0, .tick 1, .stop 0]

theorem wrap_unnoticed_amid_duet :
    ∃ outcomes outcomes',
      ({ recording := { now := 7 } } : Session).outcomes? duet = some outcomes ∧
        ({ recording := { now := 0xFFFFFF9C } } : Session).outcomes? duet = some outcomes' ∧
        List.Forall₂ (fun o o' : Outcome => o'.answer = o.answer ∧ o'.notices = o.notices ∧
          Ahead 0xFFFFFF95 o.session o'.session) outcomes outcomes' := by
  have relative : ∀ step ∈ duet, step.IsRelative := by simp [duet, Step.IsRelative]
  obtain ⟨outcomes, ho⟩ : ∃ outcomes,
      ({ recording := { now := 7 } } : Session).outcomes? duet = some outcomes := ⟨_, rfl⟩
  have h := wrap_unnoticed 7 0xFFFFFF95 duet relative
  rw [ho] at h
  cases hs : ({ recording := { now := 7 + 0xFFFFFF95 } } : Session).outcomes? duet with
  | none =>
    rw [hs] at h
    cases h
  | some outcomes' =>
    rw [hs] at h
    cases h with
    | some h => exact ⟨outcomes, outcomes', ho, hs, h⟩

end Session

end Piezo
