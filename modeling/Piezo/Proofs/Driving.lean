import Piezo.Proofs.Conduct
import Piezo.Simulation

/-!
Driving: what ticks keep, a machine keeps that is ticked until it is idle.
-/

namespace Piezo

namespace Recording

theorem sounding_performAll (r : Recording) (commands : List Command) :
    (r.performAll commands).sounding = commands.foldl Soundings.perform r.sounding := by
  induction commands generalizing r with
  | nil => rfl
  | cons command rest ih => exact ih (r.perform command)

@[simp] theorem now_performAll (r : Recording) (commands : List Command) :
    (r.performAll commands).now = r.now := by
  induction commands generalizing r with
  | nil => rfl
  | cons command rest ih => exact ih (r.perform command)

/-- Commands are added in their order, all at the time of the clock. -/
theorem events_performAll (r : Recording) (commands : List Command) :
    (r.performAll commands).events.toList =
      r.events.toList ++ commands.map fun command => ⟨r.now, command⟩ := by
  induction commands generalizing r with
  | nil => simp [performAll]
  | cons command rest ih =>
    refine (ih (r.perform command)).trans ?_
    simp [perform]

/-- A later recording has carried out these commands since an earlier one. -/
structure CarriesOut (r r' : Recording) (commands : List Command) : Prop where
  sounding : r'.sounding = commands.foldl Soundings.perform r.sounding
  events : ∃ events, r'.events.toList = r.events.toList ++ events ∧
    events.map Event.command = commands

variable {r r' r'' : Recording} {commands more : List Command}

theorem CarriesOut.refl (r : Recording) : r.CarriesOut r [] := ⟨rfl, [], by simp⟩

theorem CarriesOut.trans (h : r.CarriesOut r' commands) (k : r'.CarriesOut r'' more) :
    r.CarriesOut r'' (commands ++ more) := by
  obtain ⟨events, he, hc⟩ := h.events
  obtain ⟨later, hl, hm⟩ := k.events
  constructor
  case sounding => rw [k.sounding, h.sounding, List.foldl_append]
  case events => exact ⟨events ++ later, by rw [hl, he, List.append_assoc], by simp [hc, hm]⟩

theorem carriesOut_performAll (r : Recording) (commands : List Command) :
    r.CarriesOut (r.performAll commands) commands where
  sounding := sounding_performAll r commands
  events := ⟨_, events_performAll r commands, by simp [Function.comp_def]⟩

/-- That time passes first makes no difference. -/
theorem carriesOut_advance (r : Recording) (ms : UInt32) (commands : List Command) :
    r.CarriesOut ((r.advance ms).performAll commands) commands :=
  ⟨(carriesOut_performAll (r.advance ms) commands).sounding,
    (carriesOut_performAll (r.advance ms) commands).events⟩

theorem CarriesOut.lastEvent {command : Command}
    (h : ({} : Recording).CarriesOut r commands) (last : commands.getLast? = some command) :
    ∃ before time, r.events.toList = before ++ [⟨time, command⟩] := by
  obtain ⟨events, hevents, hcommands⟩ := h.events
  rw [← hcommands, List.getLast?_map, Option.map_eq_some_iff] at last
  obtain ⟨⟨time, command⟩, last, rfl⟩ := last
  obtain ⟨before, rfl⟩ := List.getLast?_eq_some_iff.mp last
  exact ⟨before, time, hevents⟩

/-- No event is later than the clock. -/
def Timely (r : Recording) : Prop := ∀ e ∈ r.events.toList, e.time ≤ r.now

theorem Timely.performAll {r : Recording} (h : r.Timely) (commands : List Command) :
    (r.performAll commands).Timely := by
  intro e he
  rw [events_performAll] at he
  rw [now_performAll]
  rcases List.mem_append.mp he with he | he
  · exact h e he
  · obtain ⟨c, -, rfl⟩ := List.mem_map.mp he
    exact UInt32.le_refl _

end Recording

namespace Machine

variable {State : Type} {m : Machine State} {step limit : UInt32}

/-- A run with one tick more, before which the clock has moved on. -/
def next (m : Machine State) (step : UInt32) (run : Run State) : Run State :=
  let recording := run.recording.advance step
  { state := (m.tick run.state recording.now).1
    recording := recording.performAll (m.tick run.state recording.now).2
    spent := Clock.addCapped run.spent step }

/-- A step of zero counts as one. -/
theorem toNat_step (step : UInt32) : (if step = 0 then 1 else step).toNat = max step.toNat 1 := by
  split
  · next h =>
    rw [h]
    rfl
  · next h =>
    exact (Nat.max_eq_left (UInt32.lt_iff_toNat_lt.mp (UInt32.pos_iff_ne_zero.mpr h))).symm

/-- What each tick keeps that is made before the limit, a whole run keeps. -/
theorem resume_keeps {positive : 0 < step} {I : Run State → Prop}
    (keeps : ∀ run, m.isActive run.state = true → run.spent < limit → I run →
      I (m.next step run))
    (run : Run State) (h : I run) : I (m.resume step limit positive run) := by
  induction run using Machine.resume.induct m step limit positive with
  | case1 run hgo recording state commands ht ih =>
    have hk := keeps run hgo.1 hgo.2 h
    simp only [recording] at ht ih
    simp only [next, ht] at hk
    rw [resume, if_pos hgo]
    simp only [ht]
    exact ih hk
  | case2 run hstop =>
    rw [resume, if_neg hstop]
    exact h

/-- A run goes on until the machine is idle or the limit is spent. -/
theorem resume_stops {positive : 0 < step} (run : Run State) :
    let last := m.resume step limit positive run
    ¬ (m.isActive last.state = true ∧ last.spent < limit) := by
  induction run using Machine.resume.induct m step limit positive with
  | case1 run hgo recording state commands ht ih =>
    simp only [recording] at ht ih
    rw [resume, if_pos hgo]
    simp only [ht]
    exact ih
  | case2 run hstop =>
    rw [resume, if_neg hstop]
    exact hstop

/-- Ticked each millisecond from time 0, a machine is within the limit all the time, and so is all
that it has issued. -/
structure Within (limit : UInt32) (run : Run State) : Prop where
  clock : run.recording.now = run.spent
  spent : run.spent ≤ limit
  timely : run.recording.Timely

theorem Within.next {run : Run State} (h : Within limit run) (hl : run.spent < limit) :
    Within limit (m.next 1 run) := by
  have hlimit := limit.toNat_lt
  rw [UInt32.lt_iff_toNat_lt] at hl
  have hsucc : (run.spent + 1).toNat = run.spent.toNat + 1 := by
    rw [UInt32.toNat_add, UInt32.toNat_one]
    exact Nat.mod_eq_of_lt (by omega)
  have hspent : Clock.addCapped run.spent 1 = run.spent + 1 := by
    rw [← UInt32.toNat_inj, Clock.toNat_addCapped, hsucc, UInt32.toNat_one, UInt32.size]
    omega
  have htimely : (run.recording.advance 1).Timely := by
    intro e he
    have := UInt32.le_iff_toNat_le.mp (h.timely e he)
    rw [h.clock] at this
    rw [Recording.advance, h.clock, UInt32.le_iff_toNat_le, hsucc]
    omega
  constructor
  case clock => simp [Machine.next, Recording.advance, h.clock, hspent]
  case spent =>
    simp only [Machine.next, hspent]
    rw [UInt32.le_iff_toNat_le, hsucc]
    exact hl
  case timely => exact htimely.performAll _

theorem runUntilIdle_within (m : Machine State) (limit : UInt32) (state : State)
    (recording : Recording) (start : recording.now = 0) (timely : recording.Timely) :
    Within limit (m.runUntilIdle 1 limit state recording) :=
  resume_keeps (I := Within limit) (fun _ _ hl h => h.next hl) ⟨state, recording, 0⟩
    ⟨start, UInt32.le_iff_toNat_le.mpr (Nat.zero_le _), timely⟩

end Machine

namespace Player

variable {p : Player} {leases : Leases}

/-- A run until idle is proper, as its ticks are, and the output carries out what they issue. -/
theorem runUntilIdle_proper (h : p.Coherent) (hl : p.Listed leases)
    (step limit : UInt32) (recording : Recording) :
    ∃ commands,
      Proper p leases
        { player := (p.runUntilIdle leases step limit recording).state.player
          leases := (p.runUntilIdle leases step limit recording).state.leases
          commands } ∧
      recording.CarriesOut (p.runUntilIdle leases step limit recording).recording commands := by
  refine Machine.resume_keeps (I := fun (run : Run Driven) => ∃ commands,
    Proper p leases { player := run.state.player, leases := run.state.leases, commands } ∧
      recording.CarriesOut run.recording commands) ?_ ⟨⟨p, leases, []⟩, recording, 0⟩
    ⟨[], .still h [], .refl recording⟩
  rintro ⟨d, r, spent⟩ - - ⟨commands, hp, hr⟩
  exact ⟨_, hp.trans (tick_proper hp.coherent (hp.listed h hl)) [],
    hr.trans (r.carriesOut_advance _ _)⟩

/-- An active player that is driven and then stopped ends with a silence, wherever that was. -/
theorem runUntilIdle_stop (h : p.Coherent) (hp : p.isActive = true) (hl : p.Listed leases)
    (step limit : UInt32) (recording : Recording) :
    let run := p.runUntilIdle leases step limit recording
    ∃ commands,
      recording.CarriesOut
        (run.recording.performAll (run.state.player.stop run.state.leases).commands) commands ∧
      (∀ c ∈ commands, c.channel = p.channel) ∧ commands.getLast? = some (.silence p.channel) := by
  intro run
  obtain ⟨ticked, proper, carried⟩ := runUntilIdle_proper h hl step limit recording
  have stopped := stop_proper proper.coherent (proper.listed h hl)
  have whole := proper.trans stopped []
  exact ⟨_, carried.trans (Recording.carriesOut_performAll ..), whole.commands,
    whole.getLast?_of_ended hp (isActive_stop ..)⟩

end Player

end Piezo
