import Piezo.Clock
import Piezo.Proofs.Schedule

/-!
Cues: commands that follow one another, each a fixed time after the one before.

Ticks may come at any time. A player that keeps to a list of cues issues each command at the first
tick that finds its wait over, and waits for the next one from that tick on.
-/

namespace Piezo

theorem Command.frequencies_emit (c : Channel) (frequencies : List UInt32) :
    (frequencies.map (emit c)).filterMap frequency? = frequencies := by
  simp [List.filterMap_map, Function.comp_def, frequency?]

/-- A command, and how long after the one before it is due. -/
structure Cue where
  wait : UInt32
  command : Command
deriving DecidableEq, Repr

/-- What is issued at each tick, where the clock showed `since` at the command before the first cue.
A cue is taken at the first tick that finds its wait over, and the next one waits from there. -/
def follow (since : UInt32) : List Cue → List UInt32 → List (List Command)
  | [], ticks => ticks.map fun _ => []
  | cue :: cues, ticks =>
    let isEarly now := Clock.elapsed now since < cue.wait
    (ticks.takeWhile isEarly).map (fun _ => []) ++
      match ticks.dropWhile isEarly with
      | [] => []
      | now :: later => [cue.command] :: follow now cues later

/-- The cues that are left, and what the clock showed at the last command. -/
structure Sheet where
  since : UInt32
  cues : List Cue
deriving DecidableEq, Repr

namespace Sheet

/-- The first command and the sheet without it, if its wait is over. -/
def due? (s : Sheet) (now : UInt32) : Option (Command × Sheet) :=
  match s.cues with
  | [] => none
  | cue :: cues =>
    if Clock.elapsed now s.since < cue.wait then none else some (cue.command, ⟨now, cues⟩)

theorem due?_nil (since now : UInt32) : due? ⟨since, []⟩ now = none := rfl

theorem due?_early {since now : UInt32} {cue : Cue} (cues : List Cue)
    (early : Clock.elapsed now since < cue.wait) : due? ⟨since, cue :: cues⟩ now = none :=
  if_pos early

theorem due?_late {since now : UInt32} {cue : Cue} (cues : List Cue)
    (late : ¬ Clock.elapsed now since < cue.wait) :
    due? ⟨since, cue :: cues⟩ now = some (cue.command, ⟨now, cues⟩) :=
  if_neg late

/-- What is left after these ticks. -/
def after (s : Sheet) : List UInt32 → Sheet
  | [] => s
  | now :: ticks =>
    match s.due? now with
    | none => s.after ticks
    | some (_, rest) => rest.after ticks

theorem follow_nil (since : UInt32) (cues : List Cue) : follow since cues [] = [] := by
  cases cues <;> rfl

theorem follow_tick (s : Sheet) (now : UInt32) (ticks : List UInt32) :
    follow s.since s.cues (now :: ticks) =
      match s.due? now with
      | none => [] :: follow s.since s.cues ticks
      | some (command, rest) => [command] :: follow rest.since rest.cues ticks := by
  unfold due?
  cases s.cues with
  | nil => rfl
  | cons cue cues =>
    by_cases early : Clock.elapsed now s.since < cue.wait <;> simp [follow, early]

/-- What has been issued and what is left make up the whole. -/
theorem flatten_follow (s : Sheet) (ticks : List UInt32) :
    (follow s.since s.cues ticks).flatten ++ (s.after ticks).cues.map Cue.command =
      s.cues.map Cue.command := by
  induction ticks generalizing s with
  | nil => simp [follow_nil, after]
  | cons now ticks ih =>
    rw [follow_tick, after]
    cases hd : s.due? now with
    | none => exact ih s
    | some taken =>
      obtain ⟨command, rest⟩ := taken
      have hs : s.cues.map Cue.command = command :: rest.cues.map Cue.command := by
        unfold due? at hd
        split at hd
        · cases hd
        · split at hd <;> cases hd
          simp [*]
      simp only [List.flatten_cons, ih rest, hs, List.cons_append, List.nil_append]

theorem length_le_one_of_mem_follow (s : Sheet) (ticks : List UInt32) :
    ∀ issued ∈ follow s.since s.cues ticks, issued.length ≤ 1 := by
  induction ticks generalizing s with
  | nil => simp [follow_nil]
  | cons now ticks ih =>
    rw [follow_tick]
    cases s.due? now with
    | none => simpa using ih s
    | some taken => simpa using ih taken.2

/-- Each cue that is taken, and nothing else, makes a tick that issues something. -/
theorem countP_follow (s : Sheet) (ticks : List UInt32) :
    ((follow s.since s.cues ticks).countP fun issued => !issued.isEmpty) =
      (follow s.since s.cues ticks).flatten.length := by
  induction ticks generalizing s with
  | nil => simp [follow_nil]
  | cons now ticks ih =>
    rw [follow_tick]
    cases s.due? now with
    | none => simpa using ih s
    | some taken => simpa [Nat.add_comm] using ih taken.2

end Sheet

section

variable {State : Type} {tick : State → Leases → UInt32 → Turn State}
  {Keeps : State → Sheet → Prop}

/-- Whoever keeps to a sheet goes on with it at each tick: takes what is due, or waits. -/
def Leads (tick : State → Leases → UInt32 → Turn State) (Keeps : State → Sheet → Prop) : Prop :=
  ∀ p s leases now, Keeps p s →
    match s.due? now with
    | none => (tick p leases now).commands = [] ∧ Keeps (tick p leases now).player s
    | some (command, rest) =>
      (tick p leases now).commands = [command] ∧ Keeps (tick p leases now).player rest

variable {p : State} {s : Sheet}

theorem Leads.run (leads : Leads tick Keeps) (h : Keeps p s) (schedule : List Moment) :
    turns tick p schedule = follow s.since s.cues (schedule.map Moment.now) ∧
      Keeps (runTicks tick p schedule).1 (s.after (schedule.map Moment.now)) := by
  induction schedule generalizing p s with
  | nil => simpa [turns, Sheet.follow_nil, Sheet.after] using h
  | cons m rest ih =>
    have step := leads p s m.leases m.now h
    rw [turns, runTicks_cons, List.map_cons, Sheet.follow_tick, Sheet.after]
    cases hd : s.due? m.now with
    | none =>
      simp only [hd] at step
      obtain ⟨ht, hk⟩ := ih step.2
      exact ⟨by rw [step.1, ht], hk⟩
    | some taken =>
      simp only [hd] at step
      obtain ⟨ht, hk⟩ := ih step.2
      exact ⟨by rw [step.1, ht], hk⟩

theorem Leads.length_turn_le_one (leads : Leads tick Keeps) (h : Keeps p s)
    (schedule : List Moment) : ∀ turn ∈ turns tick p schedule, turn.length ≤ 1 := by
  rw [(leads.run h schedule).1]
  exact s.length_le_one_of_mem_follow _

/-- As many ticks issue something as there are commands issued. -/
theorem Leads.countP_turns (leads : Leads tick Keeps) (h : Keeps p s) (schedule : List Moment) :
    ((turns tick p schedule).countP fun turn => !turn.isEmpty) =
      (runTicks tick p schedule).2.length := by
  rw [← flatten_turns, (leads.run h schedule).1, s.countP_follow]

/-- What a run issues and what is left to issue make up the commands of the sheet. -/
theorem Leads.run_commands (leads : Leads tick Keeps) (h : Keeps p s) (schedule : List Moment) :
    (runTicks tick p schedule).2 ++ (s.after (schedule.map Moment.now)).cues.map Cue.command =
      s.cues.map Cue.command := by
  rw [← flatten_turns, (leads.run h schedule).1, s.flatten_follow]

section

variable {first whole : List Command} (begun : first ++ s.cues.map Cue.command = whole)

include begun

/-- What has been issued since the first commands of a whole, and what is left, make it up. -/
theorem Leads.run_whole (leads : Leads tick Keeps) (h : Keeps p s) (schedule : List Moment) :
    first ++ (runTicks tick p schedule).2 ++
      (s.after (schedule.map Moment.now)).cues.map Cue.command = whole := by
  rw [List.append_assoc, leads.run_commands h, begun]

/-- The whole has been issued when nothing is left, and not before. -/
theorem Leads.run_all_iff (leads : Leads tick Keeps) (h : Keeps p s) (schedule : List Moment) :
    first ++ (runTicks tick p schedule).2 = whole ↔
      (s.after (schedule.map Moment.now)).cues = [] := by
  rw [← leads.run_whole begun h schedule, List.self_eq_append_right, List.map_eq_nil_iff]

end

/-- Ticks that come when the cues are due use them up. -/
theorem Leads.exists_end (leads : Leads tick Keeps) (h : Keeps p s) :
    ∃ schedule t, t.cues = [] ∧ Keeps (runTicks tick p schedule).1 t := by
  obtain ⟨since, cues⟩ := s
  induction cues generalizing p since with
  | nil => exact ⟨[], _, rfl, h⟩
  | cons cue cues ih =>
    have late : ¬ Clock.elapsed (since + cue.wait) since < cue.wait := by
      rw [Clock.elapsed_add]
      exact UInt32.lt_irrefl _
    have step := leads p _ {} (since + cue.wait) h
    rw [Sheet.due?_late cues late] at step
    obtain ⟨schedule, last, hk⟩ := ih _ step.2
    exact ⟨⟨{}, since + cue.wait⟩ :: schedule, last, hk⟩

/-- Whoever is idle without cues, and only then, issues nothing once it is idle, and can be brought
there. -/
theorem Leads.idle_for_good (leads : Leads tick Keeps) {isActive : State → Bool}
    (idle_iff : ∀ {p s}, Keeps p s → (isActive p = false ↔ s.cues = [])) (h : Keeps p s) :
    (isActive p = false → ∀ later, (runTicks tick p later).2 = []) ∧
      ∃ later, isActive (runTicks tick p later).1 = false := by
  constructor
  · intro idle later
    have commands := leads.run_commands h later
    rw [(idle_iff h).mp idle] at commands
    exact (List.append_eq_nil_iff.mp commands).1
  · obtain ⟨later, last, ended, hk⟩ := leads.exists_end h
    exact ⟨later, (idle_iff hk).mpr ended⟩

end

end Piezo
