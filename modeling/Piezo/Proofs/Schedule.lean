import Piezo.Player.Turn

/-!
Schedules: what a player becomes, and all that it commands, when it is ticked again and again.
-/

namespace Piezo

/-- What a player finds when it is ticked. Others may have changed the table since the last time,
and the clock may show anything. -/
structure Moment where
  leases : Leases
  now : UInt32

section

variable {State : Type} (tick : State → Leases → UInt32 → Turn State)

/-- The player after a tick at each moment in order, and the commands that were issued. -/
def runTicks (p : State) : List Moment → State × List Command
  | [] => (p, [])
  | m :: rest =>
    let turn := tick p m.leases m.now
    let (q, commands) := runTicks turn.player rest
    (q, turn.commands ++ commands)

@[simp] theorem runTicks_nil (p : State) : runTicks tick p [] = (p, []) := rfl

theorem runTicks_cons (p : State) (m : Moment) (rest : List Moment) :
    runTicks tick p (m :: rest) =
      let turn := tick p m.leases m.now
      ((runTicks tick turn.player rest).1, turn.commands ++ (runTicks tick turn.player rest).2) :=
  rfl

/-- What is issued at each moment in order, tick by tick. -/
def turns (p : State) : List Moment → List (List Command)
  | [] => []
  | m :: rest =>
    let turn := tick p m.leases m.now
    turn.commands :: turns turn.player rest

theorem flatten_turns (p : State) (schedule : List Moment) :
    (turns tick p schedule).flatten = (runTicks tick p schedule).2 := by
  induction schedule generalizing p with
  | nil => rfl
  | cons m rest ih => rw [turns, List.flatten_cons, ih, runTicks_cons]

variable {tick}

/-- What each tick issues is taken off what is owed, so what a run issues and what is owed after it
make up what was owed before. -/
theorem runTicks_owed {owed : State → List Command} {Inv : State → Prop}
    (keeps : ∀ p leases now, Inv p → Inv (tick p leases now).player)
    (pays : ∀ p leases now, Inv p →
      (tick p leases now).commands ++ owed (tick p leases now).player = owed p)
    {p : State} (hp : Inv p) (schedule : List Moment) :
    Inv (runTicks tick p schedule).1 ∧
      (runTicks tick p schedule).2 ++ owed (runTicks tick p schedule).1 = owed p := by
  induction schedule generalizing p with
  | nil => exact ⟨hp, rfl⟩
  | cons m rest ih =>
    obtain ⟨hq, hr⟩ := ih (keeps p m.leases m.now hp)
    refine ⟨hq, ?_⟩
    rw [runTicks_cons, ← pays p m.leases m.now hp, ← hr]
    simp

end

end Piezo
