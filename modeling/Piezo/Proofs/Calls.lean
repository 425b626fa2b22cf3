import Piezo.Player
import Piezo.Proofs.Schedule

/-!
Calls: what becomes of a player, and all that it commands, whatever it is asked to do in turn.
-/

namespace Piezo

/-- What a player can be asked to do. -/
inductive Call where
  | start (request : Request)
  | tick
  | stop

namespace Player

/-- The turn that a call makes. A request for another kind of player goes unheard. -/
def respond (p : Player) (m : Moment) : Call → Turn Player
  | .start request =>
    match p.start? m.leases m.now request with
    | some attempt => attempt.toTurn
    | none => { player := p, leases := m.leases }
  | .tick => p.tick m.leases m.now
  | .stop => p.stop m.leases

/-- The player after calls, each at its own moment, and the commands that were issued. -/
def runCalls (p : Player) : List (Moment × Call) → Player × List Command
  | [] => (p, [])
  | (m, call) :: rest =>
    let turn := p.respond m call
    let (q, commands) := turn.player.runCalls rest
    (q, turn.commands ++ commands)

@[simp] theorem runCalls_nil (p : Player) : p.runCalls [] = (p, []) := rfl

theorem runCalls_cons (p : Player) (m : Moment) (call : Call) (rest : List (Moment × Call)) :
    p.runCalls ((m, call) :: rest) =
      let turn := p.respond m call
      ((turn.player.runCalls rest).1, turn.commands ++ (turn.player.runCalls rest).2) :=
  rfl

/-- What every call keeps of a player, and what it guarantees of its commands while that holds, all
calls together do. -/
theorem runCalls_keeps {I : Player → Prop} {P : Command → Prop}
    (keeps : ∀ p m call, I p → I (p.respond m call).player)
    (issues : ∀ p m call, I p → ∀ c ∈ (p.respond m call).commands, P c)
    {p : Player} (h : I p) (calls : List (Moment × Call)) :
    I (p.runCalls calls).1 ∧ ∀ c ∈ (p.runCalls calls).2, P c := by
  induction calls generalizing p with
  | nil => exact ⟨h, by simp⟩
  | cons first rest ih =>
    obtain ⟨m, call⟩ := first
    obtain ⟨hq, hc⟩ := ih (keeps p m call h)
    rw [runCalls_cons]
    refine ⟨hq, fun c hm => ?_⟩
    rcases List.mem_append.mp hm with hm | hm
    · exact issues p m call h c hm
    · exact hc c hm

end Player

end Piezo
