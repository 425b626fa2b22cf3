import Piezo.Session

/-!
Seats: a session as the players in its seats and the tables of leases behind them, what each way of
changing it leaves as it was, and what a session can come to.
-/

namespace Piezo

theorem map_modify {α β : Type} {f : α → β} {g : α → α} {h : β → β} (comm : ∀ a, f (g a) = h (f a))
    (xs : Array α) (i : Nat) : (xs.modify i g).map f = (xs.map f).modify i h := by
  apply Array.ext_getElem?
  intro j
  rw [Array.getElem?_map, Array.getElem?_modify, Array.getElem?_modify, Array.getElem?_map]
  split
  · cases xs[j]? <;> simp [comm]
  · rfl

/-- Where a seat's table is: its own under its number, or none for the shared one. -/
def Seat.home (seat : Seat) (i : Nat) : Option Nat := seat.table.map fun _ => i

namespace Session

/-- The player in a seat. -/
def player? (s : Session) (i : Nat) : Option Player := (s.seats[i]?).bind (·.player)

/-- Where the table of a seat is, if there is such a seat. -/
def home? (s : Session) (i : Nat) : Option (Option Nat) := (s.seats[i]?).map (·.home i)

/-- The table at a place. -/
def table? (s : Session) : Option Nat → Option Leases
  | none => some s.leases
  | some i => (s.seats[i]?).bind (·.table)

variable {s : Session} {i j : Nat} {home : Option Nat} {p : Player} {t : Leases}

theorem home?_own (h : s.home? i = some (some j)) : j = i := by
  unfold home? Seat.home at h
  cases hs : s.seats[i]? with
  | none => simp [hs] at h
  | some seat =>
    cases ht : seat.table with
    | none => simp [hs, ht] at h
    | some own => simpa [hs, ht, eq_comm] using h

theorem home?_lt (h : s.home? i = some home) : i < s.seats.size := by
  apply Decidable.byContradiction
  intro hi
  simp [home?, hi] at h

/-- The table that a seat uses is the one at its home. -/
theorem table?_home {seat : Seat} (hs : s.seats[i]? = some seat) :
    s.table? (seat.home i) = some (s.tableOf seat) := by
  cases ht : seat.table with
  | none => simp [Seat.home, ht, table?, tableOf]
  | some own => simp [Seat.home, ht, table?, tableOf, hs]

theorem seated?_eq_some :
    s.seated? i = some (p, t) ↔
      s.player? i = some p ∧ ∃ home, s.home? i = some home ∧ s.table? home = some t := by
  unfold seated? player? home?
  cases hs : s.seats[i]? with
  | none => simp
  | some seat =>
    cases hp : seat.player with
    | none => simp [hp]
    | some q => simp [hp, table?_home hs]

theorem seated?_of_player? (h : s.player? i = some p) : ∃ t, s.seated? i = some (p, t) := by
  unfold player? at h
  unfold seated?
  cases hs : s.seats[i]? with
  | none => simp [hs] at h
  | some seat =>
    have hp : seat.player = some p := by simpa [hs] using h
    exact ⟨s.tableOf seat, by simp [hp]⟩

theorem seats_setTable (s : Session) (i : Nat) (t : Leases) :
    (s.setTable i t).seats.size = s.seats.size := by
  unfold setTable
  split
  · split <;> simp
  · rfl

theorem player?_setTable (s : Session) (i : Nat) (t : Leases) (j : Nat) :
    (s.setTable i t).player? j = s.player? j := by
  unfold setTable player?
  split
  · next seat hs =>
    split
    · by_cases hj : i = j
      · subst hj
        obtain ⟨hi, rfl⟩ := Array.getElem?_eq_some_iff.mp hs
        simp [hi]
      · simp [hj]
    · rfl
  · rfl

theorem home?_setTable (s : Session) (i : Nat) (t : Leases) (j : Nat) :
    (s.setTable i t).home? j = s.home? j := by
  unfold setTable home?
  split
  · next seat hs =>
    split
    · next ho =>
      by_cases hj : i = j
      · subst hj
        obtain ⟨hi, rfl⟩ := Array.getElem?_eq_some_iff.mp hs
        obtain ⟨own, ho⟩ := Option.isSome_iff_exists.mp ho
        simp [hi, Seat.home, ho]
      · simp [hj]
    · rfl
  · rfl

/-- Only the table at the seat's home is replaced. -/
theorem table?_setTable (s : Session) (i : Nat) (t : Leases) (home : Option Nat) :
    (s.setTable i t).table? home = if s.home? i = some home then some t else s.table? home := by
  unfold setTable home?
  cases hs : s.seats[i]? with
  | none => simp
  | some seat =>
    obtain ⟨hi, rfl⟩ := Array.getElem?_eq_some_iff.mp hs
    cases ho : s.seats[i].table with
    | none => cases home <;> simp [Seat.home, ho, table?]
    | some own =>
      cases home with
      | none => simp [Seat.home, ho, table?]
      | some j =>
        by_cases hj : i = j
        · subst hj
          simp [Seat.home, ho, table?, hi]
        · simp [Seat.home, ho, table?, hj]

@[simp] theorem kept_setTable (s : Session) (i : Nat) (t : Leases) :
    (s.setTable i t).kept = s.kept := by
  unfold setTable
  split
  · split <;> rfl
  · rfl

@[simp] theorem recording_setTable (s : Session) (i : Nat) (t : Leases) :
    (s.setTable i t).recording = s.recording := by
  unfold setTable
  split
  · split <;> rfl
  · rfl

@[simp] theorem board_setTable (s : Session) (i : Nat) (t : Leases) :
    (s.setTable i t).board = s.board := by
  unfold setTable
  split
  · split <;> rfl
  · rfl

/-- Only the player in the seat is replaced. -/
theorem player?_setPlayer (s : Session) (i : Nat) (p : Option Player) (j : Nat) :
    (s.setPlayer i p).player? j = if i = j ∧ j < s.seats.size then p else s.player? j := by
  unfold setPlayer player?
  rw [Array.getElem?_modify]
  by_cases hj : i = j
  · subst hj
    by_cases hi : i < s.seats.size <;> simp [hi]
  · simp [hj]

theorem home?_setPlayer (s : Session) (i : Nat) (p : Option Player) (j : Nat) :
    (s.setPlayer i p).home? j = s.home? j := by
  unfold setPlayer home?
  rw [Array.getElem?_modify]
  split
  · rw [Option.map_map]
    rfl
  · rfl

theorem table?_setPlayer (s : Session) (i : Nat) (p : Option Player) (home : Option Nat) :
    (s.setPlayer i p).table? home = s.table? home := by
  cases home with
  | none => rfl
  | some j =>
    unfold setPlayer table?
    simp only [Array.getElem?_modify]
    split
    · cases s.seats[j]? <;> rfl
    · rfl

/-- The second session is the first with another table at one place. -/
structure Retabled (s s' : Session) (home : Option Nat) (t : Leases) : Prop where
  size : s'.seats.size = s.seats.size
  players : ∀ i, s'.player? i = s.player? i
  homes : ∀ i, s'.home? i = s.home? i
  tables : ∀ other, s'.table? other = if home = other then some t else s.table? other
  kept : s'.kept = s.kept
  recording : s'.recording = s.recording

theorem retabled_leases (s : Session) (t : Leases) :
    Retabled s { s with leases := t } none t where
  size := rfl
  players _ := rfl
  homes _ := rfl
  tables other := by cases other <;> rfl
  kept := rfl
  recording := rfl

theorem retabled_setTable (hi : s.home? i = some home) (t : Leases) :
    Retabled s (s.setTable i t) home t where
  size := seats_setTable s i t
  players := player?_setTable s i t
  homes := home?_setTable s i t
  tables other := by simp only [table?_setTable, hi, Option.some_inj]
  kept := kept_setTable s i t
  recording := recording_setTable s i t

/-- The second session is the first with another player, or none, in a seat, and another table at
that seat's place. -/
structure Replaced (s s' : Session) (i : Nat) (home : Option Nat) (q : Option Player)
    (t : Leases) : Prop where
  seat : s.home? i = some home
  size : s'.seats.size = s.seats.size
  players : ∀ j, s'.player? j = if i = j then q else s.player? j
  homes : ∀ j, s'.home? j = s.home? j
  tables : ∀ other, s'.table? other = if home = other then some t else s.table? other
  kept : s'.kept = s.kept

theorem replaced_setPlayer (hi : s.home? i = some home) (q : Option Player) (t : Leases) :
    Replaced s ((s.setTable i t).setPlayer i q) i home q t := by
  have k := retabled_setTable hi t
  constructor
  case seat => exact hi
  case size => simp [setPlayer, k.size]
  case players =>
    intro j
    rw [player?_setPlayer, k.players, k.size]
    by_cases hj : i = j
    · subst hj
      simp [home?_lt hi]
    · simp [hj]
  case homes => exact fun j => (home?_setPlayer ..).trans (k.homes j)
  case tables => exact fun other => (table?_setPlayer ..).trans (k.tables other)
  case kept => exact k.kept

section Replaced

variable {s' : Session} {q : Option Player} (k : Replaced s s' i home q t)
include k

theorem Replaced.player_self : s'.player? i = q := (k.players i).trans (if_pos rfl)

theorem Replaced.player_of_ne (hj : i ≠ j) : s'.player? j = s.player? j :=
  (k.players j).trans (if_neg hj)

theorem Replaced.home_self : s'.home? i = some home := (k.homes i).trans k.seat

theorem Replaced.table_self : s'.table? home = some t := (k.tables home).trans (if_pos rfl)

theorem Replaced.withRecording (recording : Recording) :
    Replaced s { s' with recording } i home q t :=
  { k with }

end Replaced

theorem replaced_apply (hi : s.home? i = some home) (turn : Turn Player) :
    Replaced s (s.apply i turn) i home (some turn.player) turn.leases :=
  (replaced_setPlayer hi (some turn.player) turn.leases).withRecording _

theorem seated?_apply (hs : s.seated? i = some (p, t)) (turn : Turn Player) :
    (s.apply i turn).seated? i = some (turn.player, turn.leases) := by
  obtain ⟨-, home, hi, -⟩ := seated?_eq_some.mp hs
  have r := replaced_apply hi turn
  exact seated?_eq_some.mpr ⟨r.player_self, home, r.home_self, r.table_self⟩

theorem recording_apply (s : Session) (i : Nat) (turn : Turn Player) :
    (s.apply i turn).recording = s.recording.performAll turn.commands := by
  simp [apply, setPlayer]

theorem board_apply (s : Session) (i : Nat) (turn : Turn Player) :
    (s.apply i turn).board = s.board := by
  simp [apply, setPlayer]

theorem player?_join (s : Session) (seat : Seat) (j : Nat) :
    ({ s with seats := s.seats.push seat } : Session).player? j =
      if j = s.seats.size then seat.player else s.player? j := by
  simp only [player?, Array.getElem?_push]
  split <;> rfl

theorem home?_join (s : Session) (seat : Seat) (j : Nat) :
    ({ s with seats := s.seats.push seat } : Session).home? j =
      if j = s.seats.size then some (seat.home j) else s.home? j := by
  simp only [home?, Array.getElem?_push]
  split <;> rfl

theorem table?_join (s : Session) (seat : Seat) (home : Option Nat) :
    ({ s with seats := s.seats.push seat } : Session).table? home =
      if home = some s.seats.size then seat.table else s.table? home := by
  cases home with
  | none => rfl
  | some j =>
    simp only [table?, Array.getElem?_push, Option.some_inj]
    split <;> rfl

/-- What a tick of any player keeps, a tick of all of them keeps. -/
theorem tickAll_keeps {I : Session → Prop} (tick : ∀ s i, I s → I (s.tick i).1) (h : I s) :
    I s.tickAll.1 := by
  unfold tickAll
  generalize ([] : List Notice) = notices
  induction List.range s.seats.size generalizing s notices with
  | nil => exact h
  | cons i rest ih => exact ih (tick s i h) _

theorem loop_keeps {I : Session → Prop} {ms : UInt32} (advance : ∀ s, I s → I (s.advance ms))
    (tick : ∀ s i, I s → I (s.tick i).1) (h : I s) (count : Nat) : I (loop ms count s).1 := by
  induction count generalizing s with
  | zero => exact h
  | succ count ih => exact ih (tickAll_keeps tick (advance s h))

/-- What a session can come to by steps that are allowed where they are taken. -/
inductive Reaches (allowed : Session → Step → Prop) (s : Session) : Session → Prop
  | refl : Reaches allowed s s
  | step {s' : Session} {step : Step} {outcome : Outcome} (reached : Reaches allowed s s')
      (may : allowed s' step) (done : s'.step? step = some outcome) :
      Reaches allowed s outcome.session

variable {allowed : Session → Step → Prop} {s' : Session}

/-- What every allowed step keeps holds of all that is reached. -/
theorem Reaches.keeps {I : Session → Prop}
    (keeps : ∀ s step outcome, I s → allowed s step → s.step? step = some outcome →
      I outcome.session)
    (reached : Reaches allowed s s') (h : I s) : I s' := by
  induction reached with
  | refl => exact h
  | step _ may done ih => exact keeps _ _ _ ih may done

/-- The session after a script, if each of its steps has an answer. -/
def perform? (s : Session) : List Step → Option Session
  | [] => some s
  | step :: rest => (s.step? step).bind fun outcome => outcome.session.perform? rest

theorem reaches_of_perform? {start : Session} (script : List Step)
    (reached : Reaches allowed start s) (may : ∀ s, ∀ step ∈ script, allowed s step)
    (done : s.perform? script = some s') : Reaches allowed start s' := by
  induction script generalizing s with
  | nil =>
    cases done
    exact reached
  | cons step rest ih =>
    obtain ⟨outcome, ho, hrest⟩ := Option.bind_eq_some_iff.mp done
    refine ih (reached.step (may s step List.mem_cons_self) ho) ?_ hrest
    exact fun s step hm => may s step (List.mem_cons_of_mem _ hm)

end Session

end Piezo
