import Piezo.Simulation

/-!
Sessions: any number of players that share an output and, unless they keep to themselves, one
table of leases.

Players are seated in the order in which they join. Leases can also be held outside players; each
of those is kept in a numbered slot. The players read the recording's clock, or a clock of their
own if the board has one.
-/

namespace Piezo

structure Seat where
  channel : Channel
  /-- The player's own table of leases, if it does not share the session's. -/
  table : Option Leases
  /-- The player, until it is dropped. -/
  player : Option Player

/-- A lease held outside the players. -/
structure Kept where
  slot : Nat
  lease : Lease
  /-- The seat whose own table it comes from; none for the shared table. -/
  home : Option Nat
deriving DecidableEq, Repr

structure Session where
  leases : Leases := {}
  seats : Array Seat := #[]
  kept : List Kept := []
  recording : Recording := {}
  /-- The players' own clock, if they do not read the recording's. -/
  board : Option UInt32 := none

inductive Step where
  | advance (ms : UInt32)
  /-- Moves the recording's clock, whatever clock the players read. -/
  | advanceOutput (ms : UInt32)
  | setTime (now : UInt32)
  | join (kind : Kind) (channel : Channel) (own : Bool) (settings : Settings)
  | start (seat : Nat) (request : Request)
  | tick (seat : Nat)
  | stop (seat : Nat)
  | drop (seat : Nat)
  /-- So many times, moves the clock on and ticks every player. -/
  | loop (ms : UInt32) (count : Nat)
  /-- Ticks one player by the recording's clock until it is idle or a time is spent. -/
  | run (seat : Nat) (step limit : UInt32)
  | lease (channel : Channel) (slot : Nat)
  /-- Leases a player's channel from the table that the player uses. -/
  | leaseOwn (seat : Nat) (slot : Nat)
  | release (slot : Nat)
  /-- Gives the output a command that comes from no player. -/
  | command (command : Command)
  | clear

inductive Answer where
  | ok
  | refused (error : Error)
  | spent (ms : UInt32)
  | leased (lease : Lease)
  /-- A lease, and how many channels of its table are leased once it is taken. -/
  | leasedOf (lease : Lease) (count : Nat)
  | released (wasKept : Bool)

structure Outcome where
  session : Session
  answer : Answer := .ok
  notices : List Notice := []

namespace Session

def now (s : Session) : UInt32 := s.board.getD s.recording.now

def tableOf (s : Session) (seat : Seat) : Leases := seat.table.getD s.leases

/-- The session with another table where a seat's table was. -/
def setTable (s : Session) (i : Nat) (leases : Leases) : Session :=
  match s.seats[i]? with
  | some seat =>
    if seat.table.isSome then
      { s with seats := s.seats.setIfInBounds i { seat with table := some leases } }
    else { s with leases }
  | none => s

/-- The session with another player, or none, in a seat. -/
def setPlayer (s : Session) (i : Nat) (player : Option Player) : Session :=
  { s with seats := s.seats.modify i fun seat => { seat with player } }

def seated? (s : Session) (i : Nat) : Option (Player × Leases) := do
  let seat ← s.seats[i]?
  let player ← seat.player
  return (player, s.tableOf seat)

def advance (s : Session) (ms : UInt32) : Session :=
  match s.board with
  | some now => { s with board := some (now + ms) }
  | none => { s with recording := s.recording.advance ms }

def apply (s : Session) (i : Nat) (turn : Turn Player) : Session :=
  let s := (s.setTable i turn.leases).setPlayer i (some turn.player)
  { s with recording := s.recording.performAll turn.commands }

def tick (s : Session) (i : Nat) : Session × List Notice :=
  match s.seated? i with
  | some (player, leases) =>
    let turn := player.tick leases s.now
    (s.apply i turn, turn.notices)
  | none => (s, [])

def stop (s : Session) (i : Nat) : Session × List Notice :=
  match s.seated? i with
  | some (player, leases) =>
    let turn := player.stop leases
    (s.apply i turn, turn.notices)
  | none => (s, [])

def drop (s : Session) (i : Nat) : Session :=
  match s.seated? i with
  | some (player, leases) => (s.setTable i (player.drop leases)).setPlayer i none
  | none => s

/-- Ticks every player, in the order of their seats. -/
def tickAll (s : Session) : Session × List Notice :=
  (List.range s.seats.size).foldl
    (fun (s, notices) i =>
      let (s, more) := s.tick i
      (s, notices ++ more))
    (s, [])

/-- So many times, moves the clock on and ticks every player. -/
def loop (ms : UInt32) : Nat → Session → Session × List Notice
  | 0, s => (s, [])
  | count + 1, s =>
    let (s, notices) := (s.advance ms).tickAll
    let (s, more) := loop ms count s
    (s, notices ++ more)

/-- Takes a lease back that was held outside the players. -/
def giveBack (s : Session) (kept : Kept) : Session :=
  match kept.home with
  | none => { s with leases := s.leases.release kept.lease }
  | some i =>
    match s.seats[i]? with
    | some seat => s.setTable i ((s.tableOf seat).release kept.lease)
    | none => s

def empty (s : Session) (slot : Nat) : Session × Bool :=
  match s.kept.find? (·.slot = slot) with
  | some kept => ({ s with kept := s.kept.erase kept }.giveBack kept, true)
  | none => (s, false)

/-- Puts a lease into a slot. One that is there already is given back. -/
def keep (s : Session) (kept : Kept) : Session :=
  let (s, _) := s.empty kept.slot
  { s with kept := kept :: s.kept }

/-- Carries out one step. Nothing happens to an empty seat that is ticked, stopped or dropped. There
is no answer if the step names no seat, starts or runs an empty one, or asks a player for what
another kind plays. -/
def step? (s : Session) : Step → Option Outcome
  | .advance ms => some { session := s.advance ms }
  | .advanceOutput ms => some { session := { s with recording := s.recording.advance ms } }
  | .setTime now => some { session := { s with recording := s.recording.setTime now } }
  | .join kind channel own settings =>
    let seat : Seat :=
      { channel
        table := if own then some {} else none
        player := some (Player.idle kind channel settings) }
    some { session := { s with seats := s.seats.push seat } }
  | .start i request => do
    let (player, leases) ← s.seated? i
    let attempt ← player.start? leases s.now request
    let answer : Answer :=
      match attempt.verdict with
      | .ok () => .ok
      | .error error => .refused error
    return { session := s.apply i attempt.toTurn, answer, notices := attempt.notices }
  | .tick i => do
    let _ ← s.seats[i]?
    let (s, notices) := s.tick i
    return { session := s, notices }
  | .stop i => do
    let _ ← s.seats[i]?
    let (s, notices) := s.stop i
    return { session := s, notices }
  | .drop i => do
    let _ ← s.seats[i]?
    return { session := s.drop i }
  | .loop ms count =>
    let (s, notices) := loop ms count s
    some { session := s, notices }
  | .run i step limit => do
    let (player, leases) ← s.seated? i
    let run := player.runUntilIdle leases step limit s.recording
    let s := (s.setTable i run.state.leases).setPlayer i (some run.state.player)
    return {
      session := { s with recording := run.recording }
      answer := .spent run.spent
      notices := run.state.notices }
  | .lease channel slot =>
    match s.leases.acquire channel with
    | .ok (lease, leases) =>
      some { session := { s with leases }.keep ⟨slot, lease, none⟩, answer := .leased lease }
    | .error error => some { session := s, answer := .refused error }
  | .leaseOwn i slot => do
    let seat ← s.seats[i]?
    match (s.tableOf seat).acquire seat.channel with
    | .ok (lease, leases) =>
      let kept : Kept := ⟨slot, lease, seat.table.map fun _ => i⟩
      return { session := (s.setTable i leases).keep kept, answer := .leasedOf lease leases.count }
    | .error error => return { session := s, answer := .refused error }
  | .release slot =>
    let (s, wasKept) := s.empty slot
    some { session := s, answer := .released wasKept }
  | .command command => some { session := { s with recording := s.recording.perform command } }
  | .clear => some { session := { s with recording := s.recording.clear } }

end Session

end Piezo
