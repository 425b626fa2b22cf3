import Piezo.Proofs.Rendering
import Piezo.Proofs.Shared
import Piezo.Proofs.Voices

/-!
Scenes: what there is of one channel in a session whose players share one table of leases. What a
step makes of the scene of a channel depends on that scene alone, and a step for another channel
makes next to nothing of it.
-/

namespace Piezo

/-- A seat on the channel, or nothing. -/
def Seat.on? (c : Channel) (seat : Seat) : Option Seat :=
  if seat.channel = c then some seat else none

/-- What there is of one channel in a session. Seats on other channels are only counted. -/
structure Scene where
  now : UInt32
  board : Option UInt32
  seats : Array (Option Seat)
  isLeased : Bool
  kept : List Kept
  sounding : Option UInt32
  events : List Event

namespace Scene

def advance (sc : Scene) (ms : UInt32) : Scene :=
  match sc.board with
  | some now => { sc with board := some (now + ms) }
  | none => { sc with now := sc.now + ms }

/-- The scene with another player, or none, in a seat. -/
def setPlayer (sc : Scene) (i : Nat) (player : Option Player) : Scene :=
  { sc with seats := sc.seats.modify i (Option.map fun seat => { seat with player }) }

def perform (sc : Scene) (command : Command) : Scene :=
  { sc with sounding := command.frequency?, events := sc.events ++ [⟨sc.now, command⟩] }

/-- Gives back the channel's lease if it is in the slot. -/
def empty (sc : Scene) (slot : Nat) : Scene :=
  match sc.kept.find? (·.slot = slot) with
  | some kept => { sc with isLeased := false, kept := sc.kept.erase kept }
  | none => sc

end Scene

namespace Session

/-- The scene of a channel. -/
def scene (s : Session) (c : Channel) : Scene where
  now := s.recording.now
  board := s.board
  seats := s.seats.map (Seat.on? c)
  isLeased := s.leases.isLeased c
  kept := s.kept.filter (·.lease.channel = c)
  sounding := s.recording.sounding.get? c
  events := Wave.channelEvents s.recording c

variable {s s' : Session} {c d : Channel} {i slot : Nat} {p : Player} {t : Leases} {seat : Seat}
  {step : Step} {o : Outcome} {f : Player → Leases → Turn Player}

theorem scene_advance (s : Session) (c : Channel) (ms : UInt32) :
    (s.advance ms).scene c = (s.scene c).advance ms := by
  unfold advance Scene.advance
  have hb : (s.scene c).board = s.board := rfl
  rw [hb]
  cases s.board <;> rfl

theorem scene_join (s : Session) (c : Channel) (seat : Seat) :
    ({ s with seats := s.seats.push seat } : Session).scene c =
      { s.scene c with seats := (s.scene c).seats.push (seat.on? c) } := by
  simp only [scene, Array.map_push]

theorem scene_setPlayer (s : Session) (c : Channel) (i : Nat) (player : Option Player) :
    (s.setPlayer i player).scene c = (s.scene c).setPlayer i player := by
  have hseats := map_modify (f := Seat.on? c) (g := fun seat => { seat with player })
    (h := Option.map fun seat => { seat with player })
    (fun seat => by unfold Seat.on?; split <;> rfl) s.seats i
  simp only [setPlayer, scene, Scene.setPlayer, hseats]

/-- A player on another channel may be replaced. -/
theorem setPlayer_scene_of_ne (hs : s.seats[i]? = some seat) (hc : seat.channel ≠ c)
    (player : Option Player) : (s.scene c).setPlayer i player = s.scene c := by
  have hseats : (s.scene c).seats.modify i (Option.map fun seat => { seat with player }) =
      (s.scene c).seats := by
    apply Array.ext_getElem?
    intro j
    rw [Array.getElem?_modify]
    split
    · next hj =>
      subst hj
      simp [scene, hs, Seat.on?, hc]
    · rfl
  simp only [Scene.setPlayer, hseats]

theorem scene_perform (s : Session) (c : Channel) (command : Command) :
    ({ s with recording := s.recording.perform command } : Session).scene c =
      if command.channel = c then (s.scene c).perform command else s.scene c := by
  have hsounding : (s.recording.perform command).sounding.get? c =
      if command.channel = c then command.frequency? else s.recording.sounding.get? c := by
    rw [Recording.perform, Soundings.get?_perform]
    simp only [eq_comm]
  simp only [scene, hsounding, Wave.channelEvents_perform, Scene.perform]
  split <;> rfl

theorem scene_performAll (s : Session) (c : Channel) (commands : List Command) :
    ({ s with recording := s.recording.performAll commands } : Session).scene c =
      (commands.filter (·.channel = c)).foldl Scene.perform (s.scene c) := by
  induction commands generalizing s with
  | nil => rfl
  | cons command rest ih =>
    refine (ih { s with recording := s.recording.perform command }).trans ?_
    rw [scene_perform, List.filter_cons]
    by_cases hc : command.channel = c <;> simp [hc]

theorem scene_empty (h : Kept.Tidy s.kept) (slot : Nat) (c : Channel) :
    (s.empty slot).1.scene c = (s.scene c).empty slot := by
  have hf : (s.scene c).kept.find? (·.slot = slot) =
      (s.lent? slot).filter (·.lease.channel = c) := h.find?_filter slot _
  unfold Scene.empty
  rw [hf]
  obtain ⟨hl, he⟩ | ⟨k, -, -, hl, he⟩ := empty_cases h slot
  · simp [hl, he]
  · by_cases hc : k.lease.channel = c
    · simp [hl, he, hc, scene, Option.filter, h.filter_erase, Leases.isLeased_release]
    · simp [hl, he, hc, scene, Option.filter, h.filter_erase, Leases.isLeased_release,
        Ne.symm hc]

theorem scene_keep (h : Kept.Tidy s.kept) (kept : Kept) (c : Channel) :
    (s.keep kept).scene c =
      if kept.lease.channel = c then
        { (s.scene c).empty kept.slot with kept := kept :: ((s.scene c).empty kept.slot).kept }
      else (s.scene c).empty kept.slot := by
  rw [← scene_empty h]
  by_cases hc : kept.lease.channel = c <;> simp [keep, scene, hc]

theorem scene_apply (h : s.Shared) (hs : s.seats[i]? = some seat) (turn : Turn Player)
    (c : Channel) :
    (s.apply i turn).scene c =
      (turn.commands.filter (·.channel = c)).foldl Scene.perform
        ({ s.scene c with isLeased := turn.leases.isLeased c }.setPlayer i turn.player) := by
  unfold apply
  rw [scene_performAll, h.setTable_eq hs, scene_setPlayer]
  rfl

theorem scene_dropped (s : Session) (i : Nat) (t : Leases) (c : Channel) :
    (({ s with leases := t } : Session).setPlayer i none).scene c =
      { s.scene c with isLeased := t.isLeased c }.setPlayer i none :=
  scene_setPlayer _ c i none

theorem scene_lend (h : Kept.Tidy s.kept) (ht : t.channels = d :: s.leases.channels) (slot : Nat)
    (c : Channel) :
    (({ s with leases := t } : Session).keep ⟨slot, ⟨d⟩, none⟩).scene c =
      if d = c then
        let sc := { s.scene c with isLeased := true }.empty slot
        { sc with kept := ⟨slot, ⟨d⟩, none⟩ :: sc.kept }
      else (s.scene c).empty slot := by
  rw [scene_keep (s := { s with leases := t }) h]
  have hs : ({ s with leases := t } : Session).scene c =
      { s.scene c with isLeased := decide (c = d) || s.leases.isLeased c } := by
    rw [← Leases.isLeased_of_cons ht]
    rfl
  by_cases hc : d = c
  · simp [hc, hs]
  · simp [hc, hs, Ne.symm hc]
    rfl

/-- A turn of a player on another channel leaves the scene as it was. -/
theorem scene_apply_of_ne (h : s.Shared) (hs : s.seats[i]? = some seat)
    (hp : seat.player = some p) (hne : seat.channel ≠ c) {turn : Turn Player}
    (k : p.Local s.leases turn) : (s.apply i turn).scene c = s.scene c := by
  obtain ⟨-, -, hpc⟩ := h.player hs hp
  have hnone : turn.commands.filter (·.channel = c) = [] := by
    refine List.filter_eq_nil_iff.mpr fun command hm => ?_
    simpa [k.commands command hm, hpc] using hne
  have hleased : turn.leases.isLeased c = (s.scene c).isLeased :=
    k.leased c (by rw [hpc]; exact hne.symm)
  rw [scene_apply h hs, hnone, hleased]
  exact setPlayer_scene_of_ne hs hne _

theorem scene_call_of_ne (h : s.Shared) (hs : s.seats[i]? = some seat) (hne : seat.channel ≠ c)
    (k : Player.IsCall f) : (s.call i f).1.scene c = s.scene c := by
  rw [h.call_eq hs]
  cases hp : seat.player with
  | none => rfl
  | some p =>
    obtain ⟨hc, hl, -⟩ := h.player hs hp
    exact scene_apply_of_ne h hs hp hne ((k.proper p s.leases hc hl).isLocal hc)

theorem scene_drop_of_ne (h : s.Shared) (hs : s.seats[i]? = some seat) (hne : seat.channel ≠ c) :
    (s.drop i).scene c = s.scene c := by
  rw [h.drop_eq hs]
  cases hp : seat.player with
  | none => rfl
  | some p =>
    obtain ⟨hcoherent, -, hpc⟩ := h.player hs hp
    have hl : (p.drop s.leases).isLeased c = (s.scene c).isLeased :=
      Player.isLeased_drop hcoherent s.leases (by rw [hpc]; exact hne.symm)
    rw [scene_dropped, hl]
    exact setPlayer_scene_of_ne hs hne none

theorem scene_start_of_ne (h : s.Shared) {request : Request}
    (hd : s.channel? (.start i request) = some d) (hne : d ≠ c)
    (ho : s.step? (.start i request) = some o) : o.session.scene c = s.scene c := by
  obtain ⟨seat, p, attempt, hs, hp, ha, rfl⟩ := h.start_cases ho
  have hcoherent := (h.player hs hp).1
  refine scene_apply_of_ne h hs hp ?_ ((Player.start?_decided hcoherent ha).isLocal hcoherent)
  simp only [channel?, hs, Option.map_some, Option.some.injEq] at hd
  rwa [hd]

/-- A slot without a lease of the channel is nothing to its scene. -/
theorem empty_scene_of_ne (h : Kept.Tidy s.kept)
    (hne : ∀ k, s.lent? slot = some k → k.lease.channel ≠ c) :
    (s.scene c).empty slot = s.scene c := by
  have hf : (s.scene c).kept.find? (·.slot = slot) = none := by
    refine (h.find?_filter slot _).trans ?_
    change (s.lent? slot).filter _ = none
    cases hl : s.lent? slot with
    | none => rfl
    | some k => simp [Option.filter, hne k hl]
  simp only [Scene.empty, hf]

theorem scene_lend_of_ne (h : s.Shared) (hslot : step.slot? = some slot)
    (hd : s.channel? step = some d) (hne : d ≠ c) (ho : s.step? step = some o) :
    o.session.scene c =
      if s.leases.isLeased d then s.scene c
      else step.slot?.elim (s.scene c) (s.scene c).empty := by
  obtain ⟨hl, he⟩ | ⟨hl, t, answer, ht, -, he⟩ := lend_cases h hslot hd <;>
    cases ho.symm.trans he
  · simp [hl]
  · simp only [scene_lend h.tidy ht, if_neg hne, hl, hslot]
    rfl

/-- A step for another channel leaves the scene as it was, but that a lease put into a slot takes
the place of what is there. -/
theorem scene_step_of_ne (h : s.Shared) (simple : step.IsSimple) (hd : s.channel? step = some d)
    (hne : d ≠ c) (ho : s.step? step = some o) :
    o.session.scene c =
      if s.leases.isLeased d then s.scene c
      else step.slot?.elim (s.scene c) (s.scene c).empty := by
  have plain : o.session.scene c = s.scene c → step.slot? = none →
      o.session.scene c = if s.leases.isLeased d then s.scene c
        else step.slot?.elim (s.scene c) (s.scene c).empty := by
    intro he hn
    rw [he, hn]
    exact (ite_self _).symm
  cases step with
  | loop => cases simple
  | run => cases simple
  | advance | advanceOutput | setTime | join | clear => cases hd
  | command command =>
    cases ho
    cases hd
    exact plain (by rw [scene_perform, if_neg hne]) rfl
  | start i request => exact plain (scene_start_of_ne h hd hne ho) rfl
  | tick i =>
    obtain ⟨seat, hs, ⟨⟩⟩ := Option.bind_eq_some_iff.mp ho
    simp only [channel?, hs, Option.map_some, Option.some.injEq] at hd
    exact plain (scene_call_of_ne h hs (hd ▸ hne) (Player.isCall_tick s.now)) rfl
  | stop i =>
    obtain ⟨seat, hs, ⟨⟩⟩ := Option.bind_eq_some_iff.mp ho
    simp only [channel?, hs, Option.map_some, Option.some.injEq] at hd
    exact plain (scene_call_of_ne h hs (hd ▸ hne) Player.isCall_stop) rfl
  | drop i =>
    obtain ⟨seat, hs, ⟨⟩⟩ := Option.bind_eq_some_iff.mp ho
    simp only [channel?, hs, Option.map_some, Option.some.injEq] at hd
    exact plain (scene_drop_of_ne h hs (hd ▸ hne)) rfl
  | release slot =>
    cases ho
    obtain ⟨k, hk, rfl⟩ := Option.map_eq_some_iff.mp hd
    refine plain ((scene_empty h.tidy slot c).trans (empty_scene_of_ne h.tidy ?_)) rfl
    rintro k' hk'
    cases hk.symm.trans hk'
    exact hne
  | lease channel slot => exact scene_lend_of_ne h rfl hd hne ho
  | leaseOwn i slot => exact scene_lend_of_ne h rfl hd hne ho

end Session

end Piezo
