import Mathlib.Data.List.Nodup
import Piezo.Proofs.Accounted
import Piezo.Proofs.Agree

/-!
Shared tables: sessions whose players all use one table of leases, and what each simple step is in
such a session.
-/

namespace Piezo

namespace Kept

/-- The leases are all from the shared table, one in a slot. -/
structure Tidy (kept : List Kept) : Prop where
  shared : ∀ k ∈ kept, k.home = none
  slots : (kept.map slot).Nodup

namespace Tidy

variable {kept : List Kept} {k : Kept}

theorem filter (h : Tidy kept) (p : Kept → Bool) : Tidy (kept.filter p) where
  shared k hk := h.shared k (List.mem_filter.mp hk).1
  slots := h.slots.sublist (List.filter_sublist.map slot)

theorem erase (h : Tidy kept) (k : Kept) : Tidy (kept.erase k) where
  shared k hk := h.shared k (List.mem_of_mem_erase hk)
  slots := h.slots.sublist (List.erase_sublist.map slot)

theorem cons (h : Tidy kept) (hk : k.home = none) (hs : k.slot ∉ kept.map slot) :
    Tidy (k :: kept) where
  shared := List.forall_mem_cons.mpr ⟨hk, h.shared⟩
  slots := List.nodup_cons.mpr ⟨hs, h.slots⟩

theorem slot_not_mem_erase (h : Tidy kept) (hk : k ∈ kept) : k.slot ∉ (kept.erase k).map slot := by
  have hp : ((k :: kept.erase k).map slot).Nodup :=
    ((List.perm_cons_erase hk).map slot).nodup_iff.mp h.slots
  exact (List.nodup_cons.mp hp).1

/-- A slot may be looked up before a selection or after it. -/
theorem find?_filter (h : Tidy kept) (n : Nat) (p : Kept → Bool) :
    (kept.filter p).find? (·.slot = n) = (kept.find? (·.slot = n)).filter p := by
  induction kept with
  | nil => rfl
  | cons k rest ih =>
    obtain ⟨hk, hrest⟩ := List.nodup_cons.mp h.slots
    by_cases hs : k.slot = n
    · cases hp : p k with
      | true => simp [hs, hp, Option.filter]
      | false =>
        have hn : (rest.filter p).find? (·.slot = n) = none := by
          refine List.find?_eq_none.mpr fun other ho => ?_
          have hm := List.mem_map_of_mem (f := slot) (List.mem_filter.mp ho).1
          simpa using fun he : other.slot = n => hk (hs.trans he.symm ▸ hm)
        simpa [hs, hp, Option.filter] using hn
    · have ih := ih ⟨fun k hk => h.shared k (List.mem_cons_of_mem _ hk), hrest⟩
      cases hp : p k <;> simp [hs, hp, ih]

theorem filter_erase (h : Tidy kept) (k : Kept) (p : Kept → Bool) :
    (kept.erase k).filter p = if p k then (kept.filter p).erase k else kept.filter p := by
  have hn : kept.Nodup := .of_map slot h.slots
  rw [hn.erase_eq_filter, List.filter_filter]
  split
  · next hp =>
    rw [(hn.filter p).erase_eq_filter, List.filter_filter]
    simp only [Bool.and_comm]
  · next hp =>
    apply List.filter_congr
    intro other _
    by_cases ho : other = k <;> simp [ho, hp]

end Tidy

end Kept

namespace Step

/-- The steps of which the others are made, for players that share one table. -/
def IsSimple : Step → Prop
  | .join _ _ own _ => own = false
  | .loop .. | .run .. => False
  | _ => True

/-- The slot that a step puts a lease into. -/
def slot? : Step → Option Nat
  | .lease _ slot | .leaseOwn _ slot => some slot
  | _ => none

end Step

/-- An answer without what it says of the whole table. -/
def Answer.uncounted : Answer → Answer
  | .leasedOf lease _ => .leased lease
  | answer => answer

/-- A call in which a player takes a proper turn and notices no other channel. -/
structure Player.IsCall (f : Player → Leases → Turn Player) : Prop where
  proper : ∀ (p : Player) (leases : Leases), p.Coherent → p.Listed leases →
    p.Proper leases (f p leases)
  agree : ∀ (p : Player) (c : Channel) (t u : Leases), u.isLeased c = t.isLeased c →
    (f p t).Agree c (f p u)

theorem Player.isCall_tick (now : UInt32) : IsCall fun p leases => p.tick leases now :=
  ⟨fun _ _ => tick_proper, fun p _ _ _ h => p.tick_agree h now⟩

theorem Player.isCall_stop : IsCall Player.stop :=
  ⟨fun _ _ => stop_proper, fun p _ _ _ h => p.stop_agree h⟩

namespace Session

variable {s s' : Session} {c d : Channel} {i slot : Nat} {p : Player} {seat : Seat} {step : Step}
  {o : Outcome} {f : Player → Leases → Turn Player}

/-- The lease that is kept in a slot. -/
def lent? (s : Session) (slot : Nat) : Option Kept := s.kept.find? (·.slot = slot)

/-- The channel that a step is for, unless it is for all of them or for none. -/
def channel? (s : Session) : Step → Option Channel
  | .start i _ | .tick i | .stop i | .drop i | .leaseOwn i _ => (s.seats[i]?).map (·.channel)
  | .lease channel _ => some channel
  | .release slot => (s.lent? slot).map (·.lease.channel)
  | .command command => some command.channel
  | _ => none

/-- Lets the player in a seat take a turn, if there is one. -/
def call (s : Session) (i : Nat) (f : Player → Leases → Turn Player) : Session × List Notice :=
  match s.seated? i with
  | some (player, leases) => (s.apply i (f player leases), (f player leases).notices)
  | none => (s, [])

/-- The outcome of a player's attempt to start. -/
def started (s : Session) (i : Nat) (attempt : Attempt Player) : Outcome where
  session := s.apply i attempt.toTurn
  answer :=
    match attempt.verdict with
    | .ok () => .ok
    | .error error => .refused error
  notices := attempt.notices

theorem step?_of_attempt {t : Leases} {request : Request} {attempt : Attempt Player}
    (hs : s.seated? i = some (p, t)) (ha : p.start? t s.now request = some attempt) :
    s.step? (.start i request) = some (s.started i attempt) :=
  Option.bind_eq_some_iff.mpr ⟨_, hs, Option.bind_eq_some_iff.mpr ⟨attempt, ha, rfl⟩⟩

theorem answer_started (s : Session) (i : Nat) (attempt : Attempt Player) :
    (s.started i attempt).answer = .ok ↔ attempt.verdict = .ok () := by
  unfold started
  cases hv : attempt.verdict <;> simp

theorem tick_eq_call (s : Session) (i : Nat) :
    s.tick i = s.call i fun p leases => p.tick leases s.now := rfl

theorem kept_apply (s : Session) (i : Nat) (turn : Turn Player) :
    (s.apply i turn).kept = s.kept := by
  simp [apply, setPlayer]

theorem kept_call (s : Session) (i : Nat) (f : Player → Leases → Turn Player) :
    (s.call i f).1.kept = s.kept := by
  unfold call
  split
  · exact kept_apply ..
  · rfl

theorem kept_drop (s : Session) (i : Nat) : (s.drop i).kept = s.kept := by
  unfold drop
  split
  · simp [setPlayer]
  · rfl

theorem kept_advance (s : Session) (ms : UInt32) : (s.advance ms).kept = s.kept := by
  unfold advance
  split <;> rfl

theorem kept_giveBack (s : Session) (kept : Kept) : (s.giveBack kept).kept = s.kept := by
  unfold giveBack
  split
  · rfl
  · split <;> simp

theorem kept_empty_subset (s : Session) (slot : Nat) : (s.empty slot).1.kept ⊆ s.kept := by
  unfold empty
  split
  · rw [kept_giveBack]
    exact List.erase_subset
  · exact List.Subset.refl _

theorem empty_snd (s : Session) (slot : Nat) : (s.empty slot).2 = (s.lent? slot).isSome := by
  unfold empty lent?
  cases s.kept.find? (·.slot = slot) <;> rfl

/-- A slot is empty or gives its lease back to the shared table. -/
theorem empty_cases (h : Kept.Tidy s.kept) (slot : Nat) :
    (s.lent? slot = none ∧ s.empty slot = (s, false)) ∨
      ∃ k ∈ s.kept, k.slot = slot ∧ s.lent? slot = some k ∧
        s.empty slot =
          ({ s with leases := s.leases.release k.lease, kept := s.kept.erase k }, true) := by
  unfold empty
  cases hl : s.kept.find? (·.slot = slot) with
  | none => exact .inl ⟨hl, rfl⟩
  | some k =>
    have hm : k ∈ s.kept := List.mem_of_find?_eq_some hl
    refine .inr ⟨k, hm, by simpa using List.find?_some hl, hl, ?_⟩
    simp only [giveBack, h.shared k hm]

theorem tidy_empty (h : Kept.Tidy s.kept) (slot : Nat) :
    Kept.Tidy (s.empty slot).1.kept ∧ slot ∉ (s.empty slot).1.kept.map Kept.slot := by
  obtain ⟨hl, he⟩ | ⟨k, hm, hs, -, he⟩ := empty_cases h slot
  · rw [he]
    refine ⟨h, fun hm => ?_⟩
    obtain ⟨k, hk, hs⟩ := List.mem_map.mp hm
    exact List.find?_eq_none.mp hl k hk (by simpa using hs)
  · rw [he]
    exact ⟨h.erase k, hs ▸ h.slot_not_mem_erase hm⟩

theorem tidy_keep (h : Kept.Tidy s.kept) {kept : Kept} (hk : kept.home = none) :
    Kept.Tidy (s.keep kept).kept :=
  (tidy_empty h kept.slot).1.cons hk (tidy_empty h kept.slot).2

theorem seats_empty (h : Kept.Tidy s.kept) (slot : Nat) : (s.empty slot).1.seats = s.seats := by
  obtain ⟨-, he⟩ | ⟨k, -, -, -, he⟩ := empty_cases h slot <;> rw [he]

/-- The players share one table, and each sits in a seat of its own channel. -/
structure Shared (s : Session) : Prop where
  accounted : s.Accounted []
  tables : ∀ (i : Nat) (seat : Seat), s.seats[i]? = some seat → seat.table = none
  channels : ∀ (i : Nat) (seat : Seat) (p : Player), s.seats[i]? = some seat →
    seat.player = some p → p.channel = seat.channel
  tidy : Kept.Tidy s.kept

namespace Shared

theorem seated?_eq (h : s.Shared) (hs : s.seats[i]? = some seat) :
    s.seated? i = seat.player.map fun p => (p, s.leases) := by
  unfold seated?
  cases hp : seat.player <;> simp [hs, hp, tableOf, h.tables i seat hs]

theorem setTable_eq (h : s.Shared) (hs : s.seats[i]? = some seat) (t : Leases) :
    s.setTable i t = { s with leases := t } := by
  simp [setTable, hs, h.tables i seat hs]

/-- Beside the seats and the slots, anything may change that leaves the leases accounted for. -/
theorem frame (h : s.Shared) (accounted : s'.Accounted []) (seats : s'.seats = s.seats)
    (tidy : Kept.Tidy s'.kept) : s'.Shared where
  accounted := accounted
  tables := seats ▸ h.tables
  channels := seats ▸ h.channels
  tidy := tidy

theorem replace (h : s.Shared) (accounted : s'.Accounted []) (player : Option Player)
    (seats : s'.seats = s.seats.modify i fun seat => { seat with player })
    (kept : s'.kept = s.kept) (hs : s.seats[i]? = some seat)
    (channel : ∀ q, player = some q → q.channel = seat.channel) : s'.Shared where
  accounted := accounted
  tables := by
    intro j other ho
    rw [seats, Array.getElem?_modify] at ho
    split at ho
    · next hj =>
      subst hj
      rw [hs] at ho
      cases ho
      exact h.tables i seat hs
    · exact h.tables j other ho
  channels := by
    intro j other q ho hq
    rw [seats, Array.getElem?_modify] at ho
    split at ho
    · next hj =>
      subst hj
      rw [hs] at ho
      cases ho
      exact channel q hq
    · exact h.channels j other q ho hq
  tidy := kept ▸ h.tidy

theorem player (h : s.Shared) (hs : s.seats[i]? = some seat) (hp : seat.player = some p) :
    p.Coherent ∧ p.Listed s.leases ∧ p.channel = seat.channel := by
  have hi : s.player? i = some p := by simp [player?, hs, hp]
  have hh : s.home? i = some none := by simp [home?, hs, Seat.home, h.tables i seat hs]
  exact ⟨h.accounted.coherent i p hi, h.accounted.listed hh hi rfl, h.channels i seat p hs hp⟩

theorem apply (h : s.Shared) (hs : s.seats[i]? = some seat) (hp : seat.player = some p)
    {turn : Turn Player} (accounted : (s.apply i turn).Accounted [])
    (channel : turn.player.channel = p.channel) : (s.apply i turn).Shared := by
  have hc : turn.player.channel = seat.channel := channel.trans (h.player hs hp).2.2
  refine h.replace accounted turn.player ?_ ?_ hs (by rintro q ⟨⟩; exact hc)
  · simp only [Session.apply, h.setTable_eq hs, setPlayer]
  · simp only [Session.apply, h.setTable_eq hs, setPlayer]

end Shared

theorem Shared.call_eq (h : s.Shared) (hs : s.seats[i]? = some seat) :
    s.call i f =
      match seat.player with
      | some p => (s.apply i (f p s.leases), (f p s.leases).notices)
      | none => (s, []) := by
  unfold Session.call
  rw [h.seated?_eq hs]
  cases seat.player <;> rfl

theorem Shared.call (h : s.Shared) (hs : s.seats[i]? = some seat) (k : Player.IsCall f) :
    (s.call i f).1.Shared := by
  rw [h.call_eq hs]
  cases hp : seat.player with
  | none => exact h
  | some p =>
    have hseated : s.seated? i = some (p, s.leases) := by simp [h.seated?_eq hs, hp]
    obtain ⟨kp, accounted⟩ := h.accounted.proper hseated (k.proper p s.leases)
    exact h.apply hs hp accounted kp.channel

theorem Shared.drop_eq (h : s.Shared) (hs : s.seats[i]? = some seat) :
    s.drop i =
      match seat.player with
      | some p => ({ s with leases := p.drop s.leases } : Session).setPlayer i none
      | none => s := by
  unfold Session.drop
  rw [h.seated?_eq hs]
  cases seat.player with
  | none => rfl
  | some p => simp only [Option.map_some, h.setTable_eq hs]

theorem Shared.drop (h : s.Shared) (hs : s.seats[i]? = some seat) : (s.drop i).Shared := by
  have accounted := h.accounted.drop i
  rw [h.drop_eq hs] at accounted ⊢
  cases hp : seat.player with
  | none => exact h
  | some p =>
    simp only [hp] at accounted
    exact h.replace accounted none rfl rfl hs (by simp)

/-- A start in a session is an attempt of the player in the seat. -/
theorem Shared.start_cases (h : s.Shared) {request : Request}
    (ho : s.step? (.start i request) = some o) :
    ∃ seat p attempt, s.seats[i]? = some seat ∧ seat.player = some p ∧
      p.start? s.leases s.now request = some attempt ∧
      o = s.started i attempt := by
  obtain ⟨⟨p, t⟩, hseated, ho⟩ := Option.bind_eq_some_iff.mp ho
  obtain ⟨attempt, ha, ⟨⟩⟩ := Option.bind_eq_some_iff.mp ho
  obtain ⟨seat, hs, -⟩ := Option.bind_eq_some_iff.mp hseated
  rw [h.seated?_eq hs] at hseated
  obtain ⟨p, hp, ⟨⟩⟩ := Option.map_eq_some_iff.mp hseated
  exact ⟨seat, p, attempt, hs, hp, ha, rfl⟩

theorem Shared.start_of_attempt (h : s.Shared) {request : Request} {attempt : Attempt Player}
    (hs : s.seats[i]? = some seat) (hp : seat.player = some p)
    (ha : p.start? s.leases s.now request = some attempt) :
    s.step? (.start i request) = some (s.started i attempt) :=
  step?_of_attempt (by simp [h.seated?_eq hs, hp]) ha

theorem Shared.start (h : s.Shared) {request : Request}
    (ho : s.step? (.start i request) = some o) : o.session.Shared := by
  have accounted := h.accounted.step ho
  obtain ⟨seat, p, attempt, hs, hp, ha, rfl⟩ := h.start_cases ho
  have hcoherent := (h.player hs hp).1
  exact h.apply hs hp accounted ((Player.start?_decided hcoherent ha).isLocal hcoherent).channel

/-- A lease of a busy channel is refused, and any other goes into its slot. -/
theorem lend_cases (h : s.Shared) (hslot : step.slot? = some slot) (hd : s.channel? step = some d) :
    (s.leases.isLeased d = true ∧
        s.step? step = some { session := s, answer := .refused (.channelBusy d) }) ∨
      (s.leases.isLeased d = false ∧ ∃ t answer, t.channels = d :: s.leases.channels ∧
        answer.uncounted = .leased ⟨d⟩ ∧
        s.step? step =
          some { session := ({ s with leases := t } : Session).keep ⟨slot, ⟨d⟩, none⟩
                 answer }) := by
  have hacquire := s.leases.acquire_cases d
  cases step <;> cases hslot
  case lease =>
    cases hd
    obtain ⟨hl, he⟩ | ⟨hl, t, he, ht⟩ := hacquire
    · exact .inl ⟨hl, by simp only [step?, he]⟩
    · exact .inr ⟨hl, t, _, ht, rfl, by simp only [step?, he]; rfl⟩
  case leaseOwn i =>
    obtain ⟨seat, hs, rfl⟩ := Option.map_eq_some_iff.mp hd
    have htable := h.tables i seat hs
    have htableOf : s.tableOf seat = s.leases := by simp [tableOf, htable]
    obtain ⟨hl, he⟩ | ⟨hl, t, he, ht⟩ := hacquire
    · exact .inl ⟨hl, by simp [step?, hs, htableOf, he]⟩
    · exact .inr ⟨hl, t, _, ht, rfl, by
        simp only [step?, hs, htableOf, he, h.setTable_eq hs, htable, Option.bind_eq_bind,
          Option.bind_some, Option.pure_def, Option.map_none]; rfl⟩

theorem Shared.lend (h : s.Shared) (hslot : step.slot? = some slot)
    (hd : s.channel? step = some d) (ho : s.step? step = some o) : o.session.Shared := by
  have accounted := h.accounted.step ho
  obtain ⟨-, he⟩ | ⟨-, t, answer, -, -, he⟩ := lend_cases h hslot hd <;> cases ho.symm.trans he
  · exact h
  · refine h.frame accounted ?_ (tidy_keep (s := { s with leases := t }) h.tidy rfl)
    exact seats_empty (s := { s with leases := t }) h.tidy slot

/-- Every simple step keeps a session shared. -/
theorem shared_step (h : s.Shared) (simple : step.IsSimple) (ho : s.step? step = some o) :
    o.session.Shared := by
  have accounted := h.accounted.step ho
  cases step with
  | loop => cases simple
  | run => cases simple
  | advance ms =>
    cases ho
    refine h.frame accounted ?_ (by rw [kept_advance]; exact h.tidy)
    unfold Session.advance
    split <;> rfl
  | advanceOutput | setTime | clear | command =>
    cases ho
    exact h.frame accounted rfl h.tidy
  | join kind channel own settings =>
    cases ho
    cases (simple : own = false)
    constructor
    case accounted => exact accounted
    case tables =>
      intro i seat hs
      rw [Array.getElem?_push] at hs
      split at hs
      · cases hs
        rfl
      · exact h.tables i seat hs
    case channels =>
      intro i seat p hs hp
      rw [Array.getElem?_push] at hs
      split at hs
      · cases hs
        cases hp
        cases kind <;> rfl
      · exact h.channels i seat p hs hp
    case tidy => exact h.tidy
  | start i request => exact h.start ho
  | tick i =>
    obtain ⟨seat, hs, ⟨⟩⟩ := Option.bind_eq_some_iff.mp ho
    exact h.call hs (Player.isCall_tick s.now)
  | stop i =>
    obtain ⟨seat, hs, ⟨⟩⟩ := Option.bind_eq_some_iff.mp ho
    exact h.call hs Player.isCall_stop
  | drop i =>
    obtain ⟨seat, hs, ⟨⟩⟩ := Option.bind_eq_some_iff.mp ho
    exact h.drop hs
  | lease channel slot => exact h.lend rfl rfl ho
  | leaseOwn i slot =>
    obtain ⟨seat, hs, -⟩ := Option.bind_eq_some_iff.mp ho
    exact h.lend rfl (d := seat.channel) (by simp [channel?, hs]) ho
  | release slot =>
    cases ho
    exact h.frame accounted (seats_empty h.tidy slot) (tidy_empty h.tidy slot).1

end Session

end Piezo
