import Mathlib.Data.List.Nodup
import Mathlib.Data.List.Perm.Basic
import Piezo.Proofs.Admission
import Piezo.Proofs.Driving
import Piezo.Proofs.Seats

/-!
Every leased channel is accounted for: it is in the hands of one player or kept in one slot. This
holds of each table by itself, and no step of a session breaks it.
-/

namespace Piezo

open scoped List

/-- If only one member's part changes, the two collections differ by that part. -/
theorem flatMap_exchange {α : Type} {l : List Nat} (hl : l.Nodup) {i : Nat} (hi : i ∈ l)
    {f g : Nat → List α} (h : ∀ j, j ≠ i → g j = f j) :
    l.flatMap g ++ f i ~ l.flatMap f ++ g i := by
  have hf := (List.perm_cons_erase hi).flatMap_right f
  have hg := (List.perm_cons_erase hi).flatMap_right g
  have hrest : (l.erase i).flatMap g = (l.erase i).flatMap f := by
    apply List.flatMap_congr
    intro j hj
    exact h j (hl.mem_erase_iff.mp hj).1
  rw [List.flatMap_cons] at hf hg
  rw [hrest] at hg
  calc
    l.flatMap g ++ f i ~ (g i ++ (l.erase i).flatMap f) ++ f i := hg.append_right _
    _ ~ f i ++ (g i ++ (l.erase i).flatMap f) := List.perm_append_comm
    _ ~ f i ++ ((l.erase i).flatMap f ++ g i) := List.perm_append_comm.append_left _
    _ = (f i ++ (l.erase i).flatMap f) ++ g i := (List.append_assoc ..).symm
    _ ~ l.flatMap f ++ g i := hf.symm.append_right _

/-- What a table and the holders have traded evenly leaves them in agreement. -/
theorem perm_of_trades {α : Type} [DecidableEq α] {t u held held' kept given taken : List α}
    (hu : u ++ given ~ t ++ taken) (hh : held' ++ given ~ held ++ taken)
    (ht : t ~ held ++ kept) : u ~ held' ++ kept := by
  refine List.perm_iff_count.mpr fun a => ?_
  have cu := List.perm_iff_count.mp hu a
  have ch := List.perm_iff_count.mp hh a
  have ct := List.perm_iff_count.mp ht a
  simp only [List.count_append] at cu ch ct ⊢
  omega

/-- The channels that some of the kept leases name: those from one table. -/
def Kept.channelsFrom (home : Option Nat) (kept : List Kept) : List Channel :=
  (kept.filter (·.home = home)).map (·.lease.channel)

theorem Kept.channelsFrom_append (home : Option Nat) (a b : List Kept) :
    channelsFrom home (a ++ b) = channelsFrom home a ++ channelsFrom home b := by
  simp [channelsFrom]

theorem Kept.channelsFrom_cons (home : Option Nat) (k : Kept) (rest : List Kept) :
    channelsFrom home (k :: rest) =
      if k.home = home then k.lease.channel :: channelsFrom home rest
      else channelsFrom home rest := by
  unfold channelsFrom
  rw [List.filter_cons]
  by_cases hk : k.home = home <;> simp [hk]

namespace Session

/-- The channels whose leases the player in a seat holds from one table. -/
def heldAt (s : Session) (home : Option Nat) (i : Nat) : List Channel :=
  if s.home? i = some home then (s.player? i).elim [] fun p => p.held.map Lease.channel else []

/-- The channels whose leases the players hold from one table. -/
def heldFrom (s : Session) (home : Option Nat) : List Channel :=
  (List.range s.seats.size).flatMap (s.heldAt home)

/-- Every table lists the channels whose leases players hold or slots keep. Leases in hand, taken
but not in a slot yet, count as kept. -/
structure Accounted (s : Session) (hand : List Kept) : Prop where
  coherent : ∀ i p, s.player? i = some p → p.Coherent
  leased : ∀ home t, s.table? home = some t →
    t.channels ~ s.heldFrom home ++ Kept.channelsFrom home (s.kept ++ hand)
  placed : ∀ kept ∈ s.kept ++ hand, (s.table? kept.home).isSome

variable {s s' : Session} {hand : List Kept} {i j : Nat} {home : Option Nat} {p q : Player}
  {t u : Leases}

theorem heldAt_of_player? (hp : s.player? i = some p) (hi : s.home? i = some home) :
    s.heldAt home i = p.held.map Lease.channel := by
  simp [heldAt, hp, hi]

theorem heldAt_of_ne (hi : s.home? i ≠ some home) : s.heldAt home i = [] := by
  simp [heldAt, hi]

theorem mem_heldFrom {channel : Channel} :
    channel ∈ s.heldFrom home ↔
      ∃ i p, s.home? i = some home ∧ s.player? i = some p ∧ channel ∈ p.held.map Lease.channel := by
  unfold heldFrom
  rw [List.mem_flatMap]
  constructor
  · rintro ⟨i, -, hc⟩
    unfold heldAt at hc
    split at hc
    · next hi =>
      cases hp : s.player? i with
      | none => simp [hp] at hc
      | some p => exact ⟨i, p, hi, hp, by simpa [hp] using hc⟩
    · simp at hc
  · rintro ⟨i, p, hi, hp, hc⟩
    exact ⟨i, List.mem_range.mpr (home?_lt hi), by rwa [heldAt_of_player? hp hi]⟩

/-- What the players hold does not depend on the tables. -/
theorem Retabled.heldFrom (k : Retabled s s' home t) (other : Option Nat) :
    s'.heldFrom other = s.heldFrom other := by
  unfold Session.heldFrom
  rw [k.size]
  apply List.flatMap_congr
  intro i _
  simp only [heldAt, k.homes, k.players]

theorem Replaced.heldFrom_of_ne {r : Option Player} (k : Replaced s s' i home r t)
    {other : Option Nat} (ho : home ≠ other) : s'.heldFrom other = s.heldFrom other := by
  unfold Session.heldFrom
  rw [k.size]
  apply List.flatMap_congr
  intro j _
  by_cases hj : i = j
  · subst hj
    have hi : s.home? i ≠ some other := by simpa [k.seat] using ho
    rw [heldAt_of_ne hi, heldAt_of_ne (by rwa [k.homes])]
  · simp [heldAt, k.homes, k.players, hj]

/-- Replacing a player trades what the old one held for what the new one holds. -/
theorem Replaced.heldFrom {r : Option Player} (k : Replaced s s' i home r t)
    (hp : s.player? i = some p) :
    s'.heldFrom home ++ p.held.map Lease.channel ~
      s.heldFrom home ++ r.elim [] fun q => q.held.map Lease.channel := by
  have hg : s'.heldAt home i = r.elim [] fun q => q.held.map Lease.channel := by
    simp [heldAt, k.homes, k.seat, k.players]
  have hi : i ∈ List.range s.seats.size := List.mem_range.mpr (home?_lt k.seat)
  have hx := flatMap_exchange (f := s.heldAt home) (g := s'.heldAt home) List.nodup_range hi (by
    intro j hj
    simp [heldAt, k.homes, k.players, hj.symm])
  rw [heldAt_of_player? hp k.seat, hg] at hx
  unfold Session.heldFrom
  rw [k.size]
  exact hx

/-- A player and its table may change together if the channels are traded evenly. -/
theorem Accounted.replace (h : s.Accounted hand) {r : Option Player}
    (k : Replaced s s' i home r u) (hp : s.player? i = some p) (ht : s.table? home = some t)
    (hr : ∀ q, r = some q → q.Coherent)
    (balance : u.channels ++ p.held.map Lease.channel ~
      t.channels ++ r.elim [] fun q => q.held.map Lease.channel) :
    s'.Accounted hand := by
  constructor
  case coherent =>
    intro j q hq
    rw [k.players] at hq
    split at hq
    · exact hr q hq
    · exact h.coherent j q hq
  case leased =>
    intro other v hv
    rw [k.tables] at hv
    rw [k.kept]
    split at hv
    · next ho =>
      subst ho
      cases hv
      exact perm_of_trades balance (k.heldFrom hp) (h.leased home t ht)
    · next ho =>
      rw [k.heldFrom_of_ne ho]
      exact h.leased other v hv
  case placed =>
    intro kept hk
    rw [k.kept] at hk
    rw [k.tables]
    split
    · rfl
    · exact h.placed kept hk

/-- An active player's channel is in the table that it uses. -/
theorem Accounted.listed (h : s.Accounted hand) (hi : s.home? i = some home)
    (hp : s.player? i = some p) (ht : s.table? home = some t) : p.Listed t := by
  intro ha
  refine (h.leased home t ht).mem_iff.mpr (List.mem_append_left _ ?_)
  refine mem_heldFrom.mpr ⟨i, p, hi, hp, ?_⟩
  simp [(h.coherent i p hp).held_eq, ha]

theorem Accounted.apply (h : s.Accounted hand) (hs : s.seated? i = some (p, t))
    {turn : Turn Player} (hr : turn.player.Coherent)
    (balance : turn.leases.channels ++ p.held.map Lease.channel ~
      t.channels ++ turn.player.held.map Lease.channel) :
    (s.apply i turn).Accounted hand := by
  obtain ⟨hp, home, hi, ht⟩ := seated?_eq_some.mp hs
  exact h.replace (replaced_apply hi turn) hp ht (by rintro q ⟨⟩; exact hr) balance

theorem Accounted.proper (h : s.Accounted hand) (hs : s.seated? i = some (p, t))
    {turn : Turn Player} (k : p.Coherent → p.Listed t → p.Proper t turn) :
    p.Proper t turn ∧ (s.apply i turn).Accounted hand := by
  obtain ⟨hp, home, hi, ht⟩ := seated?_eq_some.mp hs
  have k := k (h.coherent i p hp) (h.listed hi hp ht)
  exact ⟨k, h.apply hs k.coherent k.balance⟩

theorem Accounted.tick (h : s.Accounted hand) (i : Nat) : (s.tick i).1.Accounted hand := by
  unfold Session.tick
  split
  · next p t hs => exact (h.proper hs Player.tick_proper).2
  · exact h

theorem Accounted.stop (h : s.Accounted hand) (i : Nat) : (s.stop i).1.Accounted hand := by
  unfold Session.stop
  split
  · next p t hs => exact (h.proper hs Player.stop_proper).2
  · exact h

theorem Accounted.drop (h : s.Accounted hand) (i : Nat) : (s.drop i).Accounted hand := by
  unfold Session.drop
  split
  · next p t hs =>
    obtain ⟨hp, home, hi, ht⟩ := seated?_eq_some.mp hs
    have hc := h.coherent i p hp
    have hl := h.listed hi hp ht
    refine h.replace (replaced_setPlayer hi none _) hp ht (by simp) ?_
    rw [Player.drop, hc.held_eq, hc.lease]
    split
    · next ha => simpa [Leases.releaseAny] using Leases.release_perm ⟨p.channel⟩ (hl ha)
    · simp [Leases.releaseAny]
  · exact h

theorem Accounted.start (h : s.Accounted hand) (hs : s.seated? i = some (p, t))
    {now : UInt32} {request : Request} {attempt : Attempt Player}
    (ha : p.start? t now request = some attempt) :
    (s.apply i attempt.toTurn).Accounted hand := by
  obtain ⟨hp, -⟩ := seated?_eq_some.mp hs
  have hc := h.coherent i p hp
  obtain ⟨hr, balance⟩ := (Player.start?_decided hc ha).trades hc
  exact h.apply hs hr balance

theorem Accounted.run (h : s.Accounted hand) (hs : s.seated? i = some (p, t))
    (step limit : UInt32) (recording : Recording) :
    ({ (s.setTable i (p.runUntilIdle t step limit s.recording).state.leases).setPlayer i
        (some (p.runUntilIdle t step limit s.recording).state.player) with
      recording } : Session).Accounted hand := by
  obtain ⟨hp, home, hi, ht⟩ := seated?_eq_some.mp hs
  obtain ⟨_, k, -⟩ := Player.runUntilIdle_proper (h.coherent i p hp) (h.listed hi hp ht) step limit
    s.recording
  exact h.replace ((replaced_setPlayer hi _ _).withRecording recording) hp ht
    (by rintro q ⟨⟩; exact k.coherent) k.balance

/-- A table may change by itself if it trades channels evenly with the hand. -/
theorem Accounted.retable (h : s.Accounted hand) (k : Retabled s s' home u)
    (ht : s.table? home = some t) {hand' : List Kept}
    (placed : ∀ kept ∈ hand', kept.home = home ∨ kept ∈ hand)
    (others : ∀ other, home ≠ other →
      Kept.channelsFrom other hand' = Kept.channelsFrom other hand)
    (balance : u.channels ++ Kept.channelsFrom home hand ~
      t.channels ++ Kept.channelsFrom home hand') : s'.Accounted hand' := by
  constructor
  case coherent =>
    intro i p hp
    exact h.coherent i p (by rwa [← k.players])
  case leased =>
    intro other v hv
    rw [k.tables] at hv
    rw [k.heldFrom, k.kept, Kept.channelsFrom_append]
    split at hv
    · next ho =>
      subst ho
      cases hv
      have hl := h.leased home t ht
      rw [Kept.channelsFrom_append, ← List.append_assoc] at hl
      rw [← List.append_assoc]
      have hu := perm_of_trades balance List.perm_append_comm (hl.trans List.perm_append_comm)
      exact hu.trans List.perm_append_comm
    · next ho =>
      rw [others other ho, ← Kept.channelsFrom_append]
      exact h.leased other v hv
  case placed =>
    intro kept hk
    rw [k.tables]
    split
    · rfl
    · next ho =>
      rw [k.kept] at hk
      refine h.placed kept (List.mem_append.mpr ?_)
      rcases List.mem_append.mp hk with hk | hk
      · exact .inl hk
      · exact .inr ((placed kept hk).resolve_left fun he => ho he.symm)

/-- Taking a lease puts it in hand. -/
theorem Accounted.take (h : s.Accounted hand) (ht : s.table? home = some t) {channel : Channel}
    {lease : Lease} (ha : t.acquire channel = .ok (lease, u)) (k : Retabled s s' home u)
    (slot : Nat) : s'.Accounted (⟨slot, lease, home⟩ :: hand) := by
  obtain ⟨rfl, hu⟩ := Leases.of_acquire_eq_ok ha
  refine h.retable k ht ?_ ?_ ?_
  · intro kept hk
    rcases List.mem_cons.mp hk with rfl | hk
    · exact .inl rfl
    · exact .inr hk
  · intro other ho
    simp [Kept.channelsFrom_cons, ho]
  · simpa [hu, Kept.channelsFrom_cons] using List.perm_middle.symm

/-- Taking a lease back takes it out of hand. -/
theorem Accounted.give {kept : Kept} (h : s.Accounted (kept :: hand))
    (ht : s.table? kept.home = some t) (k : Retabled s s' kept.home (t.release kept.lease)) :
    s'.Accounted hand := by
  have hm : kept.lease.channel ∈ t.channels :=
    (h.leased kept.home t ht).mem_iff.mpr
      (by simp [Kept.channelsFrom_append, Kept.channelsFrom_cons])
  refine h.retable k ht ?_ ?_ ?_
  · exact fun other ho => .inr (List.mem_cons_of_mem _ ho)
  · intro other ho
    simp [Kept.channelsFrom_cons, ho]
  · simpa [Kept.channelsFrom_cons] using (Leases.release_perm kept.lease hm).append_right _

/-- Leases may change places between the slots and the hand. -/
theorem Accounted.rekeep (h : s.Accounted hand) {kept hand' : List Kept}
    (hk : kept ++ hand' ~ s.kept ++ hand) : ({ s with kept } : Session).Accounted hand' where
  coherent := h.coherent
  leased home t ht :=
    (h.leased home t ht).trans (((hk.filter _).map _).symm.append_left _)
  placed k hm := h.placed k (hk.mem_iff.mp hm)

theorem Accounted.giveBack {kept : Kept} (h : s.Accounted (kept :: hand)) :
    (s.giveBack kept).Accounted hand := by
  obtain ⟨t, ht⟩ := Option.isSome_iff_exists.mp (h.placed kept (by simp))
  unfold Session.giveBack
  split
  · next hk =>
    have hl : s.table? kept.home = some s.leases := by rw [hk]; rfl
    exact h.give hl (by rw [hk]; exact retabled_leases s _)
  · next i hk =>
    cases hs : s.seats[i]? with
    | none => simp [hk, table?, hs] at ht
    | some seat =>
      have ho : seat.table = some t := by simpa [hk, table?, hs] using ht
      have hi : s.home? i = some kept.home := by simp [home?, hs, Seat.home, ho, hk]
      have hl : s.tableOf seat = t := by simp [tableOf, ho]
      simp only [hl]
      exact h.give ht (retabled_setTable hi _)

theorem Accounted.empty (h : s.Accounted hand) (slot : Nat) : (s.empty slot).1.Accounted hand := by
  unfold Session.empty
  split
  · next kept hf =>
    have hm : kept ∈ s.kept := List.mem_of_find?_eq_some hf
    refine (h.rekeep ?_).giveBack
    calc
      s.kept.erase kept ++ kept :: hand ~ kept :: s.kept.erase kept ++ hand := List.perm_middle
      _ ~ s.kept ++ hand := (List.perm_cons_erase hm).symm.append_right _
  · exact h

theorem Accounted.keep {kept : Kept} (h : s.Accounted (kept :: hand)) :
    (s.keep kept).Accounted hand :=
  (h.empty kept.slot).rekeep List.perm_middle.symm

theorem table?_size (s : Session) : s.table? (some s.seats.size) = none := by
  simp [table?]

/-- What the players hold is as it was when one joins that holds nothing. -/
theorem heldFrom_join (s : Session) {seat : Seat} (hp : seat.player = some p) (hn : p.held = [])
    (home : Option Nat) :
    ({ s with seats := s.seats.push seat } : Session).heldFrom home = s.heldFrom home := by
  unfold heldFrom
  rw [Array.size_push, List.range_succ, List.flatMap_append]
  have hlast : heldAt { s with seats := s.seats.push seat } home s.seats.size = [] := by
    simp [heldAt, player?_join, hp, hn]
  have hrest : ∀ i ∈ List.range s.seats.size,
      heldAt { s with seats := s.seats.push seat } home i = s.heldAt home i := by
    intro i hi
    have hne : i ≠ s.seats.size := Nat.ne_of_lt (List.mem_range.mp hi)
    simp only [heldAt, player?_join, home?_join, if_neg hne]
  rw [List.flatMap_congr hrest, List.flatMap_singleton, hlast, List.append_nil]

theorem Accounted.join (h : s.Accounted hand) {seat : Seat} (hp : seat.player = some p)
    (hc : p.Coherent) (hi : p.isActive = false)
    (ht : ∀ own, seat.table = some own → own.channels = []) :
    ({ s with seats := s.seats.push seat } : Session).Accounted hand := by
  have hn : p.held = [] := by rw [hc.held_eq, hi]; rfl
  have hplaced : ∀ kept ∈ s.kept ++ hand, kept.home ≠ some s.seats.size := by
    intro kept hk he
    have hsome := h.placed kept hk
    rw [he, table?_size] at hsome
    cases hsome
  constructor
  case coherent =>
    intro i q hq
    rw [player?_join, hp] at hq
    split at hq
    · cases hq
      exact hc
    · exact h.coherent i q hq
  case leased =>
    intro home t hl
    rw [table?_join] at hl
    rw [heldFrom_join s hp hn]
    split at hl
    · next ho =>
      subst ho
      have hheld : s.heldFrom (some s.seats.size) = [] := by
        refine List.eq_nil_iff_forall_not_mem.mpr fun c hc => ?_
        obtain ⟨i, _, hs, -⟩ := mem_heldFrom.mp hc
        exact absurd (home?_own hs ▸ home?_lt hs) (Nat.lt_irrefl _)
      have hkept : Kept.channelsFrom (some s.seats.size) (s.kept ++ hand) = [] :=
        List.map_eq_nil_iff.mpr
          (List.filter_eq_nil_iff.mpr fun kept hk => by simpa using hplaced kept hk)
      rw [ht t hl, hheld, hkept]
      exact .refl _
    · exact h.leased home t hl
  case placed =>
    intro kept hk
    rw [table?_join, if_neg (hplaced kept hk)]
    exact h.placed kept hk

theorem Accounted.advance (h : s.Accounted hand) (ms : UInt32) : (s.advance ms).Accounted hand := by
  unfold Session.advance
  split <;> exact { h with }

theorem Accounted.loop (h : s.Accounted hand) (ms : UInt32) (count : Nat) :
    (Session.loop ms count s).1.Accounted hand :=
  loop_keeps (I := fun s => s.Accounted hand) (fun _ h => h.advance ms) (fun _ i h => h.tick i) h
    count

/-- Every step leaves every leased channel accounted for. -/
theorem Accounted.step (h : s.Accounted []) {step : Step} {outcome : Outcome}
    (ho : s.step? step = some outcome) : outcome.session.Accounted [] := by
  cases step <;>
    simp only [step?, Option.bind_eq_bind, Option.bind_eq_some_iff, Option.some.injEq,
      Option.pure_def] at ho
  case advance ms =>
    subst ho
    exact h.advance ms
  case advanceOutput | setTime | command | clear =>
    subst ho
    exact { h with }
  case join kind channel own settings =>
    subst ho
    refine h.join rfl (Player.idle_coherent kind channel settings)
      (Player.isActive_idle kind channel settings) ?_
    intro table ht
    split at ht <;> cases ht
    rfl
  case start i request =>
    obtain ⟨⟨p, t⟩, hs, attempt, ha, rfl⟩ := ho
    exact h.start hs ha
  case tick i =>
    obtain ⟨_, -, rfl⟩ := ho
    exact h.tick i
  case stop i =>
    obtain ⟨_, -, rfl⟩ := ho
    exact h.stop i
  case drop i =>
    obtain ⟨_, -, rfl⟩ := ho
    exact h.drop i
  case loop ms count =>
    subst ho
    exact h.loop ms count
  case run i step limit =>
    obtain ⟨⟨p, t⟩, hs, rfl⟩ := ho
    exact h.run hs step limit _
  case lease channel slot =>
    split at ho
    · next lease t ha =>
      cases ho
      exact (h.take rfl ha (retabled_leases s t) slot).keep
    · cases ho
      exact h
  case leaseOwn i slot =>
    obtain ⟨seat, hs, ho⟩ := ho
    split at ho
    · next lease t ha =>
      cases ho
      have hi : s.home? i = some (seat.home i) := by simp [home?, hs]
      exact (h.take (table?_home hs) ha (retabled_setTable hi t) slot).keep
    · cases ho
      exact h
  case release slot =>
    subst ho
    exact h.empty slot

end Session

end Piezo
