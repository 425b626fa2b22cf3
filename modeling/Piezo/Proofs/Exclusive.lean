import Mathlib.Data.List.Pairwise
import Piezo.Proofs.Accounted

/-!
Exclusive use: whatever is done in a session, the leased channels of a table are those of the active
players and of the leases kept outside them, each leased once.
-/

namespace Piezo

namespace Session

/-- The channels that the live leases of a table name, those inside players and those outside. -/
def liveFrom (s : Session) (home : Option Nat) : List Channel :=
  s.heldFrom home ++ Kept.channelsFrom home s.kept

/-- The seats of the active players that use a table. -/
def activeFrom (s : Session) (home : Option Nat) : List Nat :=
  (List.range s.seats.size).filter fun i =>
    s.home? i = some home ∧ (s.player? i).any Player.isActive

/-- A table whose leases are in use exactly once. -/
structure Exclusive (s : Session) (home : Option Nat) (t : Leases) : Prop where
  /-- No two live leases name one channel. -/
  live : (s.liveFrom home).Nodup
  /-- A channel is leased for an active player or a lease kept outside, and for nothing else. -/
  leased : ∀ channel, t.isLeased channel = true ↔
    (∃ i p, s.home? i = some home ∧ s.player? i = some p ∧ p.isActive = true ∧
        p.channel = channel) ∨
      ∃ kept ∈ s.kept, kept.home = home ∧ kept.lease.channel = channel
  /-- The table counts them all. -/
  count : t.count =
    (s.activeFrom home).length + (s.kept.filter fun kept => kept.home = home).length
  /-- At most one player on a channel is active. -/
  single : ∀ i j p q, s.home? i = some home → s.home? j = some home →
    s.player? i = some p → s.player? j = some q → p.isActive = true → q.isActive = true →
    p.channel = q.channel → i = j

variable {s : Session} {hand : List Kept} {home : Option Nat} {t : Leases} {i j : Nat}
  {p q : Player}

theorem Accounted.mem_heldAt (h : s.Accounted hand) {channel : Channel} :
    channel ∈ s.heldAt home i ↔ s.home? i = some home ∧
      ∃ p, s.player? i = some p ∧ p.isActive = true ∧ p.channel = channel := by
  unfold heldAt
  by_cases hi : s.home? i = some home
  · cases hp : s.player? i with
    | none => simp [hi]
    | some p =>
      have he := (h.coherent i p hp).held_eq
      cases ha : p.isActive with
      | false => simp [hi, he, ha]
      | true => simpa [hi, he, ha] using eq_comm
  · simp [hi]

theorem Accounted.length_heldAt (h : s.Accounted hand) (home : Option Nat) (i : Nat) :
    (s.heldAt home i).length =
      if s.home? i = some home ∧ (s.player? i).any Player.isActive then 1 else 0 := by
  unfold heldAt
  by_cases hi : s.home? i = some home
  · cases hp : s.player? i with
    | none => simp [hi]
    | some p => cases ha : p.isActive <;> simp [hi, (h.coherent i p hp).held_eq, ha]
  · simp [hi]

theorem Accounted.length_heldFrom (h : s.Accounted hand) (home : Option Nat) :
    (s.heldFrom home).length = (s.activeFrom home).length := by
  unfold heldFrom activeFrom
  induction List.range s.seats.size with
  | nil => rfl
  | cons i rest ih =>
    rw [List.flatMap_cons, List.length_append, ih, h.length_heldAt, List.filter_cons]
    by_cases ha : s.home? i = some home ∧ (s.player? i).any Player.isActive <;>
      simp [ha, Nat.add_comm]

/-- The channels that players hold are held once, so no two active players share one. -/
theorem Accounted.single (h : s.Accounted hand) (ht : s.table? home = some t)
    (hi : s.home? i = some home) (hj : s.home? j = some home) (hp : s.player? i = some p)
    (hq : s.player? j = some q) (ap : p.isActive = true) (aq : q.isActive = true)
    (hc : p.channel = q.channel) : i = j := by
  apply Decidable.byContradiction
  intro hne
  have hn : (s.heldFrom home).Nodup :=
    (List.nodup_append.mp ((h.leased home t ht).nodup_iff.mp t.distinct)).1
  have symm : Std.Symm (Function.onFun List.Disjoint (s.heldAt home)) :=
    ⟨fun _ _ => List.disjoint_symm⟩
  have hd := (List.nodup_flatMap.mp hn).2.forall (List.mem_range.mpr (home?_lt hi))
    (List.mem_range.mpr (home?_lt hj)) hne
  exact hd (h.mem_heldAt.mpr ⟨hi, p, hp, ap, rfl⟩) (h.mem_heldAt.mpr ⟨hj, q, hq, aq, hc.symm⟩)

theorem Accounted.exclusive (h : s.Accounted []) (ht : s.table? home = some t) :
    s.Exclusive home t := by
  have hl := h.leased home t ht
  rw [List.append_nil] at hl
  constructor
  case live => exact hl.nodup_iff.mp t.distinct
  case leased =>
    intro channel
    rw [Leases.isLeased, decide_eq_true_eq, hl.mem_iff, List.mem_append]
    apply or_congr
    · simp only [heldFrom, List.mem_flatMap, h.mem_heldAt]
      constructor
      · rintro ⟨i, -, hi, p, hp⟩
        exact ⟨i, p, hi, hp⟩
      · rintro ⟨i, p, hi, hp⟩
        exact ⟨i, List.mem_range.mpr (home?_lt hi), hi, p, hp⟩
    · simp [Kept.channelsFrom, and_assoc]
  case count =>
    rw [Leases.count, hl.length_eq, List.length_append, h.length_heldFrom]
    simp [Kept.channelsFrom]
  case single => exact fun i j p q hi hj hp hq ap aq hc => h.single ht hi hj hp hq ap aq hc

theorem accounted_empty (recording : Recording) (board : Option UInt32) :
    ({ recording, board } : Session).Accounted [] where
  coherent i p hp := by simp [player?] at hp
  leased home t ht := by
    cases home with
    | none =>
      cases ht
      exact .refl _
    | some i => simp [table?] at ht
  placed kept hk := by simp at hk

theorem Reaches.accounted {allowed : Session → Step → Prop} {recording : Recording}
    {board : Option UInt32} (reached : Reaches allowed { recording, board } s) : s.Accounted [] :=
  reached.keeps (I := fun s => s.Accounted []) (fun _ _ _ h _ ho => h.step ho)
    (accounted_empty recording board)

/-- Whatever is done in a session, a player is active exactly while it has its channel's lease, and
every table's leases are in use exactly once. -/
theorem leases_in_use_once {recording : Recording} {board : Option UInt32}
    (reached : Reaches (fun _ _ => True) { recording, board } s) :
    (∀ i p, s.player? i = some p →
      p.lease = (if p.isActive then some ⟨p.channel⟩ else none) ∧
        ∀ m, p = .melody m → (m.lease.isSome ↔ m.playback.isSome) ∧ m.tone.lease = none) ∧
      ∀ home t, s.table? home = some t → s.Exclusive home t := by
  have h := reached.accounted
  constructor
  · intro i p hp
    have hc := h.coherent i p hp
    refine ⟨hc.lease, ?_⟩
    rintro m rfl
    refine ⟨?_, hc.inner.1⟩
    have hl : m.lease = if m.isActive then some ⟨m.channel⟩ else none := hc.lease
    rw [hl, MelodyPlayer.isActive]
    cases m.playback <;> simp
  · exact fun home t ht => h.exclusive ht

/-- Two players on one channel, of which the second is refused, and a lease of another channel. -/
def contention : List Step :=
  [.join .tone ⟨0⟩ false {}, .join .melody ⟨0⟩ false {}, .start 0 (.tone 440 100),
    .start 1 (.melody ⟨#[⟨523, 500⟩], .shared⟩ 2), .lease ⟨1⟩ 0]

theorem leases_in_use_once_under_contention :
    ∃ s, Reaches (fun _ _ => True) {} s ∧ s.leases.channels = [⟨1⟩, ⟨0⟩] ∧
      s.Exclusive none s.leases := by
  obtain ⟨s, hs, hc⟩ : ∃ s, ({} : Session).perform? contention = some s ∧
      s.leases.channels = [⟨1⟩, ⟨0⟩] := ⟨_, rfl, rfl⟩
  have reached : Reaches (fun _ _ => True) {} s :=
    reaches_of_perform? contention .refl (fun _ _ _ => trivial) hs
  exact ⟨s, reached, hc, (leases_in_use_once reached).2 none _ rfl⟩

end Session

end Piezo
