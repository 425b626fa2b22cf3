import Mathlib.Data.List.Induction
import Mathlib.Data.List.Nodup
import Piezo.Command

/-!
Chords: what sounds after commands, channel by channel. The table of what sounds keeps its entries
in the order of their channels, so that it lists the frequencies as a look at one channel after
another would find them.
-/

namespace Piezo

namespace Channel

/-- All channels, in the order of their numbers. -/
def all : List Channel := (List.range 256).map fun n => ⟨UInt8.ofNat n⟩

theorem mem_all (c : Channel) : c ∈ all := by
  have := c.number.toNat_lt
  exact List.mem_map.mpr ⟨c.number.toNat, List.mem_range.mpr this, by rw [UInt8.ofNat_toNat]⟩

theorem all_ordered : all.Pairwise (·.number < ·.number) := by
  refine List.pairwise_map.mpr (List.pairwise_lt_range.imp_of_mem fun {a b} ha hb hlt => ?_)
  have ha := List.mem_range.mp ha
  have hb := List.mem_range.mp hb
  rw [UInt8.lt_iff_toNat_lt, UInt8.toNat_ofNat_of_lt' ha, UInt8.toNat_ofNat_of_lt' hb]
  exact hlt

end Channel

namespace Command

/-- What a channel was last asked to sound; nothing if that was silence, or if it was asked
nothing. -/
def asked (commands : List Command) (c : Channel) : Option UInt32 :=
  (commands.filter (·.channel = c)).getLast?.bind frequency?

/-- The frequencies that channels were last asked to sound, in the order of the channels. -/
def chord (commands : List Command) : List UInt32 := Channel.all.filterMap (asked commands)

theorem asked_concat (commands : List Command) (command : Command) (c : Channel) :
    asked (commands ++ [command]) c =
      if c = command.channel then command.frequency? else asked commands c := by
  unfold asked
  rw [List.filter_append]
  by_cases h : command.channel = c
  · simp [h]
  · simp [h, Ne.symm h]

end Command

namespace Soundings

theorem get?_perform (s : Soundings) (command : Command) (other : Channel) :
    (s.perform command).get? other =
      if other = command.channel then command.frequency? else s.get? other := by
  cases command with
  | emit channel frequency => exact get?_insert s channel other frequency
  | silence channel => exact get?_erase s channel other

/-- After commands a channel sounds what it was last asked to. -/
theorem get?_foldl_perform (commands : List Command) (c : Channel) :
    (commands.foldl perform {}).get? c = Command.asked commands c := by
  induction commands using List.reverseRecOn with
  | nil => rfl
  | append_singleton commands command ih =>
    rw [List.foldl_append, List.foldl_cons, List.foldl_nil, get?_perform, Command.asked_concat, ih]

/-- The entries are in the order of their channels, each channel once. -/
def Ordered (s : Soundings) : Prop := s.entries.Pairwise (·.1.number < ·.1.number)

theorem mem_put {channel : Channel} {frequency : UInt32} {entries : List (Channel × UInt32)}
    {e : Channel × UInt32} (h : e ∈ put channel frequency entries) :
    e = (channel, frequency) ∨ e ∈ entries := by
  induction entries with
  | nil => exact .inl (List.mem_singleton.mp h)
  | cons first rest ih =>
    unfold put at h
    split at h
    · exact List.mem_cons.mp h
    · split at h
      · exact (List.mem_cons.mp h).imp_right (List.mem_cons_of_mem _)
      · rcases List.mem_cons.mp h with rfl | h
        · exact .inr List.mem_cons_self
        · exact (ih h).imp_right (List.mem_cons_of_mem _)

theorem Ordered.insert {s : Soundings} (h : s.Ordered) (channel : Channel) (frequency : UInt32) :
    (s.insert channel frequency).Ordered := by
  obtain ⟨entries⟩ := s
  unfold Ordered Soundings.insert at *
  induction entries with
  | nil => exact List.pairwise_singleton ..
  | cons first rest ih =>
    obtain ⟨later, ordered⟩ := List.pairwise_cons.mp h
    unfold put
    split
    · next before =>
      refine List.pairwise_cons.mpr ⟨List.forall_mem_cons.mpr ⟨before, fun e he => ?_⟩, h⟩
      exact UInt8.lt_trans before (later e he)
    · next notBefore =>
      split
      · next same =>
        subst same
        exact List.pairwise_cons.mpr ⟨later, ordered⟩
      · next different =>
        refine List.pairwise_cons.mpr ⟨fun e he => ?_, ih ordered⟩
        rcases mem_put he with rfl | he
        · have numbers : first.1.number ≠ channel.number := fun same => different (by
            cases channel
            exact congrArg Channel.mk same.symm)
          exact UInt8.lt_of_le_of_ne (UInt8.not_lt.mp notBefore) numbers
        · exact later e he

theorem Ordered.perform {s : Soundings} (h : s.Ordered) (command : Command) :
    (s.perform command).Ordered := by
  cases command with
  | emit channel frequency => exact h.insert channel frequency
  | silence channel => exact h.filter _

theorem ordered_foldl_perform (commands : List Command) :
    (commands.foldl perform {}).Ordered := by
  induction commands using List.reverseRecOn with
  | nil => exact .nil
  | append_singleton commands command ih =>
    rw [List.foldl_append]
    exact ih.perform command

/-- An entry is what a look at its channel finds. -/
theorem Ordered.mem_entries_iff {s : Soundings} (h : s.Ordered) (c : Channel) (f : UInt32) :
    (c, f) ∈ s.entries ↔ s.get? c = some f := by
  obtain ⟨entries⟩ := s
  unfold Ordered Soundings.get? at *
  induction entries with
  | nil => simp
  | cons first rest ih =>
    obtain ⟨later, ordered⟩ := List.pairwise_cons.mp h
    obtain ⟨d, g⟩ := first
    by_cases same : d = c
    · subst same
      have once : (d, f) ∉ rest := fun he => UInt8.lt_irrefl _ (later (d, f) he)
      simp [once, eq_comm]
    · have other : ¬ c = d := fun e => same e.symm
      simpa [same, other] using ih ordered

/-- The table lists its frequencies as a look at one channel after another finds them. -/
theorem Ordered.frequencies_eq {s : Soundings} (h : s.Ordered) :
    s.frequencies = Channel.all.filterMap s.get? := by
  have found : s.entries = Channel.all.filterMap fun c => (s.get? c).map fun f => (c, f) := by
    have listed : (Channel.all.filterMap fun c => (s.get? c).map fun f => (c, f)).Pairwise
        (·.1.number < ·.1.number) := by
      refine Channel.all_ordered.filterMap _ fun a b hlt x hx y hy => ?_
      obtain ⟨_, -, rfl⟩ := Option.map_eq_some_iff.mp hx
      obtain ⟨_, -, rfl⟩ := Option.map_eq_some_iff.mp hy
      exact hlt
    have nodup {entries : List (Channel × UInt32)}
        (ordered : entries.Pairwise (·.1.number < ·.1.number)) : entries.Nodup :=
      List.nodup_iff_pairwise_ne.mpr <| ordered.imp fun {a b} hlt he => by
        rw [he] at hlt
        exact UInt8.lt_irrefl _ hlt
    -- Both lists are in strict order, so that it is enough that they have the same entries.
    refine List.Perm.eq_of_pairwise (fun a b _ _ hab hba => ?_) h listed
      ((List.perm_ext_iff_of_nodup (nodup h) (nodup listed)).mpr fun (c, f) => ?_)
    · exact absurd (UInt8.lt_trans hab hba) (UInt8.lt_irrefl _)
    · rw [h.mem_entries_iff, List.mem_filterMap]
      constructor
      · exact fun hf => ⟨c, Channel.mem_all c, by rw [hf]; rfl⟩
      · rintro ⟨other, -, he⟩
        obtain ⟨_, hf, same⟩ := Option.map_eq_some_iff.mp he
        cases same
        exact hf
  rw [frequencies, found, List.map_filterMap]
  simp [Function.comp_def]

theorem frequencies_foldl_perform (commands : List Command) :
    (commands.foldl perform {}).frequencies = Command.chord commands := by
  rw [(ordered_foldl_perform commands).frequencies_eq]
  exact List.filterMap_congr fun c _ => get?_foldl_perform commands c

end Soundings

end Piezo
