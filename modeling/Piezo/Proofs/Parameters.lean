import Mathlib.Data.List.Forall2
import Piezo.Cli.Arguments
import Piezo.Proofs.Numerals

/-!
Parameters: which values a flag for a sound takes, and which sound each of them asks for.

A value spells one number for each parameter, with colons between them and white space wherever it
may be. It asks for a sound exactly if every number is one that its parameter can be, and then the
sound has these numbers and no others.
-/

namespace Piezo.Cli

open Text Text.Decimal

namespace SoundFlag

/-- Only a sweep has a parameter that may be below zero, and its minus sign is read anywhere. -/
def signed : SoundFlag → Bool
  | .sweep => true
  | _ => false

/-- The least and the greatest value of what is stored in 32 bits. -/
def wordLimits : Int × Int := (0, 0xFFFFFFFF)

/-- The same for 32 bits with a sign. -/
def stepLimits : Int × Int := (-0x80000000, 0x7FFFFFFF)

/-- The least and the greatest value of each parameter, in order. -/
def limits : SoundFlag → List (Int × Int)
  | .tone => [wordLimits, wordLimits]
  | .beep => [wordLimits, wordLimits, wordLimits, wordLimits]
  | .sweep => [wordLimits, wordLimits, stepLimits, wordLimits]
  | .siren => [wordLimits, wordLimits, wordLimits]

/-- There is one number for each parameter, and it is within the parameter's limits. -/
def Takes (flag : SoundFlag) (numbers : List Int) : Prop :=
  List.Forall₂ (fun n limits => limits.1 ≤ n ∧ n ≤ limits.2) numbers flag.limits

/-- The value is made of these numbers, each with white space around it, and colons between them. -/
def Spells (flag : SoundFlag) (value : String) (numbers : List Int) : Prop :=
  ∃ pieces, value.toList = [':'].intercalate pieces ∧
    List.Forall₂ (Padded flag.signed) pieces numbers

/-- The plainest value that is made of these numbers. -/
def spelling (numbers : List Int) : String := ":".intercalate (numbers.map signedText)

end SoundFlag

namespace Sound

/-- The sounds of each flag with their numbers, in the order in which the flag takes them. -/
inductive Parameters : SoundFlag → Sound → List Int → Prop
  | tone (frequency duration : UInt32) :
      Parameters .tone (.tone frequency duration) [frequency.toNat, duration.toNat]
  | beep (w : Pattern) :
      Parameters .beep (.beep w) [w.count.toNat, w.frequency.toNat, w.duration.toNat, w.lapse.toNat]
  | sweep (r : Ramp) :
      Parameters .sweep (.sweep r) [r.first.toNat, r.last.toNat, r.step.toInt, r.duration.toNat]
  | siren (w : Wail) :
      Parameters .siren (.siren w) [w.low.toNat, w.high.toNat, w.total.toNat]

variable {flag : SoundFlag} {sound : Sound} {numbers : List Int} {piece : List Char} {w : UInt32}

/-- The numbers within a word's limits are those of the words. -/
theorem within_wordLimits {n : Int} :
    SoundFlag.wordLimits.1 ≤ n ∧ n ≤ SoundFlag.wordLimits.2 ↔ ∃ w : UInt32, n = w.toNat := by
  constructor
  · intro h
    obtain ⟨low, high⟩ : 0 ≤ n ∧ n ≤ 0xFFFFFFFF := h
    refine ⟨UInt32.ofNat n.toNat, ?_⟩
    rw [UInt32.toNat_ofNat_of_lt' (by rw [UInt32.size]; omega)]
    omega
  · intro h
    obtain ⟨w, rfl⟩ := h
    have bound := w.toNat_lt
    change 0 ≤ (w.toNat : Int) ∧ (w.toNat : Int) ≤ 0xFFFFFFFF
    omega

theorem within_stepLimits {n : Int} :
    SoundFlag.stepLimits.1 ≤ n ∧ n ≤ SoundFlag.stepLimits.2 ↔ ∃ s : Int32, n = s.toInt := by
  constructor
  · intro h
    obtain ⟨low, high⟩ : -0x80000000 ≤ n ∧ n ≤ 0x7FFFFFFF := h
    exact ⟨Int32.ofInt n, (Int32.toInt_ofInt_of_le low (by omega)).symm⟩
  · intro h
    obtain ⟨s, rfl⟩ := h
    exact ⟨s.le_toInt, Int.le_sub_one_of_lt s.toInt_lt⟩

/-- A flag takes the numbers of its sounds, and no others. -/
theorem takes_iff : flag.Takes numbers ↔ ∃ sound, Parameters flag sound numbers := by
  constructor
  · intro h
    cases flag <;>
      simp only [SoundFlag.Takes, SoundFlag.limits, List.forall₂_cons_right_iff,
        List.forall₂_nil_right_iff, within_wordLimits, within_stepLimits] at h
    case tone =>
      obtain ⟨_, _, ⟨f, rfl⟩, ⟨_, _, ⟨d, rfl⟩, rfl, rfl⟩, rfl⟩ := h
      exact ⟨_, .tone f d⟩
    case beep =>
      obtain ⟨_, _, ⟨c, rfl⟩, ⟨_, _, ⟨f, rfl⟩, ⟨_, _, ⟨d, rfl⟩, ⟨_, _, ⟨l, rfl⟩, rfl, rfl⟩, rfl⟩,
        rfl⟩, rfl⟩ := h
      exact ⟨_, .beep ⟨c, f, d, l⟩⟩
    case sweep =>
      obtain ⟨_, _, ⟨f, rfl⟩, ⟨_, _, ⟨l, rfl⟩, ⟨_, _, ⟨s, rfl⟩, ⟨_, _, ⟨d, rfl⟩, rfl, rfl⟩, rfl⟩,
        rfl⟩, rfl⟩ := h
      exact ⟨_, .sweep ⟨f, l, s, d⟩⟩
    case siren =>
      obtain ⟨_, _, ⟨l, rfl⟩, ⟨_, _, ⟨h, rfl⟩, ⟨_, _, ⟨t, rfl⟩, rfl, rfl⟩, rfl⟩, rfl⟩ := h
      exact ⟨_, .siren ⟨l, h, t⟩⟩
  · intro h
    obtain ⟨sound, parameters⟩ := h
    have word (w : UInt32) := within_wordLimits.mpr ⟨w, rfl⟩
    cases parameters with
    | tone f d => exact .cons (word f) (.cons (word d) .nil)
    | beep w =>
      exact .cons (word w.count) (.cons (word w.frequency) (.cons (word w.duration)
        (.cons (word w.lapse) .nil)))
    | sweep r =>
      exact .cons (word r.first) (.cons (word r.last) (.cons (within_stepLimits.mpr ⟨r.step, rfl⟩)
        (.cons (word r.duration) .nil)))
    | siren w => exact .cons (word w.low) (.cons (word w.high) (.cons (word w.total) .nil))

theorem word?_eq_some : word? piece = some w ↔ Padded false piece w.toNat := by
  rw [word?, padded_iff, Option.map_eq_some_iff]
  constructor
  · intro h
    obtain ⟨n, h, rfl⟩ := h
    obtain ⟨numeral, bound⟩ := atMost_eq_some.mp h
    rwa [UInt32.toNat_ofNat_of_lt' (Nat.lt_of_le_pred (by decide) bound)]
  · intro numeral
    exact ⟨w.toNat, atMost_eq_some.mpr ⟨numeral, Nat.le_pred_of_lt w.toNat_lt⟩, UInt32.ofNat_toNat⟩

theorem wordOfInteger?_eq_some : wordOfInteger? piece = some w ↔ Padded true piece w.toNat := by
  rw [wordOfInteger?, padded_iff, Option.map_eq_some_iff]
  simp only [Option.filter_eq_some_iff, integer?_eq_some, decide_eq_true_eq]
  constructor
  · intro h
    obtain ⟨n, ⟨numeral, low, high⟩, rfl⟩ := h
    rwa [UInt32.toNat_ofNat_of_lt' high, Int.toNat_of_nonneg low]
  · intro numeral
    exact ⟨w.toNat, ⟨numeral, Int.natCast_nonneg _, w.toNat_lt⟩, UInt32.ofNat_toNat⟩

theorem stepOfInteger?_eq_some {s : Int32} :
    stepOfInteger? piece = some s ↔ Padded true piece s.toInt := by
  rw [stepOfInteger?, padded_iff, Option.map_eq_some_iff]
  simp only [Option.filter_eq_some_iff, integer?_eq_some, decide_eq_true_eq]
  constructor
  · intro h
    obtain ⟨n, ⟨numeral, low, high⟩, rfl⟩ := h
    rw [Int32.toInt_minValue] at low
    rw [Int32.toInt_maxValue] at high
    rwa [Int32.toInt_ofInt_of_le low (by omega)]
  · intro numeral
    exact ⟨s.toInt, ⟨numeral, s.minValue_le_toInt, s.toInt_le⟩, Int32.ofInt_toInt s⟩

theorem Parameters.nonempty (h : Parameters flag sound numbers) : numbers ≠ [] := by
  cases h <;> exact List.cons_ne_nil _ _

/-- The pieces that spell the numbers are those between the colons. -/
theorem spells_iff {value : String} (nonempty : numbers ≠ []) :
    flag.Spells value numbers ↔
      List.Forall₂ (Padded flag.signed) (splitAt ':' value.toList) numbers := by
  constructor
  · intro h
    obtain ⟨pieces, whole, padded⟩ := h
    have free : ∀ piece ∈ pieces, ':' ∉ piece := by
      clear whole nonempty
      induction padded with
      | nil => simp
      | cons first _ ih => exact List.forall_mem_cons.mpr ⟨first.colon_not_mem, ih⟩
    have some : pieces ≠ [] := by
      intro none
      subst none
      exact nonempty (List.forall₂_nil_left_iff.mp padded)
    rwa [whole, splitAt_intercalate free some]
  · intro padded
    exact ⟨_, (intercalate_splitAt _).symm, padded⟩

/-- A value asks for the sound whose numbers it spells, and for none if there is no such sound. -/
theorem ofParameters?_eq_some {value : String} :
    ofParameters? flag value = some sound ↔
      ∃ numbers, Parameters flag sound numbers ∧ flag.Spells value numbers := by
  constructor
  · intro h
    have made {numbers : List Int} (parameters : Parameters flag sound numbers)
        (padded : List.Forall₂ (Padded flag.signed) (splitAt ':' value.toList) numbers) :
        ∃ numbers, Parameters flag sound numbers ∧ flag.Spells value numbers :=
      ⟨numbers, parameters, (spells_iff parameters.nonempty).mpr padded⟩
    unfold ofParameters? at h
    split at h <;>
      simp only [Option.bind_eq_bind, Option.bind_eq_some_iff, Option.pure_def, Option.some.injEq,
        word?_eq_some, wordOfInteger?_eq_some, stepOfInteger?_eq_some, reduceCtorEq] at h
    · next pieces =>
      obtain ⟨f, hf, d, hd, rfl⟩ := h
      rw [pieces] at made
      exact made (.tone f d) (.cons hf (.cons hd .nil))
    · next pieces =>
      obtain ⟨c, hc, f, hf, d, hd, l, hl, rfl⟩ := h
      rw [pieces] at made
      exact made (.beep ⟨c, f, d, l⟩) (.cons hc (.cons hf (.cons hd (.cons hl .nil))))
    · next pieces =>
      obtain ⟨f, hf, l, hl, s, hs, d, hd, rfl⟩ := h
      rw [pieces] at made
      exact made (.sweep ⟨f, l, s, d⟩) (.cons hf (.cons hl (.cons hs (.cons hd .nil))))
    · next pieces =>
      obtain ⟨l, hl, h, hh, t, ht, rfl⟩ := h
      rw [pieces] at made
      exact made (.siren ⟨l, h, t⟩) (.cons hl (.cons hh (.cons ht .nil)))
  · intro h
    obtain ⟨numbers, parameters, spells⟩ := h
    have padded := (spells_iff parameters.nonempty).mp spells
    unfold ofParameters?
    cases parameters <;>
      simp only [List.forall₂_cons_right_iff, List.forall₂_nil_right_iff, SoundFlag.signed,
        ← word?_eq_some, ← wordOfInteger?_eq_some, ← stepOfInteger?_eq_some] at padded
    case tone =>
      obtain ⟨_, _, hf, ⟨_, _, hd, rfl, rfl⟩, pieces⟩ := padded
      simp only [pieces, hf, hd]
      rfl
    case beep =>
      obtain ⟨_, _, hc, ⟨_, _, hf, ⟨_, _, hd, ⟨_, _, hl, rfl, rfl⟩, rfl⟩, rfl⟩, pieces⟩ := padded
      simp only [pieces, hc, hf, hd, hl]
      rfl
    case sweep =>
      obtain ⟨_, _, hf, ⟨_, _, hl, ⟨_, _, hs, ⟨_, _, hd, rfl, rfl⟩, rfl⟩, rfl⟩, pieces⟩ := padded
      simp only [pieces, hf, hl, hs, hd]
      rfl
    case siren =>
      obtain ⟨_, _, hl, ⟨_, _, hh, ⟨_, _, ht, rfl, rfl⟩, rfl⟩, pieces⟩ := padded
      simp only [pieces, hl, hh, ht]
      rfl

theorem isSome_ofParameters? {value : String} :
    (ofParameters? flag value).isSome = true ↔
      ∃ numbers, flag.Spells value numbers ∧ flag.Takes numbers := by
  rw [Option.isSome_iff_exists]
  constructor
  · intro h
    obtain ⟨sound, made⟩ := h
    obtain ⟨numbers, parameters, spells⟩ := ofParameters?_eq_some.mp made
    exact ⟨numbers, spells, takes_iff.mpr ⟨sound, parameters⟩⟩
  · intro h
    obtain ⟨numbers, spells, takes⟩ := h
    obtain ⟨sound, parameters⟩ := takes_iff.mp takes
    exact ⟨sound, ofParameters?_eq_some.mpr ⟨numbers, parameters, spells⟩⟩

theorem ofParameters?_eq_none {value : String} :
    ofParameters? flag value = none ↔
      ∀ numbers, flag.Spells value numbers → ¬ flag.Takes numbers := by
  rw [← Option.not_isSome_iff_eq_none, isSome_ofParameters?]
  simp only [not_exists, not_and]

/-- Written plainly, the numbers of a sound spell themselves. -/
theorem Parameters.spells (h : Parameters flag sound numbers) :
    flag.Spells (SoundFlag.spelling numbers) numbers := by
  have allowed : ∀ n ∈ numbers, n < 0 → flag.signed = true := by
    intro n hn below
    cases h with
    | sweep r => rfl
    | _ =>
      simp only [List.mem_cons, List.not_mem_nil, or_false] at hn
      omega
  refine ⟨numbers.map fun n => (signedText n).toList, ?_, ?_⟩
  · rw [SoundFlag.spelling, String.toList_intercalate, List.map_map]
    rfl
  · rw [List.forall₂_map_left_iff, List.forall₂_same]
    intro n hn
    exact (numeral_signedText n (allowed n hn)).padded

theorem read_flag (flag : SoundFlag) (value : String) :
    Options.read [flag.text, value] =
      match ofParameters? flag value with
      | some sound => { sound := some sound }
      | none => { help := true } := by
  have item : Item.readAll [flag.text, value] = [Item.ofFlag (.sound flag) (some value)] := by
    cases flag <;> rfl
  rw [Options.read, item, Item.ofFlag, Option.bind_some]
  cases ofParameters? flag value <;> rfl

/-- A flag's value asks for a sound exactly if it spells one number for each parameter and every
number is within its parameter's limits. Then the sound has these numbers. What is written plainly
of a sound's numbers asks for that sound, and the flag with it for nothing else. -/
theorem parameters_as_spelled (flag : SoundFlag) (value : String) :
    ((ofParameters? flag value).isSome = true ↔
        ∃ numbers, flag.Spells value numbers ∧ flag.Takes numbers) ∧
      (∀ sound, ofParameters? flag value = some sound ↔
        ∃ numbers, flag.Spells value numbers ∧ Parameters flag sound numbers) ∧
      (∀ sound numbers, Parameters flag sound numbers →
        flag.Takes numbers ∧
          Options.read [flag.text, SoundFlag.spelling numbers] = { sound := some sound }) := by
  refine ⟨isSome_ofParameters?, ?_, ?_⟩
  · intro sound
    rw [ofParameters?_eq_some]
    exact exists_congr fun numbers => and_comm
  · intro sound numbers parameters
    refine ⟨takes_iff.mpr ⟨sound, parameters⟩, ?_⟩
    rw [read_flag, ofParameters?_eq_some.mpr ⟨numbers, parameters, parameters.spells⟩]

/-- The numbers at the ends of their limits. -/
theorem parameters_as_spelled_at_limits :
    let r : Ramp := ⟨0, 4294967295, -2147483648, 20⟩
    Parameters .sweep (.sweep r) [0, 4294967295, -2147483648, 20] ∧
      Options.read ["--sweep", "0:4294967295:-2147483648:20"] = { sound := some (.sweep r) } := by
  intro r
  have parameters : Parameters .sweep (.sweep r) [0, 4294967295, -2147483648, 20] := .sweep r
  have plain : SoundFlag.spelling [0, 4294967295, -2147483648, 20] =
      "0:4294967295:-2147483648:20" := by
    rfl
  have written := (parameters_as_spelled .sweep "").2.2 (.sweep r) _ parameters
  rw [plain] at written
  exact ⟨parameters, written.2⟩

/-- Blanks, signs and zeros in front are read over, and one too many is not cut down. -/
example :
    ofParameters? .sweep " -0: +04294967295\t:-2147483648:020" =
        some (.sweep ⟨0, 4294967295, -2147483648, 20⟩) ∧
      ofParameters? .sweep "0:4294967296:1:20" = none := by
  constructor <;> rfl

end Sound

end Piezo.Cli
