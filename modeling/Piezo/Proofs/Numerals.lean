import Mathlib.Data.List.Induction
import Piezo.Proofs.Colons

/-!
Numerals: which texts stand for which whole numbers, by a grammar that says nothing of reading.

A numeral is one digit or more with at most one sign in front. Leading zeros are allowed, and so is
any value. The readers accept exactly these texts, and what is written of a number is one of them.
-/

namespace Piezo.Text

namespace Decimal

/-- Digits in base ten. One more digit counts once, and everything before it ten times. -/
inductive Digits : List Char → Nat → Prop
  | one {d : Nat} (digit : d < 10) : Digits [d.digitChar] d
  | more {cs : List Char} {n d : Nat} (front : Digits cs n) (digit : d < 10) :
      Digits (cs ++ [d.digitChar]) (10 * n + d)

/-- Digits alone or after a plus sign, or after a minus sign where one is allowed. -/
inductive Numeral (signed : Bool) : List Char → Int → Prop
  | bare {cs : List Char} {n : Nat} (digits : Digits cs n) : Numeral signed cs n
  | plus {cs : List Char} {n : Nat} (digits : Digits cs n) : Numeral signed ('+' :: cs) n
  | minus {cs : List Char} {n : Nat} (digits : Digits cs n) (allowed : signed = true) :
      Numeral signed ('-' :: cs) (-n)

/-- A numeral with white space around it. -/
def Padded (signed : Bool) (piece : List Char) (n : Int) : Prop :=
  ∃ lead core trail, piece = lead ++ core ++ trail ∧ (∀ c ∈ lead ++ trail, isBlank c = true) ∧
    Numeral signed core n

variable {signed : Bool} {cs : List Char} {n : Nat} {i : Int} {c : Char}

theorem exists_digitChar (h : c.isDigit = true) : ∃ d < 10, c = d.digitChar := by
  have bounds : 48 ≤ c.toNat ∧ c.toNat ≤ 57 := by
    simpa [Char.isDigit, UInt32.le_iff_toNat_le] using h
  refine ⟨c.toNat - 48, by omega, ?_⟩
  rw [← Char.toNat_inj, Nat.toNat_digitChar_of_lt_ten (by omega)]
  omega

theorem ofDigitChars_concat (cs : List Char) {d : Nat} (digit : d < 10) :
    Nat.ofDigitChars 10 (cs ++ [d.digitChar]) 0 = 10 * Nat.ofDigitChars 10 cs 0 + d := by
  rw [Nat.ofDigitChars_append, Nat.ofDigitChars_cons_digitChar_of_lt_ten digit,
    Nat.ofDigitChars_nil]

theorem Digits.of_isDigit (nonempty : cs ≠ []) (digits : ∀ c ∈ cs, c.isDigit = true) :
    Digits cs (Nat.ofDigitChars 10 cs 0) := by
  induction cs using List.reverseRecOn with
  | nil => exact absurd rfl nonempty
  | append_singleton cs c ih =>
    obtain ⟨d, digit, rfl⟩ := exists_digitChar (digits c (by simp))
    rw [ofDigitChars_concat cs digit]
    cases cs with
    | nil => simpa using Digits.one digit
    | cons first rest =>
      exact (ih (by simp) fun c hc => digits c (List.mem_append_left _ hc)).more digit

theorem Digits.nonempty (h : Digits cs n) : cs ≠ [] := by
  cases h <;> simp

theorem Digits.mem (h : Digits cs n) (hc : c ∈ cs) : ∃ d < 10, c = d.digitChar := by
  induction h with
  | one digit => exact ⟨_, digit, List.mem_singleton.mp hc⟩
  | more front digit ih =>
    rcases List.mem_append.mp hc with hc | hc
    · exact ih hc
    · exact ⟨_, digit, List.mem_singleton.mp hc⟩

theorem Digits.value (h : Digits cs n) : Nat.ofDigitChars 10 cs 0 = n := by
  induction h with
  | one digit => simpa using ofDigitChars_concat [] digit
  | more front digit ih => rw [ofDigitChars_concat _ digit, ih]

theorem digits?_eq_some : digits? cs = some n ↔ Digits cs n := by
  constructor
  · intro h
    obtain ⟨⟨nonempty, digits⟩, rfl⟩ : (cs ≠ [] ∧ cs.all Char.isDigit = true) ∧
        Nat.ofDigitChars 10 cs 0 = n := by
      simpa only [digits?, Option.ite_none_right_eq_some, Option.some.injEq] using h
    exact .of_isDigit nonempty (List.all_eq_true.mp digits)
  · intro h
    have digits : cs.all Char.isDigit = true := by
      rw [List.all_eq_true]
      intro c hc
      obtain ⟨d, digit, rfl⟩ := h.mem hc
      rw [Nat.isDigit_digitChar, decide_eq_true digit]
    rw [digits?, if_pos ⟨h.nonempty, digits⟩, h.value]

theorem digitChar_plain : ∀ d < 10, d.digitChar ≠ '+' ∧ d.digitChar ≠ '-' ∧
    d.digitChar ≠ ':' ∧ isBlank d.digitChar = false := by
  decide

/-- A sign is no digit. -/
theorem Digits.not_mem_sign (h : Digits cs n) : '+' ∉ cs ∧ '-' ∉ cs := by
  constructor
  · intro hc
    obtain ⟨d, digit, hd⟩ := h.mem hc
    exact (digitChar_plain d digit).1 hd.symm
  · intro hc
    obtain ⟨d, digit, hd⟩ := h.mem hc
    exact (digitChar_plain d digit).2.1 hd.symm

theorem natural?_eq_some : natural? cs = some n ↔ Numeral false cs n := by
  unfold natural?
  split
  · next cs =>
    rw [digits?_eq_some]
    constructor
    · exact .plus
    · intro h
      cases h with
      | bare digits => exact absurd List.mem_cons_self digits.not_mem_sign.1
      | plus digits => exact digits
  · next cs plain =>
    rw [digits?_eq_some]
    constructor
    · exact .bare
    · intro h
      generalize hi : (n : Int) = i at h
      cases h with
      | bare digits => exact Int.ofNat.inj hi ▸ digits
      | plus digits => exact absurd rfl (plain _)
      | minus _ allowed => cases allowed

/-- Where no minus sign is read, it makes no difference whether one is allowed. -/
theorem numeral_true (plain : ∀ rest, cs ≠ '-' :: rest) :
    Numeral true cs i ↔ Numeral false cs i := by
  constructor
  · intro h
    cases h with
    | bare digits => exact .bare digits
    | plus digits => exact .plus digits
    | minus _ _ => exact absurd rfl (plain _)
  · intro h
    cases h with
    | bare digits => exact .bare digits
    | plus digits => exact .plus digits
    | minus _ allowed => cases allowed

theorem integer?_eq_some : integer? cs = some i ↔ Numeral true cs i := by
  unfold integer?
  split
  · next cs =>
    simp only [Option.map_eq_some_iff, Option.bind_eq_bind, Option.bind_eq_some_iff,
      digits?_eq_some, Option.pure_def, Option.some.injEq]
    constructor
    · intro h
      obtain ⟨_, ⟨n, digits, rfl⟩, rfl⟩ := h
      exact .minus digits rfl
    · intro h
      cases h with
      | bare digits => exact absurd List.mem_cons_self digits.not_mem_sign.2
      | minus digits _ => exact ⟨_, ⟨_, digits, rfl⟩, rfl⟩
  · next cs plain =>
    simp only [Option.map_eq_some_iff, Option.bind_eq_bind, Option.bind_eq_some_iff,
      natural?_eq_some, Option.pure_def, Option.some.injEq]
    rw [numeral_true fun rest he => plain rest he]
    constructor
    · intro h
      obtain ⟨_, ⟨n, numeral, rfl⟩, rfl⟩ := h
      exact numeral
    · intro h
      cases h with
      | bare digits => exact ⟨_, ⟨_, .bare digits, rfl⟩, rfl⟩
      | plus digits => exact ⟨_, ⟨_, .plus digits, rfl⟩, rfl⟩
      | minus _ allowed => cases allowed

theorem atMost_eq_some {bound : Nat} :
    atMost bound cs = some n ↔ Numeral false cs n ∧ n ≤ bound := by
  rw [atMost, Option.filter_eq_some_iff, natural?_eq_some, decide_eq_true_eq]

theorem numeral_signedText (i : Int) (allowed : i < 0 → signed = true) :
    Numeral signed (signedText i).toList i := by
  have digits (n : Nat) : Digits (text n).toList n := by
    rw [text, String.toList_ofList]
    exact digits?_eq_some.mp (digits?_chars n)
  cases i with
  | ofNat n => exact .bare (digits n)
  | negSucc n =>
    rw [signedText, String.toList_append]
    exact .minus (digits (n + 1)) (allowed (Int.negSucc_lt_zero n))

theorem Digits.visible (h : Digits cs n) (hc : c ∈ cs) : c ≠ ':' ∧ isBlank c = false := by
  obtain ⟨d, digit, rfl⟩ := h.mem hc
  exact (digitChar_plain d digit).2.2

/-- No character of a numeral is a colon or white space. -/
theorem Numeral.visible (h : Numeral signed cs i) (hc : c ∈ cs) : c ≠ ':' ∧ isBlank c = false := by
  cases h with
  | bare digits => exact digits.visible hc
  | plus digits =>
    rcases List.mem_cons.mp hc with rfl | hc
    · decide
    · exact digits.visible hc
  | minus digits _ =>
    rcases List.mem_cons.mp hc with rfl | hc
    · decide
    · exact digits.visible hc

theorem padded_iff {piece : List Char} : Padded signed piece i ↔ Numeral signed (trim piece) i := by
  constructor
  · intro h
    obtain ⟨lead, core, trail, rfl, blank, numeral⟩ := h
    obtain ⟨hl, ht⟩ := List.forall_mem_append.mp blank
    rwa [trim, trimBy_pad hl (fun c hc => (numeral.visible hc).2) ht]
  · intro numeral
    obtain ⟨lead, trail, whole, blank, -⟩ := trimBy_spec isBlank piece
    exact ⟨lead, trim piece, trail, whole, blank, numeral⟩

theorem Numeral.padded (h : Numeral signed cs i) : Padded signed cs i :=
  ⟨[], cs, [], by simp, by simp, h⟩

theorem Padded.colon_not_mem {piece : List Char} (h : Padded signed piece i) : ':' ∉ piece := by
  obtain ⟨lead, core, trail, rfl, blank, numeral⟩ := h
  have solid : isBlank ':' = false := by decide
  intro hc
  rw [List.append_assoc, List.mem_append, List.mem_append] at hc
  obtain hc | hc | hc := hc
  · rw [blank ':' (List.mem_append_left _ hc)] at solid
    cases solid
  · exact (numeral.visible hc).1 rfl
  · rw [blank ':' (List.mem_append_right _ hc)] at solid
    cases solid

end Decimal

end Piezo.Text
