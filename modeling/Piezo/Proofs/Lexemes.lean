import Mathlib.Data.List.Basic
import Piezo.Proofs.Utf8
import Piezo.Text.Decimal
import Piezo.Text.Split
import Piezo.Tune.Grammar

/-!
Lexemes: the smallest parts of a tune text, read back from the characters that stand for them.
-/

namespace Piezo

namespace Text

variable {α : Type}

/-- Where dropping stops, an element stands that stays. -/
theorem not_of_mem_head?_dropWhile {p : α → Bool} {xs : List α} {x : α}
    (h : x ∈ (xs.dropWhile p).head?) : p x = false := by
  have stops := List.head?_dropWhile_not p xs
  rw [Option.mem_def.mp h] at stops
  simpa using stops

/-- What is trimmed off the ends of a list is all that is trimmed. -/
theorem trimBy_pad {p : α → Bool} {lead core trail : List α} (hl : ∀ x ∈ lead, p x = true)
    (hc : ∀ x ∈ core, p x = false) (ht : ∀ x ∈ trail, p x = true) :
    trimBy p (lead ++ core ++ trail) = core := by
  have kept : ∀ xs : List α, (∀ x ∈ xs, p x = false) → xs.dropWhile p = xs := by
    intro xs hx
    cases xs with
    | nil => rfl
    | cons x rest => exact List.dropWhile_cons_of_neg (by simp [hx x])
  unfold trimBy
  cases core with
  | nil =>
    rw [List.append_nil, List.dropWhile_append_of_pos hl, ← List.append_nil trail,
      List.dropWhile_append_of_pos ht]
    rfl
  | cons x rest =>
    have hx : ¬ p x = true := by simp [hc x]
    rw [List.append_assoc, List.dropWhile_append_of_pos hl, List.cons_append,
      List.dropWhile_cons_of_neg hx, ← List.cons_append, List.reverse_append,
      List.dropWhile_append_of_pos (by simpa using ht),
      kept _ fun y hy => hc y (List.mem_reverse.mp hy), List.reverse_reverse]

variable [DecidableEq α] {separator : α}

theorem splitAt_cons_ne {x : α} (hx : x ≠ separator) {xs piece : List α} {rest : List (List α)}
    (h : splitAt separator xs = piece :: rest) :
    splitAt separator (x :: xs) = (x :: piece) :: rest := by
  unfold splitAt at h ⊢
  rw [List.foldr_cons, h, if_neg hx]

/-- A list without separators is one piece. -/
theorem splitAt_of_not_mem {xs : List α} (h : separator ∉ xs) : splitAt separator xs = [xs] := by
  induction xs with
  | nil => rfl
  | cons x rest ih =>
    obtain ⟨hx, hrest⟩ := List.ne_and_not_mem_of_not_mem_cons h
    exact splitAt_cons_ne hx.symm (ih hrest)

/-- There is always a first piece. -/
theorem exists_splitAt (separator : α) (xs : List α) :
    ∃ piece rest, splitAt separator xs = piece :: rest := by
  induction xs with
  | nil => exact ⟨[], [], rfl⟩
  | cons x rest ih =>
    obtain ⟨piece, more, h⟩ := ih
    by_cases hx : x = separator
    · exact ⟨[], splitAt separator rest, by simp [splitAt, hx]⟩
    · exact ⟨x :: piece, more, splitAt_cons_ne hx h⟩

theorem splitAt_cons_separator (xs : List α) :
    splitAt separator (separator :: xs) = [] :: splitAt separator xs := by
  simp [splitAt]

/-- A separator keeps the pieces before it apart from those after it. -/
theorem splitAt_join (xs ys : List α) :
    splitAt separator (xs ++ separator :: ys) =
      splitAt separator xs ++ splitAt separator ys := by
  induction xs with
  | nil => exact splitAt_cons_separator ys
  | cons x rest ih =>
    by_cases hx : x = separator
    · rw [hx, List.cons_append, splitAt_cons_separator, splitAt_cons_separator, ih]
      rfl
    · obtain ⟨piece, more, h⟩ := exists_splitAt separator rest
      rw [h] at ih
      rw [splitAt_cons_ne hx h]
      exact splitAt_cons_ne hx ih

/-- A separator ends the piece before it. -/
theorem splitAt_append {xs : List α} (h : separator ∉ xs) (rest : List α) :
    splitAt separator (xs ++ separator :: rest) = xs :: splitAt separator rest := by
  rw [splitAt_join, splitAt_of_not_mem h]
  rfl

/-- Splitting undoes joining. -/
theorem splitAt_intercalate {pieces : List (List α)} (h : ∀ piece ∈ pieces, separator ∉ piece)
    (nonempty : pieces ≠ []) : splitAt separator ([separator].intercalate pieces) = pieces := by
  induction pieces with
  | nil => exact absurd rfl nonempty
  | cons piece rest ih =>
    obtain ⟨hpiece, hrest⟩ := List.forall_mem_cons.mp h
    cases rest with
    | nil =>
      rw [List.intercalate_singleton]
      exact splitAt_of_not_mem hpiece
    | cons next more =>
      rw [List.intercalate_cons_cons, List.append_assoc, List.singleton_append,
        splitAt_append hpiece, ih hrest (by simp)]

/-- Joining undoes splitting. -/
theorem intercalate_splitAt (xs : List α) :
    [separator].intercalate (splitAt separator xs) = xs := by
  induction xs with
  | nil => exact List.intercalate_singleton
  | cons x xs ih =>
    obtain ⟨piece, rest, h⟩ := exists_splitAt separator xs
    by_cases hx : x = separator
    · rw [hx, splitAt_cons_separator, h, List.intercalate_cons_cons, ← h, ih]
      rfl
    · rw [splitAt_cons_ne hx h]
      rw [h] at ih
      cases rest with
      | nil =>
        rw [List.intercalate_singleton] at ih ⊢
        rw [ih]
      | cons next rest =>
        rw [List.intercalate_cons_cons] at ih ⊢
        rw [List.cons_append, List.cons_append, ih]

end Text

namespace Tune

open Text Text.Utf8

/-- Saturating at every step is saturating once in the end. -/
theorem foldl_capped {α : Type} (digit : α → Nat) (cap : Nat) (xs : List α) (n : Nat) :
    xs.foldl (fun n x => min (n * 10 + digit x) cap) (min n cap) =
      min (xs.foldl (fun n x => n * 10 + digit x) n) cap := by
  induction xs generalizing n with
  | nil => rfl
  | cons x rest ih =>
    have hstep : min (min n cap * 10 + digit x) cap = min (n * 10 + digit x) cap := by omega
    rw [List.foldl_cons, List.foldl_cons, hstep, ih]

theorem isDigit_of_mem_chars {n : Nat} {c : Char} (hc : c ∈ Decimal.chars n) :
    48 ≤ c.toNat ∧ c.toNat ≤ 57 := by
  have h : c.isDigit = true := Nat.isDigit_of_mem_toDigits (by decide) (by decide) hc
  simpa [Char.isDigit, UInt32.le_iff_toNat_le] using h

theorem bytes_chars (n : Nat) :
    bytes (Decimal.chars n) = (Decimal.chars n).map fun c => UInt8.ofNat c.toNat := by
  refine bytes_ascii fun c hc => ?_
  have := isDigit_of_mem_chars hc
  omega

theorem bytes_chars_ne_nil (n : Nat) : bytes (Decimal.chars n) ≠ [] := by
  rw [bytes_chars]
  simp [Decimal.chars_ne_nil]

theorem isDigit_of_mem_bytes_chars {n : Nat} {b : UInt8} (hb : b ∈ bytes (Decimal.chars n)) :
    isDigit b = true := by
  rw [bytes_chars] at hb
  obtain ⟨c, hc, rfl⟩ := List.mem_map.mp hb
  have h := isDigit_of_mem_chars hc
  simp [isDigit, UInt8.le_iff_toNat_le, toNat_ofNat (show c.toNat < 256 by omega), h]

/-- The digits of a number that can be read mean that number. -/
theorem number_chars (v : UInt32) : number (bytes (Decimal.chars v.toNat)) = v := by
  have hdigits : ∀ n, ∀ c ∈ Decimal.chars v.toNat,
      min (n * 10 + ((UInt8.ofNat c.toNat).toNat - 48)) greatestNumber =
        min (n * 10 + (c.toNat - 48)) greatestNumber := by
    intro n c hc
    have h := isDigit_of_mem_chars hc
    rw [toNat_ofNat (show c.toNat < 256 by omega)]
  have hvalue : (Decimal.chars v.toNat).foldl (fun n c => n * 10 + (c.toNat - 48)) 0 = v.toNat := by
    have h : Nat.ofDigitChars 10 (Decimal.chars v.toNat) 0 = v.toNat :=
      Nat.ofDigitChars_ten_toDigits
    rw [Nat.ofDigitChars_eq_foldl] at h
    simpa [Nat.mul_comm] using h
  have hcap : v.toNat ≤ greatestNumber := Nat.le_pred_of_lt v.toNat_lt
  have hcapped := foldl_capped (fun c : Char => c.toNat - 48) greatestNumber
    (Decimal.chars v.toNat) 0
  rw [hvalue, Nat.min_eq_left hcap, Nat.zero_min] at hcapped
  unfold number
  rw [bytes_chars, List.foldl_map, List.foldl_ext _ _ 0 hdigits, hcapped, UInt32.ofNat_toNat]

/-- The first element of a list, if there is one, is none of those. -/
theorem dropWhile_of_head {α : Type} {p : α → Bool} {xs : List α}
    (h : ∀ x ∈ xs.head?, p x = false) : xs.dropWhile p = xs ∧ xs.takeWhile p = [] := by
  cases xs with
  | nil => exact ⟨rfl, rfl⟩
  | cons x rest =>
    have hx : ¬ p x = true := by simp [h x rfl]
    exact ⟨List.dropWhile_cons_of_neg hx, List.takeWhile_cons_of_neg hx⟩

theorem fst_number? (bytes : List UInt8) :
    (number? bytes).1 =
      if bytes.takeWhile isDigit = [] then none else some (number (bytes.takeWhile isDigit)) := by
  cases h : bytes.takeWhile isDigit <;> simp [number?, h]

theorem number?_of_head {rest : List UInt8} (h : ∀ b ∈ rest.head?, isDigit b = false) :
    number? rest = (none, rest) := by
  unfold number?
  rw [(dropWhile_of_head h).2]

/-- A number is read up to the first byte that is no digit. -/
theorem number?_append {digits rest : List UInt8} (numeric : ∀ b ∈ digits, isDigit b = true)
    (nonempty : digits ≠ []) (h : ∀ b ∈ rest.head?, isDigit b = false) :
    number? (digits ++ rest) = (some (number digits), rest) := by
  unfold number?
  rw [List.takeWhile_append_of_pos numeric, List.dropWhile_append_of_pos numeric,
    (dropWhile_of_head h).1, (dropWhile_of_head h).2, List.append_nil]
  cases digits with
  | nil => exact absurd rfl nonempty
  | cons _ _ => rfl

theorem number?_chars (v : UInt32) {rest : List UInt8}
    (h : ∀ b ∈ rest.head?, isDigit b = false) :
    number? (bytes (Decimal.chars v.toNat) ++ rest) = (some v, rest) := by
  rw [number?_append (fun _ hb => isDigit_of_mem_bytes_chars hb) (bytes_chars_ne_nil _) h,
    number_chars]

/-- Spaces and tabs. -/
structure Gap where
  chars : List Char := []
  only : chars.all (fun c => c = ' ' || c = '\t') = true := by rfl

theorem Gap.of_mem (g : Gap) {c : Char} (hc : c ∈ g.chars) : c = ' ' ∨ c = '\t' := by
  simpa using List.all_eq_true.mp g.only c hc

/-- White space in ASCII. -/
def isWhite (c : Char) : Bool :=
  c = ' ' || c = '\t' || c = '\n' || c = '\x0c' || c = '\r'

structure Space where
  chars : List Char := []
  only : chars.all isWhite = true := by rfl

theorem Space.isWhite_of_mem (s : Space) : ∀ c ∈ s.chars, isWhite c = true :=
  List.all_eq_true.mp s.only

theorem isGap_of_mem (g : Gap) {b : UInt8} (hb : b ∈ bytes g.chars) : isGap b = true := by
  obtain ⟨c, hc, hb⟩ := List.mem_flatMap.mp hb
  obtain rfl | rfl := g.of_mem hc <;> cases List.mem_singleton.mp hb <;> rfl

theorem dropWhile_gap (g : Gap) {rest : List UInt8} (h : ∀ b ∈ rest.head?, isGap b = false) :
    (bytes g.chars ++ rest).dropWhile isGap = rest := by
  rw [List.dropWhile_append_of_pos fun b hb => isGap_of_mem g hb, (dropWhile_of_head h).1]

/-- A byte is a space if its character is white. -/
theorem isSpace_eq_isWhite (c : Char) (b : UInt8) (hb : b ∈ String.utf8EncodeChar c) :
    isSpace b = isWhite c := by
  have hspace : isSpace b = true ↔ b.toNat = 32 ∨ b.toNat = 9 ∨ b.toNat = 10 ∨ b.toNat = 13 ∨
      b.toNat = 12 := by
    simp only [isSpace, isGap, Bool.or_eq_true, decide_eq_true_eq, ← UInt8.toNat_inj,
      UInt8.reduceToNat]
    omega
  have hwhite : isWhite c = true ↔ c.toNat = 32 ∨ c.toNat = 9 ∨ c.toNat = 10 ∨ c.toNat = 13 ∨
      c.toNat = 12 := by
    simp only [isWhite, Bool.or_eq_true, decide_eq_true_eq, ← Char.toNat_inj,
      Char.reduceToNat]
    omega
  rw [Bool.eq_iff_iff, hspace, hwhite]
  obtain ⟨-, he⟩ | ⟨hc, hb⟩ := of_mem_encodeChar hb <;> omega

/-- Trimming the bytes of a text trims its characters. -/
theorem trimBy_bytes (cs : List Char) : trimBy isSpace (bytes cs) = bytes (trimBy isWhite cs) :=
  trimBy_flatMap encodeChar_ne_nil isSpace_eq_isWhite cs

end Tune

end Piezo
