import Piezo.Text.Blank
import Piezo.Text.Utf8

/-!
UTF-8 read back: the bytes of a text spell that text, and what is looked for among ASCII bytes can
be looked for among the characters instead.
-/

namespace Piezo.Text

namespace Utf8

/-- The bytes of some characters. -/
def bytes (cs : List Char) : List UInt8 := cs.flatMap String.utf8EncodeChar

theorem encode_eq (s : String) : encode s = bytes s.toList := rfl

@[simp] theorem bytes_cons (c : Char) (cs : List Char) :
    bytes (c :: cs) = String.utf8EncodeChar c ++ bytes cs := rfl

@[simp] theorem bytes_append (cs ds : List Char) : bytes (cs ++ ds) = bytes cs ++ bytes ds :=
  List.flatMap_append

variable {c : Char} {b : UInt8} {n m : Nat}

theorem toNat_ofNat (h : n < 256) : (UInt8.ofNat n).toNat = n :=
  UInt8.toNat_ofNat_of_lt' h

/-- The first byte of a character of two bytes. -/
theorem fresh_two : ∀ n < 32, 2 ≤ n →
    fresh (UInt8.ofNat (n + 0xC0)) = ([], some ⟨n, 0, 0x80, 0xBF⟩) := by
  decide

/-- The first byte of a character of three bytes; the bounds keep out overlong forms and
surrogates. -/
theorem fresh_three : ∀ n < 16,
    fresh (UInt8.ofNat (n + 0xE0)) =
      ([], some ⟨n, 1, if n = 0 then 0xA0 else 0x80, if n = 13 then 0x9F else 0xBF⟩) := by
  decide

/-- The first byte of a character of four bytes. -/
theorem fresh_four : ∀ n < 5,
    fresh (UInt8.ofNat (n + 0xF0)) =
      ([], some ⟨n, 2, if n = 0 then 0x90 else 0x80, if n = 4 then 0x8F else 0xBF⟩) := by
  decide

/-- A byte within bounds goes on with the character, six bits at a time. -/
theorem step_within (bits after : Nat) (low high : UInt8) (hm : m < 64)
    (hl : low.toNat ≤ m + 0x80) (hh : m + 0x80 ≤ high.toNat) :
    step (some ⟨bits, after, low, high⟩) (UInt8.ofNat (m + 0x80)) =
      match after with
      | 0 => ([some (Char.ofNat (bits * 64 + m))], none)
      | after + 1 => ([], some ⟨bits * 64 + m, after, 0x80, 0xBF⟩) := by
  have hb : (UInt8.ofNat (m + 0x80)).toNat = m + 0x80 := toNat_ofNat (by omega)
  have hwithin : low ≤ UInt8.ofNat (m + 0x80) ∧ UInt8.ofNat (m + 0x80) ≤ high := by
    simp only [UInt8.le_iff_toNat_le, hb]
    exact ⟨hl, hh⟩
  have hbits : (m + 0x80) % 64 = m := by omega
  cases after <;> simp only [step, if_pos hwithin, hb, hbits]

theorem step_last (bits : Nat) (hm : m < 64) :
    step (some ⟨bits, 0, 0x80, 0xBF⟩) (UInt8.ofNat (m + 0x80)) =
      ([some (Char.ofNat (bits * 64 + m))], none) :=
  step_within bits 0 0x80 0xBF hm (by simp) (by simp; omega)

theorem scan_cons (begun : Option Begun) (b : UInt8) (rest : List UInt8) :
    scan begun (b :: rest) = (step begun b).1 ++ scan (step begun b).2 rest := rfl

theorem step_none (b : UInt8) : step none b = fresh b := rfl

/-- A character is read back from its bytes, whatever follows. -/
theorem scan_encodeChar (c : Char) (rest : List UInt8) :
    scan none (String.utf8EncodeChar c ++ rest) = some c :: scan none rest := by
  have hchar : Char.ofNat c.val.toNat = c := Char.ofNat_toNat c
  have hvalid : c.val.toNat < 0xD800 ∨ 0xDFFF < c.val.toNat ∧ c.val.toNat < 0x110000 := c.valid
  unfold String.utf8EncodeChar
  generalize c.val.toNat = v at hchar hvalid
  dsimp only
  split
  · have hv : (UInt8.ofNat v).toNat = v := toNat_ofNat (by omega)
    have hlt : UInt8.ofNat v < 0x80 := by
      rw [UInt8.lt_iff_toNat_lt, hv]
      simp
      omega
    simp [scan, step, fresh, hlt, hv, hchar]
  · split
    · have hbits : v / 64 % 32 * 64 + v % 64 = v := by omega
      simp only [List.cons_append, List.nil_append, scan_cons, step_none,
        fresh_two (v / 64 % 32) (by omega) (by omega),
        step_last _ (Nat.mod_lt v (by decide : 0 < 64)), hbits, hchar]
    · split
      · have hbits : (v / 4096 % 16 * 64 + v / 64 % 64) * 64 + v % 64 = v := by omega
        have second := step_within (v / 4096 % 16) 1 (if v / 4096 % 16 = 0 then 0xA0 else 0x80)
          (if v / 4096 % 16 = 13 then 0x9F else 0xBF) (m := v / 64 % 64) (by omega)
          (by split <;> simp <;> omega) (by split <;> simp <;> omega)
        simp only [List.cons_append, List.nil_append, scan_cons, step_none,
          fresh_three (v / 4096 % 16) (by omega), second,
          step_last _ (Nat.mod_lt v (by decide : 0 < 64)), hbits, hchar]
      · have hbits :
            ((v / 262144 % 8 * 64 + v / 4096 % 64) * 64 + v / 64 % 64) * 64 + v % 64 = v := by
          omega
        have second := step_within (v / 262144 % 8) 2 (if v / 262144 % 8 = 0 then 0x90 else 0x80)
          (if v / 262144 % 8 = 4 then 0x8F else 0xBF) (m := v / 4096 % 64) (by omega)
          (by split <;> simp <;> omega) (by split <;> simp <;> omega)
        have third := step_within (v / 262144 % 8 * 64 + v / 4096 % 64) 1 0x80 0xBF
          (m := v / 64 % 64) (by omega) (by simp) (by simp; omega)
        simp only [List.cons_append, List.nil_append, scan_cons, step_none,
          fresh_four (v / 262144 % 8) (by omega), second, third,
          step_last _ (Nat.mod_lt v (by decide : 0 < 64)), hbits, hchar]

theorem scan_bytes (cs : List Char) : scan none (bytes cs) = cs.map some := by
  induction cs with
  | nil => rfl
  | cons c rest ih => rw [bytes_cons, scan_encodeChar, ih, List.map_cons]

/-- A text is read back from its bytes. -/
theorem lossy_bytes (cs : List Char) : lossy (bytes cs) = String.ofList cs := by
  rw [lossy, scan_bytes, List.map_map]
  exact congrArg String.ofList (List.map_id' _)

theorem encodeChar_ne_nil (c : Char) : String.utf8EncodeChar c ≠ [] := by
  unfold String.utf8EncodeChar
  dsimp only
  split
  · simp
  · split
    · simp
    · split <;> simp

theorem encodeChar_ascii (h : c.toNat < 0x80) :
    String.utf8EncodeChar c = [UInt8.ofNat c.toNat] := by
  unfold String.utf8EncodeChar
  exact if_pos (Nat.le_of_lt_succ h)

/-- The bytes of an ASCII character are that character, and those of any other are no ASCII. -/
theorem of_mem_encodeChar (hb : b ∈ String.utf8EncodeChar c) :
    (c.toNat < 0x80 ∧ b.toNat = c.toNat) ∨ (0x80 ≤ c.toNat ∧ 0x80 ≤ b.toNat) := by
  by_cases hc : c.toNat < 0x80
  · rw [encodeChar_ascii hc, List.mem_singleton] at hb
    subst hb
    exact .inl ⟨hc, toNat_ofNat (by omega)⟩
  · refine .inr ⟨Nat.le_of_not_lt hc, ?_⟩
    have hv : ¬ c.val.toNat ≤ 0x7F := by
      have : c.val.toNat = c.toNat := rfl
      omega
    unfold String.utf8EncodeChar at hb
    dsimp only at hb
    rw [if_neg hv] at hb
    -- a byte that leads has its upper bits set, and so has one that goes on
    have upper : ∀ n d, 0x80 ≤ d → n + d < 256 → 0x80 ≤ (UInt8.ofNat (n + d)).toNat := by
      intro n d hd hn
      rw [toNat_ofNat hn]
      omega
    split at hb
    · simp only [List.mem_cons, List.not_mem_nil, or_false] at hb
      rcases hb with rfl | rfl <;> exact upper _ _ (by omega) (by omega)
    · split at hb <;> simp only [List.mem_cons, List.not_mem_nil, or_false] at hb
      · rcases hb with rfl | rfl | rfl <;> exact upper _ _ (by omega) (by omega)
      · rcases hb with rfl | rfl | rfl | rfl <;> exact upper _ _ (by omega) (by omega)

/-- An ASCII character is among the characters of a text if its byte is among the bytes. -/
theorem mem_of_mem_bytes {cs : List Char} {a : Char} (ha : a.toNat < 0x80)
    (hb : b.toNat = a.toNat) (hm : b ∈ bytes cs) : a ∈ cs := by
  obtain ⟨c, hc, hm⟩ := List.mem_flatMap.mp hm
  obtain ⟨-, he⟩ | ⟨-, he⟩ := of_mem_encodeChar hm
  · have : a = c := Char.toNat_inj.mp (hb.symm.trans he)
    rwa [this]
  · omega

theorem bytes_ascii {cs : List Char} (h : ∀ c ∈ cs, c.toNat < 0x80) :
    bytes cs = cs.map fun c => UInt8.ofNat c.toNat := by
  induction cs with
  | nil => rfl
  | cons c rest ih =>
    obtain ⟨hc, hrest⟩ := List.forall_mem_cons.mp h
    rw [bytes_cons, encodeChar_ascii hc, ih hrest]
    rfl

end Utf8

section FlatMap

variable {α β : Type} {f : α → List β} {p : β → Bool} {q : α → Bool}

/-- What is dropped of the parts can be dropped of what they are parts of. -/
theorem dropWhile_flatMap (nonempty : ∀ a, f a ≠ []) (same : ∀ a, ∀ b ∈ f a, p b = q a)
    (xs : List α) : (xs.flatMap f).dropWhile p = (xs.dropWhile q).flatMap f := by
  induction xs with
  | nil => rfl
  | cons x rest ih =>
    rw [List.flatMap_cons]
    cases hq : q x with
    | true =>
      rw [List.dropWhile_append_of_pos fun b hb => (same x b hb).trans hq, ih,
        List.dropWhile_cons_of_pos hq]
    | false =>
      obtain ⟨b, more, hf⟩ := List.exists_cons_of_ne_nil (nonempty x)
      have hp : ¬ p b = true := by simp [same x b (by simp [hf]), hq]
      rw [List.dropWhile_cons_of_neg (by simp [hq]), List.flatMap_cons, hf, List.cons_append,
        List.dropWhile_cons_of_neg hp]

theorem trimBy_flatMap (nonempty : ∀ a, f a ≠ []) (same : ∀ a, ∀ b ∈ f a, p b = q a)
    (xs : List α) : trimBy p (xs.flatMap f) = (trimBy q xs).flatMap f := by
  unfold trimBy
  rw [dropWhile_flatMap nonempty same, List.reverse_flatMap, dropWhile_flatMap (q := q) ?_ ?_,
    List.reverse_flatMap]
  · simp [Function.comp_def]
  · exact fun a => by simpa using nonempty a
  · exact fun a b hb => same a b (by simpa using hb)

end FlatMap

end Piezo.Text
