import Mathlib.Data.List.TakeWhile
import Piezo.Json.Value

/-!
The reader of tokens, character by character: what it completes of a text from where it stands on.
Words and numerals end only where something follows that cannot go on with them, so each statement
is about a text with a rest.
-/

namespace Piezo.Json

namespace Token

/-- The tokens that the rest of a text completes, for a reader that stands somewhere in it. -/
def readFrom? (mode : Mode) : List Char → Option (List Token)
  | [] => atEnd? mode
  | c :: rest =>
    (step? mode c).bind fun (tokens, mode) => (readFrom? mode rest).map (tokens ++ ·)

theorem foldlM_read? (text : List Char) (mode : Mode) (done : List Token) :
    (do
      let p ← text.foldlM Progress.read? ⟨mode, done⟩
      let last ← atEnd? p.mode
      return p.tokens.reverse ++ last) = (readFrom? mode text).map (done.reverse ++ ·) := by
  induction text generalizing mode done with
  | nil => cases h : atEnd? mode <;> simp [readFrom?, h]
  | cons c rest ih =>
    rw [List.foldlM_cons]
    cases h : step? mode c with
    | none => simp [Progress.read?, readFrom?, h]
    | some next =>
      have hread : Progress.read? ⟨mode, done⟩ c =
          some ⟨next.2, next.1.reverse ++ done⟩ := by simp [Progress.read?, h]
      have := ih next.2 (next.1.reverse ++ done)
      simp only [hread, Option.bind_eq_bind, Option.bind_some, readFrom?, h] at this ⊢
      rw [this]
      cases readFrom? next.2 rest <;> simp

/-- What a text completes from its beginning on is all that it is read as. -/
theorem readAll?_eq (text : List Char) : readAll? text = readFrom? .between text := by
  rw [readAll?, foldlM_read?]
  simp

end Token

/-- No word and no numeral goes on with what comes first. -/
def Closes (rest : List Char) : Prop :=
  ∀ c ∈ rest.head?, c.isAlpha = false ∧ isNumeralChar c = false

theorem closes_nil : Closes [] := by simp [Closes]

theorem closes_cons {c : Char} {rest : List Char}
    (h : c.isAlpha = false ∧ isNumeralChar c = false := by decide) : Closes (c :: rest) := by
  simpa [Closes] using h

theorem closes_newLine (depth : Nat) (rest : List Char) : Closes (newLine depth ++ rest) :=
  closes_cons

section Numerals

/-- A numeral begins with a digit or a minus sign. -/
def LeadsNumeral (cs : List Char) : Prop :=
  ∃ c rest, cs = c :: rest ∧ (c = '-' ∨ c.isDigit = true)

/-- What is skipped of a text belongs to a numeral. -/
def Skips (cs rest : List Char) : Prop :=
  ∃ skipped, cs = skipped ++ rest ∧ ∀ c ∈ skipped, isNumeralChar c = true

variable {cs rest : List Char}

theorem Skips.refl (cs : List Char) : Skips cs cs := ⟨[], rfl, by simp⟩

theorem Skips.cons {c : Char} (hc : isNumeralChar c = true) (h : Skips cs rest) :
    Skips (c :: cs) rest := by
  obtain ⟨skipped, rfl, hs⟩ := h
  exact ⟨c :: skipped, rfl, by simpa [hc] using hs⟩

theorem Skips.trans {more : List Char} (h : Skips cs rest) (k : Skips rest more) :
    Skips cs more := by
  obtain ⟨skipped, rfl, hs⟩ := h
  obtain ⟨further, rfl, hf⟩ := k
  refine ⟨skipped ++ further, by simp, fun c hc => ?_⟩
  rcases List.mem_append.mp hc with hc | hc
  · exact hs c hc
  · exact hf c hc

theorem isNumeralChar_of_isDigit {c : Char} (h : c.isDigit = true) : isNumeralChar c = true := by
  simp [isNumeralChar, h]

theorem skipDigits?_spec (h : skipDigits? cs = some rest) :
    Skips cs rest ∧ LeadsNumeral cs := by
  unfold skipDigits? at h
  split at h
  · cases h
  · next hne =>
    cases h
    refine ⟨⟨cs.takeWhile Char.isDigit, (List.takeWhile_append_dropWhile ..).symm, ?_⟩, ?_⟩
    · intro c hc
      exact isNumeralChar_of_isDigit (List.mem_takeWhile_imp hc)
    · cases cs with
      | nil => exact absurd rfl hne
      | cons c rest =>
        refine ⟨c, rest, rfl, .inr ?_⟩
        by_contra hd
        exact hne (List.takeWhile_cons_of_neg hd)

theorem skipWhole?_spec (h : skipWhole? cs = some rest) : Skips cs rest ∧ LeadsNumeral cs := by
  unfold skipWhole? at h
  split at h
  · cases h
    exact ⟨(Skips.refl rest).cons (by decide), _, _, rfl, .inr (by decide)⟩
  · exact skipDigits?_spec h

theorem skipFraction?_spec (h : skipFraction? cs = some rest) : Skips cs rest := by
  unfold skipFraction? at h
  split at h
  · exact (skipDigits?_spec h).1.cons (by decide)
  · cases h
    exact .refl _

theorem skipExponent?_spec (h : skipExponent? cs = some rest) : Skips cs rest := by
  unfold skipExponent? at h
  split at h
  · cases h
    exact .refl _
  · next c more =>
    split at h
    · next he =>
      have hc : isNumeralChar c = true := by rcases he with rfl | rfl <;> decide
      refine Skips.cons hc ?_
      split at h
      · exact (skipDigits?_spec h).1.cons (by decide)
      · exact (skipDigits?_spec h).1.cons (by decide)
      · exact (skipDigits?_spec h).1
    · cases h
      exact .refl _

/-- A numeral has only characters of numerals, and begins as a numeral does. -/
theorem isNumeral_spec (h : isNumeral cs = true) :
    LeadsNumeral cs ∧ ∀ c ∈ cs, isNumeralChar c = true := by
  have unsigned : ∀ us, ((skipWhole? us).bind skipFraction?).bind skipExponent? = some [] →
      Skips us [] ∧ LeadsNumeral us := by
    intro us hu
    obtain ⟨fs, hf, he⟩ := Option.bind_eq_some_iff.mp hu
    obtain ⟨ws, hw, hf⟩ := Option.bind_eq_some_iff.mp hf
    obtain ⟨whole, leads⟩ := skipWhole?_spec hw
    exact ⟨(whole.trans (skipFraction?_spec hf)).trans (skipExponent?_spec he), leads⟩
  have all : ∀ us, Skips us [] → ∀ c ∈ us, isNumeralChar c = true := by
    rintro us ⟨skipped, rfl, hs⟩
    simpa using hs
  unfold isNumeral at h
  simp only [decide_eq_true_eq] at h
  split at h
  · next rest =>
    obtain ⟨hs, -⟩ := unsigned rest h
    exact ⟨⟨_, _, rfl, .inl rfl⟩, all _ (hs.cons (by decide))⟩
  · obtain ⟨hs, leads⟩ := unsigned cs h
    exact ⟨leads, all _ hs⟩

/-- The digits of a number have no needless zero in front. -/
theorem head?_chars {n : Nat} (h : n ≠ 0) : (Text.Decimal.chars n).head? ≠ some '0' := by
  have digit : ∀ m < 10, m ≠ 0 → [m.digitChar].head? ≠ some '0' := by decide
  unfold Text.Decimal.chars
  induction n using Nat.strongRecOn with
  | ind n ih =>
    rw [Nat.toDigits_eq_if (by decide)]
    split
    · next hlt => exact digit n hlt h
    · next hge =>
      have hq := ih (n / 10) (by omega) (by omega)
      cases hd : Nat.toDigits 10 (n / 10) with
      | nil => exact absurd hd Nat.toDigits_ne_nil
      | cons c rest => simpa [hd] using hq

theorem isNumeral_chars (n : Nat) : isNumeral (Text.Decimal.chars n) = true := by
  by_cases h0 : n = 0
  · subst h0
    rfl
  have digits : ∀ c ∈ Text.Decimal.chars n, c.isDigit = true := fun c hc =>
    Nat.isDigit_of_mem_toDigits (by decide) (by decide) hc
  have head := head?_chars h0
  cases hc : Text.Decimal.chars n with
  | nil => exact absurd hc (Text.Decimal.chars_ne_nil n)
  | cons c rest =>
    rw [hc] at digits head
    have hd : c.isDigit = true := digits c List.mem_cons_self
    have zero : c ≠ '0' := by simpa using head
    have minus : c ≠ '-' := by
      rintro rfl
      exact absurd hd (by decide)
    have whole : skipWhole? (c :: rest) = some [] := by
      have skipped : skipDigits? (c :: rest) = some [] := by
        unfold skipDigits?
        rw [List.takeWhile_eq_self_iff.mpr digits, List.dropWhile_eq_nil_iff.mpr digits]
        rfl
      unfold skipWhole?
      split
      · next he => exact absurd (List.cons.inj he).1 zero
      · exact skipped
    unfold isNumeral
    simp only [decide_eq_true_eq]
    split
    · next he => exact absurd (List.cons.inj he).1 minus
    · rw [whole]
      rfl

end Numerals

section Words

open Token

variable {rest : List Char} {token : Token} {done : List Char}

/-- A reader at a character that begins nothing longer. -/
theorem readFrom?_between {c : Char} {tokens : List Token}
    (h : fresh? c = some (tokens, .between)) :
    readFrom? .between (c :: rest) = (readFrom? .between rest).map (tokens ++ ·) := by
  simp [readFrom?, step?, h]

theorem endBefore?_bind (c : Char) :
    ((endBefore? (some token) c).bind fun (tokens, mode) =>
        (readFrom? mode rest).map (tokens ++ ·)) =
      (readFrom? .between (c :: rest)).map (token :: ·) := by
  simp only [endBefore?, readFrom?, step?]
  cases fresh? c with
  | none => rfl
  | some next => simp [Function.comp_def]

/-- A word ends where no letter follows. -/
theorem readFrom?_word (h : ofWord? done.reverse = some token) (ends : Closes rest) :
    readFrom? (.word done) rest = (readFrom? .between rest).map (token :: ·) := by
  cases rest with
  | nil => simp [readFrom?, atEnd?, h]
  | cons c rest =>
    have hc : c.isAlpha = false := (ends c rfl).1
    rw [← endBefore?_bind]
    simp [readFrom?, step?, hc, h]

theorem readFrom?_letters {cs : List Char} (h : ∀ c ∈ cs, c.isAlpha = true) :
    readFrom? (.word done) (cs ++ rest) = readFrom? (.word (cs.reverse ++ done)) rest := by
  induction cs generalizing done with
  | nil => rfl
  | cons c cs ih =>
    obtain ⟨hc, hcs⟩ := List.forall_mem_cons.mp h
    simp [readFrom?, step?, hc, ih hcs]

theorem readFrom?_keyword {c : Char} {more : List Char} (begins : fresh? c = some ([], .word [c]))
    (letters : more.all Char.isAlpha = true) (h : ofWord? (c :: more) = some token)
    (ends : Closes rest) :
    readFrom? .between (c :: more ++ rest) = (readFrom? .between rest).map (token :: ·) := by
  have hof : ofWord? (more.reverse ++ [c]).reverse = some token := by simpa using h
  rw [← readFrom?_word hof ends, ← readFrom?_letters (List.all_eq_true.mp letters)]
  simp [readFrom?, step?, begins]

/-- A numeral ends where no character of a numeral follows. -/
theorem readFrom?_number (h : ofNumeral? done.reverse = some token) (ends : Closes rest) :
    readFrom? (.number done) rest = (readFrom? .between rest).map (token :: ·) := by
  cases rest with
  | nil => simp [readFrom?, atEnd?, h]
  | cons c rest =>
    have hc : isNumeralChar c = false := (ends c rfl).2
    rw [← endBefore?_bind]
    simp [readFrom?, step?, hc, h]

theorem readFrom?_numeralChars {cs : List Char} (h : ∀ c ∈ cs, isNumeralChar c = true) :
    readFrom? (.number done) (cs ++ rest) = readFrom? (.number (cs.reverse ++ done)) rest := by
  induction cs generalizing done with
  | nil => rfl
  | cons c cs ih =>
    obtain ⟨hc, hcs⟩ := List.forall_mem_cons.mp h
    simp [readFrom?, step?, hc, ih hcs]

theorem fresh?_leads {c : Char} (h : c = '-' ∨ c.isDigit = true) :
    fresh? c = some ([], .number [c]) := by
  have numeral : isNumeralChar c = true := by
    rcases h with rfl | h
    · rfl
    · exact isNumeralChar_of_isDigit h
  have alpha : c.isAlpha = false := by
    rcases h with rfl | h
    · rfl
    · unfold Char.isDigit at h
      unfold Char.isAlpha Char.isUpper Char.isLower
      simp only [ge_iff_le, Bool.and_eq_true, decide_eq_true_eq, Bool.or_eq_false_iff,
        Bool.and_eq_false_iff, decide_eq_false_iff_not, UInt32.le_iff_toNat_le, Char.reduceVal,
        UInt32.reduceToNat] at h ⊢
      omega
  unfold fresh?
  rw [if_neg]
  · split
    case h_8 => simp [alpha, numeral]
    all_goals simp at h
  · intro space
    simp only [isSpace, Bool.or_eq_true, decide_eq_true_eq] at space
    rcases space with ((rfl | rfl) | rfl) | rfl <;> simp at h

theorem readFrom?_numeral {cs : List Char} (h : isNumeral cs = true) (ends : Closes rest) :
    readFrom? .between (cs ++ rest) = (readFrom? .between rest).map (.number cs :: ·) := by
  obtain ⟨⟨c, more, rfl, leads⟩, all⟩ := isNumeral_spec h
  have hmore : ∀ c ∈ more, isNumeralChar c = true := fun d hd => all d (List.mem_cons_of_mem _ hd)
  have hof : ofNumeral? (more.reverse ++ [c]).reverse = some (.number (c :: more)) := by
    simp [ofNumeral?, h]
  rw [← readFrom?_number hof ends, ← readFrom?_numeralChars hmore]
  simp [readFrom?, step?, fresh?_leads leads]

end Words

end Piezo.Json
