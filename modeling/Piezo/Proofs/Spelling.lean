import Piezo.Proofs.Lexemes
import Piezo.Tune

/-!
Spelling: the fields and the notes of a tune as they may be written, and read back.
-/

namespace Piezo.Tune

open Text Text.Utf8

/-- A character that ends no part of a tune text: no comma, no colon and no NUL. -/
def isPlain (c : Char) : Bool := c.toNat ≠ 44 && c.toNat ≠ 58 && c.toNat ≠ 0

theorem isPlain_of_white {c : Char} (h : isWhite c = true) : isPlain c = true := by
  simp only [isWhite, Bool.or_eq_true, decide_eq_true_eq] at h
  rcases h with (((rfl | rfl) | rfl) | rfl) | rfl <;> rfl

/-- A plain character that is no white space. -/
def isVisible (c : Char) : Bool := isPlain c && !isWhite c

theorem isVisible_iff {c : Char} : isVisible c = true ↔ isPlain c = true ∧ isWhite c = false := by
  simp [isVisible]

theorem isVisible_of_toNat {c : Char} (low : 32 < c.toNat) (no_comma : c.toNat ≠ 44)
    (no_colon : c.toNat ≠ 58) : isVisible c = true := by
  refine isVisible_iff.mpr ⟨?_, ?_⟩
  · simp only [isPlain, Bool.and_eq_true, decide_eq_true_eq]
    omega
  · simp only [isWhite, Bool.or_eq_false_iff, decide_eq_false_iff_not, ← Char.toNat_inj,
      Char.reduceToNat]
    omega

theorem isPlain_of_mem_chars {n : Nat} {c : Char} (hc : c ∈ Decimal.chars n) :
    isPlain c = true := by
  have h := isDigit_of_mem_chars hc
  simp only [isPlain, Bool.and_eq_true, decide_eq_true_eq]
  omega

theorem isGap_of_isDigit {b : UInt8} (h : isDigit b = true) : isGap b = false := by
  simp only [isDigit, isGap, Bool.and_eq_true, decide_eq_true_eq, UInt8.le_iff_toNat_le,
    Bool.or_eq_false_iff, decide_eq_false_iff_not, ← UInt8.toNat_inj, UInt8.reduceToNat] at h ⊢
  omega

/-- A number does not begin with a gap. -/
theorem isGap_head_chars (n : Nat) (rest : List UInt8) :
    ∀ b ∈ (bytes (Decimal.chars n) ++ rest).head?, isGap b = false := by
  intro b hb
  rw [List.head?_append_of_ne_nil _ (bytes_chars_ne_nil n)] at hb
  exact isGap_of_isDigit (isDigit_of_mem_bytes_chars (List.mem_of_mem_head? hb))

/-- Where a byte is not to be found among the characters, it is not to be found among the bytes. -/
theorem not_mem_bytes_of_plain {cs : List Char} (h : ∀ c ∈ cs, isPlain c = true) :
    comma ∉ bytes cs ∧ colon ∉ bytes cs ∧ 0 ∉ bytes cs := by
  refine ⟨fun hm => ?_, fun hm => ?_, fun hm => ?_⟩
  · have := h ',' (mem_of_mem_bytes (by decide) rfl hm)
    cases this
  · have := h ':' (mem_of_mem_bytes (by decide) rfl hm)
    cases this
  · have := h '\x00' (mem_of_mem_bytes (by decide) rfl hm)
    cases this

theorem toNat_toLower (c : Char) :
    c.toLower.toNat = if 65 ≤ c.toNat ∧ c.toNat ≤ 90 then c.toNat + 32 else c.toNat := by
  have hcase : (c.val ≥ 'A'.val ∧ c.val ≤ 'Z'.val) ↔ 65 ≤ c.toNat ∧ c.toNat ≤ 90 := by
    simp only [ge_iff_le, UInt32.le_iff_toNat_le]
    rfl
  unfold Char.toLower
  split
  · next h =>
    rw [if_pos (hcase.mp h)]
    have hn := hcase.mp h
    have hv : c.val.toNat = c.toNat := rfl
    change (c.val + 32).toNat = c.toNat + 32
    simp only [UInt32.toNat_add, hv, UInt32.reduceToNat]
    omega
  · next h => rw [if_neg fun hn => h (hcase.mpr hn)]

theorem toNat_of_isAlpha {c : Char} (h : c.isAlpha = true) :
    65 ≤ c.toNat ∧ c.toNat ≤ 90 ∨ 97 ≤ c.toNat ∧ c.toNat ≤ 122 := by
  rcases Bool.or_eq_true_iff.mp h with h | h
  · exact .inl (of_decide_eq_true h)
  · obtain ⟨hlow, hhigh⟩ := Bool.and_eq_true_iff.mp h
    exact .inr ⟨of_decide_eq_true hlow, of_decide_eq_true hhigh⟩

/-- Bytes and characters are put in lower case alike. -/
theorem lower_ofNat {c : Char} (h : c.toNat < 128) :
    lower (UInt8.ofNat c.toNat) = UInt8.ofNat c.toLower.toNat := by
  have hn : (UInt8.ofNat c.toNat).toNat = c.toNat := toNat_ofNat (by omega)
  have hupper : isUpper (UInt8.ofNat c.toNat) = true ↔ 65 ≤ c.toNat ∧ c.toNat ≤ 90 := by
    simp [isUpper, UInt8.le_iff_toNat_le, hn]
  have hlow := toNat_toLower c
  rw [← UInt8.toNat_inj, toNat_ofNat (show c.toLower.toNat < 256 by split at hlow <;> omega), hlow]
  unfold lower
  split
  · next hu =>
    have hu := hupper.mp hu
    have h32 : (32 : UInt8).toNat = 32 := rfl
    rw [if_pos hu, UInt8.toNat_add, hn, h32]
    omega
  · next hu => rw [if_neg fun h => hu (hupper.mpr h), hn]

/-- The byte of an ASCII letter is a letter, of the same case. -/
theorem letter_byte {c : Char} (h : c.isAlpha = true) :
    String.utf8EncodeChar c = [UInt8.ofNat c.toNat] ∧ isLetter (UInt8.ofNat c.toNat) = true ∧
      isDigit (UInt8.ofNat c.toNat) = false ∧ isGap (UInt8.ofNat c.toNat) = false ∧
      lower (UInt8.ofNat c.toNat) = UInt8.ofNat c.toLower.toNat := by
  have hc := toNat_of_isAlpha h
  have hn : (UInt8.ofNat c.toNat).toNat = c.toNat := toNat_ofNat (by omega)
  refine ⟨encodeChar_ascii (by omega), ?_, ?_, ?_, lower_ofNat (by omega)⟩
  · simp [isLetter, isUpper, UInt8.le_iff_toNat_le, hn]
    omega
  · simp [isDigit, UInt8.le_iff_toNat_le, hn]
    omega
  · simp [isGap, ← UInt8.toNat_inj, hn]
    omega

/-- The gaps around the parts of a field. -/
structure Margins where
  beforeKey : Gap := {}
  beforeSign : Gap := {}
  beforeValue : Gap := {}
  afterValue : Gap := {}

namespace Margins

/-- A field within its margins. -/
def field (m : Margins) (key : Char) (value : UInt32) : List Char :=
  m.beforeKey.chars ++ key :: (m.beforeSign.chars ++ '=' :: (m.beforeValue.chars ++
    (Decimal.chars value.toNat ++ m.afterValue.chars)))

variable (m : Margins) {key : Char} (value : UInt32)

theorem field_plain (hk : isPlain key = true) : ∀ c ∈ m.field key value, isPlain c = true := by
  have gap : ∀ g : Gap, ∀ c ∈ g.chars, isPlain c = true := by
    intro g c hc
    obtain rfl | rfl := g.of_mem hc <;> rfl
  simp only [field, List.mem_append, List.mem_cons]
  rintro c (hc | rfl | hc | rfl | hc | hc | hc)
  · exact gap _ c hc
  · exact hk
  · exact gap _ c hc
  · rfl
  · exact gap _ c hc
  · exact isPlain_of_mem_chars hc
  · exact gap _ c hc

/-- A field is read back, whatever its margins. -/
theorem read?_field (hk : key.isAlpha = true) :
    Field.read? (bytes (m.field key value)) = some ⟨UInt8.ofNat key.toLower.toNat, value⟩ := by
  obtain ⟨hbyte, hletter, -, hgap, hlower⟩ := letter_byte hk
  have hsign : String.utf8EncodeChar '=' = [equals] := rfl
  have hafter : ∀ b ∈ (bytes m.afterValue.chars).head?, isDigit b = false := by
    intro b hb
    have hg := isGap_of_mem m.afterValue (List.mem_of_mem_head? hb)
    cases hd : isDigit b with
    | false => rfl
    | true => rw [isGap_of_isDigit hd] at hg; cases hg
  unfold Field.read? field
  simp only [bytes_append, bytes_cons, hbyte, hsign, List.singleton_append]
  rw [dropWhile_gap m.beforeKey (by simpa using hgap)]
  dsimp only
  rw [dropWhile_gap m.beforeSign (by rintro b ⟨⟩; rfl)]
  dsimp only
  rw [if_pos ⟨hletter, rfl⟩, dropWhile_gap m.beforeValue (isGap_head_chars _ _),
    number?_chars value hafter, hlower]
  rfl

end Margins

/-- Where the dot of a note is written. -/
inductive Dot where
  | beforeOctave
  | afterOctave
deriving DecidableEq

/-- A note as it may be written between commas. -/
structure Entry where
  divisor : Option UInt32 := none
  letter : Char
  sharp : Bool := false
  octave : Option (Fin 10) := none
  dot : Option Dot := none
  /-- White space before the note. -/
  before : Space := {}
  /-- White space after the note. -/
  after : Space := {}
  isAlpha : letter.isAlpha = true := by rfl
  positive : divisor ≠ some 0 := by decide

namespace Entry

/-- What follows the letter. -/
def suffix (sharp : Bool) (octave : Option (Fin 10)) (dot : Option Dot) : List Char :=
  (if sharp then ['#'] else []) ++ (if dot = some .beforeOctave then ['.'] else []) ++
    (octave.map fun k : Fin 10 => Nat.digitChar k.val).toList ++
    (if dot = some .afterOctave then ['.'] else [])

def core (e : Entry) : List Char :=
  (e.divisor.elim [] fun d => Decimal.chars d.toNat) ++ e.letter :: suffix e.sharp e.octave e.dot

/-- The characters between the commas. -/
def chars (e : Entry) : List Char := e.before.chars ++ e.core ++ e.after.chars

/-- The letter in lower case. -/
def pitch (e : Entry) : UInt8 := UInt8.ofNat e.letter.toLower.toNat

def octave? (e : Entry) : Option UInt8 := e.octave.map fun k => UInt8.ofNat k.val

def token (e : Entry) : Token := ⟨e.divisor, e.pitch, e.sharp, e.octave?, e.dot.isSome⟩

/-- The note that is meant under a header. -/
def note (range : FrequencyRange) (h : Header) (e : Entry) : Note where
  frequency := Pitch.frequency range e.pitch e.sharp (e.octave?.getD h.octave)
  duration := Pitch.length (60000 / h.tempo) (e.divisor.getD h.divisor) e.dot.isSome

/-- The parts after the letter are read one by one, and none takes what belongs to another. -/
theorem read_suffix (sharp : Bool) (octave : Option (Fin 10)) (dot : Option Dot) :
    (let (sharp, rest) := accept Tune.sharp (bytes (suffix sharp octave dot))
      let (before, rest) := accept Tune.dot rest
      let (octave, rest) := digit? rest
      let (after, _) := accept Tune.dot rest
      (sharp, octave, before || after)) =
    (sharp, octave.map fun k => UInt8.ofNat k.val, dot.isSome) := by
  cases octave with
  | none => rcases dot with _ | _ | _ <;> cases sharp <;> rfl
  | some k => rcases dot with _ | _ | _ <;> cases sharp <;> revert k <;> decide

theorem suffix_visible (sharp : Bool) (octave : Option (Fin 10)) (dot : Option Dot) :
    ∀ c ∈ suffix sharp octave dot, isVisible c = true := by
  have mark : ∀ (present : Prop) [Decidable present] (m c : Char), isVisible m = true →
      c ∈ (if present then [m] else []) → isVisible c = true := by
    intro present _ m c hm hc
    split at hc
    · cases List.mem_singleton.mp hc
      exact hm
    · cases hc
  have digit : ∀ k : Fin 10, isVisible (Nat.digitChar k) = true := by decide
  intro c hc
  simp only [suffix, List.mem_append] at hc
  rcases hc with ((hc | hc) | hc) | hc
  · exact mark _ '#' c rfl hc
  · exact mark _ '.' c rfl hc
  · obtain ⟨k, -, rfl⟩ := Option.map_eq_some_iff.mp (Option.mem_toList.mp hc)
    exact digit k
  · exact mark _ '.' c rfl hc

/-- A note is written without white space and without the signs that end the parts of a tune. -/
theorem core_visible (e : Entry) : ∀ c ∈ e.core, isVisible c = true := by
  intro c hc
  rcases List.mem_append.mp hc with hc | hc
  · cases hd : e.divisor with
    | none => simp [hd] at hc
    | some d =>
      rw [hd] at hc
      have h := isDigit_of_mem_chars hc
      exact isVisible_of_toNat (by omega) (by omega) (by omega)
  · rcases List.mem_cons.mp hc with rfl | hc
    · have h := toNat_of_isAlpha e.isAlpha
      exact isVisible_of_toNat (by omega) (by omega) (by omega)
    · exact suffix_visible _ _ _ c hc

/-- A note is read back from its characters. -/
theorem read?_core (e : Entry) : Token.read? (bytes e.core) = some e.token := by
  obtain ⟨hbyte, hletter, hdigit, hgap, hlower⟩ := letter_byte e.isAlpha
  have hnumber : number? ((bytes e.core).dropWhile isGap) =
      (e.divisor, UInt8.ofNat e.letter.toNat :: bytes (suffix e.sharp e.octave e.dot)) := by
    unfold core
    cases e.divisor with
    | none =>
      have hhead : ∀ (p : UInt8 → Bool), p (UInt8.ofNat e.letter.toNat) = false →
          ∀ b ∈ (UInt8.ofNat e.letter.toNat :: bytes (suffix e.sharp e.octave e.dot)).head?,
            p b = false := by
        rintro p hp b ⟨⟩
        exact hp
      simp only [Option.elim_none, List.nil_append, bytes_cons, hbyte, List.singleton_append]
      rw [(dropWhile_of_head (hhead _ hgap)).1, number?_of_head (hhead _ hdigit)]
    | some d =>
      simp only [Option.elim_some, bytes_append, bytes_cons, hbyte, List.singleton_append]
      rw [(dropWhile_of_head (isGap_head_chars _ _)).1, number?_chars]
      rintro b ⟨⟩
      exact hdigit
  have hsuffix := read_suffix e.sharp e.octave e.dot
  unfold Token.read?
  rw [hnumber]
  dsimp only
  rw [if_pos hletter, hlower]
  simp only [Prod.mk.injEq] at hsuffix
  obtain ⟨hs, ho, hd⟩ := hsuffix
  simp only [hs, ho, hd]
  rfl

theorem chars_plain (e : Entry) : ∀ c ∈ e.chars, isPlain c = true := by
  simp only [chars, List.mem_append]
  rintro c ((hc | hc) | hc)
  · exact isPlain_of_white (e.before.isWhite_of_mem c hc)
  · exact (isVisible_iff.mp (e.core_visible c hc)).1
  · exact isPlain_of_white (e.after.isWhite_of_mem c hc)

/-- Around a note only white space is trimmed. -/
theorem trimBy_chars (e : Entry) : trimBy isSpace (bytes e.chars) = bytes e.core := by
  rw [trimBy_bytes, chars, trimBy_pad e.before.isWhite_of_mem
    (fun c hc => (isVisible_iff.mp (e.core_visible c hc)).2) e.after.isWhite_of_mem]

theorem bytes_core_ne_nil (e : Entry) : bytes e.core ≠ [] := by
  intro h
  have hread := e.read?_core
  rw [h] at hread
  cases hread

theorem note_token (range : FrequencyRange) {h : Header} (tempo : h.tempo ≠ 0) (e : Entry) :
    e.token.note range h = e.note range h := by
  have hdivisor : e.divisor.filter (· ≠ 0) = e.divisor := by
    cases hd : e.divisor with
    | none => rfl
    | some d =>
      have hd0 : d ≠ 0 := by
        rintro rfl
        exact e.positive hd
      simp [Option.filter, hd0]
  have hquarter : h.quarter = 60000 / h.tempo := by
    have hmax : max h.tempo 1 = h.tempo := by
      rw [UInt32.max_def]
      split
      · next hle =>
        rw [← UInt32.toNat_inj]
        have := UInt32.pos_iff_ne_zero.mpr tempo
        rw [UInt32.lt_iff_toNat_lt] at this
        rw [UInt32.le_iff_toNat_le] at hle
        simp only [UInt32.reduceToNat] at *
        omega
      · rfl
    rw [Header.quarter, Pitch.quarter, hmax]
  simp only [Token.note, note, token, hdivisor, hquarter]

end Entry

end Piezo.Tune
