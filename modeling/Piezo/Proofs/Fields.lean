import Mathlib.Data.List.Induction
import Mathlib.Data.List.TakeWhile
import Mathlib.Data.Nat.Digits.Defs
import Piezo.Proofs.Spelling

/-!
Fields: what a header comes to, whatever bytes it is made of.

Of each key the last field counts whose number is not zero, and nothing else in the header does. A
field is told from what stands between two commas by its beginning; what follows its digits does not
matter.
-/

namespace Piezo

open Text

namespace Tune

/-- What a header can set. -/
inductive Key where
  | divisor
  | octave
  | tempo
deriving DecidableEq, Repr

/-- The number that digits spell in base ten. -/
def decimal (digits : List UInt8) : Nat :=
  Nat.ofDigits 10 (digits.reverse.map fun d => d.toNat - 48)

theorem decimal_eq_foldl (digits : List UInt8) :
    decimal digits = digits.foldl (fun n d => n * 10 + (d.toNat - 48)) 0 := by
  rw [decimal, Nat.ofDigits_eq_foldr, List.foldr_map, List.foldr_reverse]
  congr 1
  funext n d
  simp only [Nat.cast_id]
  omega

/-- However long a numeral is, it means what it spells or the greatest number, if that is less. -/
theorem toNat_number (digits : List UInt8) :
    (number digits).toNat = min (decimal digits) greatestNumber := by
  have capped := foldl_capped (fun d : UInt8 => d.toNat - 48) greatestNumber digits 0
  rw [Nat.zero_min] at capped
  rw [number, capped, decimal_eq_foldl, UInt32.toNat_ofNat_of_lt']
  exact Nat.lt_of_le_of_lt (Nat.min_le_right ..) (by decide)

namespace Key

/-- The letter of a key in lower case. -/
def small : Key → UInt8
  | divisor => 100
  | octave => 111
  | tempo => 98

/-- The letter of a key in upper case. -/
def capital : Key → UInt8
  | divisor => 68
  | octave => 79
  | tempo => 66

/-- What a key is if no field sets it. -/
def default : Key → Nat
  | divisor => 4
  | octave => 6
  | tempo => 120

/-- The greatest value of a key. -/
def most : Key → Nat
  | octave => 255
  | _ => greatestNumber

/-- What a header has for a key. -/
def value (h : Header) : Key → Nat
  | divisor => h.divisor.toNat
  | octave => h.octave.toNat
  | tempo => h.tempo.toNat

theorem isLetter_of_cased {k : Key} {letter : UInt8} (h : letter = k.small ∨ letter = k.capital) :
    isLetter letter = true ∧ isGap letter = false ∧ lower letter = k.small := by
  rcases h with rfl | rfl <;> cases k <;> decide

theorem cased_of_lower {k : Key} {letter : UInt8} (h : lower letter = k.small) :
    letter = k.small ∨ letter = k.capital := by
  unfold lower at h
  split at h
  · next upper =>
    right
    have bounds : 65 ≤ letter.toNat ∧ letter.toNat ≤ 90 := by
      simpa [isUpper, UInt8.le_iff_toNat_le] using upper
    rw [← UInt8.toNat_inj, UInt8.toNat_add] at h
    rw [← UInt8.toNat_inj]
    cases k <;> simp only [small, capital, UInt8.reduceToNat] at h ⊢ <;> omega
  · exact .inl h

theorem eq_of_value_eq {g h : Header} (same : ∀ k : Key, k.value g = k.value h) : g = h := by
  obtain ⟨gd, go, gt⟩ := g
  obtain ⟨hd, ho, ht⟩ := h
  have divisors : gd = hd := UInt32.toNat_inj.mp (same .divisor)
  have octaves : go = ho := UInt8.toNat_inj.mp (same .octave)
  have tempos : gt = ht := UInt32.toNat_inj.mp (same .tempo)
  rw [divisors, octaves, tempos]

/-- One field changes its own key, unless its value is zero, and no other. -/
theorem value_set (k : Key) (h : Header) (f : Field) :
    k.value (h.set f) =
      if f.value ≠ 0 ∧ f.key = k.small then min f.value.toNat k.most else k.value h := by
  -- A number is capped when it is read, so for two of the keys the cap does nothing more.
  have whole : min f.value.toNat greatestNumber = f.value.toNat :=
    Nat.min_eq_left (Nat.le_pred_of_lt f.value.toNat_lt)
  have octave : (UInt8.ofNat (min f.value.toNat 255)).toNat = min f.value.toNat 255 :=
    UInt8.toNat_ofNat_of_lt' (Nat.lt_of_le_of_lt (Nat.min_le_right ..) (by decide))
  unfold Header.set
  by_cases zero : f.value = 0
  · simp [zero]
  · simp only [zero, if_false, ne_eq, not_false_eq_true, true_and]
    cases k <;> split_ifs <;> simp_all [value, small, most]

end Key

theorem number?_eq_some {bytes : List UInt8} {v : UInt32} (h : (number? bytes).1 = some v) :
    bytes.takeWhile isDigit ≠ [] ∧ number (bytes.takeWhile isDigit) = v := by
  rw [fst_number?] at h
  split at h
  · cases h
  · next nonempty => exact ⟨nonempty, Option.some.inj h⟩

/-- A field of a key as it may be written: gaps are spaces and tabs, the letter is in either case,
and after the digits anything may come that is no digit. -/
structure Assignment (k : Key) where
  beforeKey : List UInt8 := []
  letter : UInt8
  beforeSign : List UInt8 := []
  beforeValue : List UInt8 := []
  digits : List UInt8
  rest : List UInt8 := []
  gaps : ∀ b ∈ beforeKey ++ beforeSign ++ beforeValue, isGap b = true
  cased : letter = k.small ∨ letter = k.capital
  numeric : ∀ b ∈ digits, isDigit b = true
  nonempty : digits ≠ []
  ended : ∀ b ∈ rest.head?, isDigit b = false

namespace Assignment

variable {k : Key}

def bytes (a : Assignment k) : List UInt8 :=
  a.beforeKey ++ a.letter :: (a.beforeSign ++ equals :: (a.beforeValue ++ (a.digits ++ a.rest)))

def number (a : Assignment k) : Nat := min (decimal a.digits) greatestNumber

/-- A field is read from what is written of it. -/
theorem read?_bytes (a : Assignment k) :
    Field.read? a.bytes = some ⟨k.small, Tune.number a.digits⟩ := by
  obtain ⟨isLetter, noGap, lowered⟩ := Key.isLetter_of_cased a.cased
  have gaps : ∀ b, b ∈ a.beforeKey ∨ b ∈ a.beforeSign ∨ b ∈ a.beforeValue → isGap b = true := by
    intro b hb
    refine a.gaps b ?_
    simpa only [List.mem_append, or_assoc] using hb
  have atDigits : ∀ b ∈ (a.digits ++ a.rest).head?, isGap b = false := by
    intro b hb
    rw [List.head?_append_of_ne_nil _ a.nonempty] at hb
    exact isGap_of_isDigit (a.numeric b (List.mem_of_mem_head? hb))
  unfold Field.read? bytes
  rw [List.dropWhile_append_of_pos fun b hb => gaps b (.inl hb),
    List.dropWhile_cons_of_neg (by simp [noGap])]
  dsimp only
  rw [List.dropWhile_append_of_pos fun b hb => gaps b (.inr (.inl hb)),
    List.dropWhile_cons_of_neg (by decide)]
  dsimp only
  rw [if_pos ⟨isLetter, rfl⟩, List.dropWhile_append_of_pos fun b hb => gaps b (.inr (.inr hb)),
    (dropWhile_of_head atDigits).1, number?_append a.numeric a.nonempty a.ended, lowered]
  rfl

/-- What is read as a field of a key has been written as one. -/
theorem exists_of_read? {piece : List UInt8} {f : Field} (h : Field.read? piece = some f)
    (hk : f.key = k.small) :
    ∃ a : Assignment k, a.bytes = piece ∧ Tune.number a.digits = f.value := by
  unfold Field.read? at h
  split at h
  · cases h
  next letter afterLetter hletter =>
  split at h
  · cases h
  next sign afterSign hsign =>
  split at h
  case isFalse => cases h
  case isTrue accepted =>
    obtain ⟨value, hvalue, rfl⟩ := Option.map_eq_some_iff.mp h
    obtain ⟨nonempty, numeral⟩ := number?_eq_some hvalue
    have before := List.takeWhile_append_dropWhile (p := isGap) (l := piece)
    have middle := List.takeWhile_append_dropWhile (p := isGap) (l := afterLetter)
    have after := List.takeWhile_append_dropWhile (p := isGap) (l := afterSign)
    have numbered := List.takeWhile_append_dropWhile (p := isDigit)
      (l := afterSign.dropWhile isGap)
    rw [hletter] at before
    rw [hsign, accepted.2] at middle
    refine ⟨{ beforeKey := piece.takeWhile isGap
              letter := letter
              beforeSign := afterLetter.takeWhile isGap
              beforeValue := afterSign.takeWhile isGap
              digits := (afterSign.dropWhile isGap).takeWhile isDigit
              rest := (afterSign.dropWhile isGap).dropWhile isDigit
              gaps := ?_
              cased := Key.cased_of_lower hk
              numeric := fun b hb => List.mem_takeWhile_imp hb
              nonempty := nonempty
              ended := ?_ }, ?_, numeral⟩
    · intro b hb
      rcases List.mem_append.mp hb with hb | hb
      · rcases List.mem_append.mp hb with hb | hb <;> exact List.mem_takeWhile_imp hb
      · exact List.mem_takeWhile_imp hb
    · intro b hb
      exact not_of_mem_head?_dropWhile hb
    · simp only [bytes, numbered, after, middle, before]

end Assignment

namespace Key

/-- A piece of a header assigns a number to a key if it is written as a field of that key. -/
def Assigns (k : Key) (n : Nat) (piece : List UInt8) : Prop :=
  ∃ a : Assignment k, a.bytes = piece ∧ a.number = n

/-- A piece counts for a key if it assigns a number to it that is not zero. -/
def Counts (k : Key) (piece : List UInt8) : Prop := ∃ n, n ≠ 0 ∧ k.Assigns n piece

variable {k : Key} {n : Nat} {piece : List UInt8}

theorem assigns_iff :
    k.Assigns n piece ↔
      ∃ f, Field.read? piece = some f ∧ f.key = k.small ∧ f.value.toNat = n := by
  constructor
  · rintro ⟨a, rfl, rfl⟩
    exact ⟨_, a.read?_bytes, rfl, toNat_number a.digits⟩
  · rintro ⟨f, hf, hk, rfl⟩
    obtain ⟨a, rfl, numeral⟩ := Assignment.exists_of_read? hf hk
    exact ⟨a, rfl, by rw [← numeral, toNat_number]; rfl⟩

theorem counts_iff :
    k.Counts piece ↔ ∃ f, Field.read? piece = some f ∧ f.value ≠ 0 ∧ f.key = k.small := by
  constructor
  · rintro ⟨n, positive, assigns⟩
    obtain ⟨f, hf, hk, rfl⟩ := assigns_iff.mp assigns
    exact ⟨f, hf, fun zero => positive (by rw [zero]; rfl), hk⟩
  · rintro ⟨f, hf, positive, hk⟩
    refine ⟨f.value.toNat, fun zero => positive ?_, assigns_iff.mpr ⟨f, hf, hk, rfl⟩⟩
    exact UInt32.toNat_inj.mp zero

instance (k : Key) (piece : List UInt8) : Decidable (k.Counts piece) :=
  decidable_of_iff ((Field.read? piece).any fun f => f.value ≠ 0 ∧ f.key = k.small) (by
    rw [counts_iff, Option.any_eq_true]
    simp)

end Key

/-- The header that the pieces between commas make. -/
def headerOf (pieces : List (List UInt8)) : Header :=
  (pieces.filterMap Field.read?).foldl Header.set {}

namespace Key

variable {k : Key} {n : Nat} {piece : List UInt8} (pieces : List (List UInt8))

/-- One piece more is one field more, or none. -/
theorem headerOf_concat (piece : List UInt8) :
    headerOf (pieces ++ [piece]) =
      (Field.read? piece).elim (headerOf pieces) (headerOf pieces).set := by
  unfold headerOf
  rw [List.filterMap_append, List.foldl_append]
  cases hf : Field.read? piece <;> simp [hf]

/-- A piece that counts for a key sets it, whatever stands before. -/
theorem value_concat_of_assigns (positive : n ≠ 0) (h : k.Assigns n piece) :
    k.value (headerOf (pieces ++ [piece])) = min n k.most := by
  obtain ⟨f, hf, hk, rfl⟩ := assigns_iff.mp h
  have nonzero : f.value ≠ 0 := fun zero => positive (by rw [zero]; rfl)
  rw [headerOf_concat, hf, Option.elim_some, value_set, if_pos ⟨nonzero, hk⟩]

/-- A piece that does not count for a key leaves it as it is. -/
theorem value_concat_of_not_counts (h : ¬ k.Counts piece) :
    k.value (headerOf (pieces ++ [piece])) = k.value (headerOf pieces) := by
  rw [headerOf_concat]
  cases hf : Field.read? piece with
  | none => rfl
  | some f =>
    have other : ¬ (f.value ≠ 0 ∧ f.key = k.small) := fun hc => h (counts_iff.mpr ⟨f, hf, hc⟩)
    rw [Option.elim_some, value_set, if_neg other]

/-- What is left for a key if its last piece that counts is looked for: the number which that piece
assigns, as far as the key goes, or what the key is by default if no piece counts. -/
def Resolves (k : Key) (pieces : List (List UInt8)) (value : Nat) : Prop :=
  (∃ before piece after n, pieces = before ++ piece :: after ∧ k.Assigns n piece ∧ n ≠ 0 ∧
      (∀ later ∈ after, ¬ k.Counts later) ∧ value = min n k.most) ∨
    (∀ piece ∈ pieces, ¬ k.Counts piece) ∧ value = k.default

/-- Pieces that do not count for a key may follow. -/
theorem Resolves.concat {value : Nat} (h : k.Resolves pieces value) (hp : ¬ k.Counts piece) :
    k.Resolves (pieces ++ [piece]) value := by
  obtain ⟨before, last, after, n, rfl, assigns, positive, later, hv⟩ | ⟨none, hv⟩ := h
  · refine .inl ⟨before, last, after ++ [piece], n, by simp, assigns, positive, ?_, hv⟩
    intro other ho
    rcases List.mem_append.mp ho with ho | ho
    · exact later other ho
    · rwa [List.mem_singleton.mp ho]
  · refine .inr ⟨?_, hv⟩
    intro other ho
    rcases List.mem_append.mp ho with ho | ho
    · exact none other ho
    · rwa [List.mem_singleton.mp ho]

theorem headerOf_resolves (k : Key) (pieces : List (List UInt8)) :
    k.Resolves pieces (k.value (headerOf pieces)) := by
  -- From the end, where the piece is that has the last word.
  induction pieces using List.reverseRecOn with
  | nil => exact .inr ⟨by simp, by cases k <;> rfl⟩
  | append_singleton pieces piece ih =>
    by_cases hp : k.Counts piece
    · obtain ⟨n, positive, assigns⟩ := hp
      rw [value_concat_of_assigns pieces positive assigns]
      exact .inl ⟨pieces, piece, [], n, rfl, assigns, positive, by simp, rfl⟩
    · rw [value_concat_of_not_counts pieces hp]
      exact ih.concat pieces hp

/-- Of all pieces only those matter to a key that count for it. -/
theorem value_filter (k : Key) (pieces : List (List UInt8)) :
    k.value (headerOf (pieces.filter (k.Counts ·))) = k.value (headerOf pieces) := by
  induction pieces using List.reverseRecOn with
  | nil => rfl
  | append_singleton pieces piece ih =>
    rw [List.filter_append]
    by_cases hp : k.Counts piece
    · have kept : [piece].filter (k.Counts ·) = [piece] := by simp [hp]
      obtain ⟨n, positive, assigns⟩ := hp
      rw [kept, value_concat_of_assigns _ positive assigns,
        value_concat_of_assigns _ positive assigns]
    · have dropped : [piece].filter (k.Counts ·) = [] := by simp [hp]
      rw [dropped, List.append_nil, ih, value_concat_of_not_counts _ hp]

/-- No other value is left than the one that the header has. -/
theorem Resolves.eq_value {value : Nat} (h : k.Resolves pieces value) :
    value = k.value (headerOf pieces) := by
  rw [← k.value_filter pieces]
  obtain ⟨before, last, after, n, rfl, assigns, positive, later, rfl⟩ | ⟨none, rfl⟩ := h
  · have dropped : after.filter (k.Counts ·) = [] :=
      List.filter_eq_nil_iff.mpr fun piece hp => by simpa using later piece hp
    have counts : k.Counts last := ⟨n, positive, assigns⟩
    have kept : (before ++ last :: after).filter (k.Counts ·) =
        before.filter (k.Counts ·) ++ [last] := by
      rw [List.filter_append, List.filter_cons_of_pos (by simpa using counts), dropped]
    rw [kept, value_concat_of_assigns _ positive assigns]
  · have dropped : pieces.filter (k.Counts ·) = [] :=
      List.filter_eq_nil_iff.mpr fun piece hp => by simpa using none piece hp
    rw [dropped]
    cases k <;> rfl

/-- What is left for a key is one value, the one that the header has. -/
theorem resolves_iff {value : Nat} :
    k.Resolves pieces value ↔ value = k.value (headerOf pieces) := by
  constructor
  · exact Resolves.eq_value pieces
  · rintro rfl
    exact headerOf_resolves k pieces

theorem Resolves.ne_zero {value : Nat} (h : k.Resolves pieces value) : value ≠ 0 := by
  obtain ⟨_, _, _, n, _, _, positive, _, rfl⟩ | ⟨_, rfl⟩ := h
  · have most : 0 < k.most := by cases k <;> decide
    omega
  · cases k <;> decide

end Key

/-- Two headers are the same if for each key they have the same pieces that count, in one order. -/
theorem headerOf_eq_of_filter_eq {pieces others : List (List UInt8)}
    (same : ∀ k : Key, others.filter (k.Counts ·) = pieces.filter (k.Counts ·)) :
    headerOf others = headerOf pieces := by
  refine Key.eq_of_value_eq fun k => ?_
  rw [← k.value_filter others, same k, k.value_filter]

/-- Two neighbours may change places unless both count for one key. -/
theorem filter_swap {k : Key} {one next : List UInt8} (h : k.Counts one → ¬ k.Counts next)
    (before after : List (List UInt8)) :
    (before ++ next :: one :: after).filter (k.Counts ·) =
      (before ++ one :: next :: after).filter (k.Counts ·) := by
  by_cases hone : k.Counts one <;> by_cases hnext : k.Counts next
  · exact absurd hnext (h hone)
  all_goals simp [List.filter_append, hone, hnext]

/-- For each key the last field counts whose number is not zero, and without such a field the key is
what it is by default: this and no other value. So two headers are the same if for each key the
fields that count are the same in the same order, whatever else stands between commas; neighbours
that do not both count for one key may change places; and neither the divisor nor the tempo is ever
zero. -/
theorem last_field_counts (bytes : List UInt8) :
    (∀ (k : Key) (value : Nat),
        k.Resolves (splitAt comma bytes) value ↔ value = k.value (Header.read bytes)) ∧
      (∀ other, (∀ k : Key, (splitAt comma other).filter (k.Counts ·) =
          (splitAt comma bytes).filter (k.Counts ·)) → Header.read other = Header.read bytes) ∧
      (∀ before one next after other, splitAt comma bytes = before ++ one :: next :: after →
        splitAt comma other = before ++ next :: one :: after →
        (∀ k : Key, k.Counts one → ¬ k.Counts next) → Header.read other = Header.read bytes) ∧
      (Header.read bytes).divisor ≠ 0 ∧ (Header.read bytes).tempo ≠ 0 := by
  have resolves (k : Key) := Key.headerOf_resolves k (splitAt comma bytes)
  refine ⟨fun k value => Key.resolves_iff _, fun other same => headerOf_eq_of_filter_eq same, ?_,
    fun zero => ?_, fun zero => ?_⟩
  · intro before one next after other hbytes hother apart
    refine headerOf_eq_of_filter_eq fun k => ?_
    rw [hbytes, hother]
    exact filter_swap (apart k) before after
  · exact (resolves .divisor).ne_zero _ (congrArg UInt32.toNat zero)
  · exact (resolves .tempo).ne_zero _ (congrArg UInt32.toNat zero)

/-- A divisor with a tail, an octave out of bounds, a line break before a key and a numeral that is
too long; and then the first two fields the other way round. -/
theorem last_field_counts_among_others :
    let later := [Utf8.encode "\nd=2", Utf8.encode "b = 99999999999 ", Utf8.encode "b=0"]
    let bytes := [comma].intercalate (Utf8.encode " D\t=8x" :: Utf8.encode "o=300" :: later)
    let other := [comma].intercalate (Utf8.encode "o=300" :: Utf8.encode " D\t=8x" :: later)
    Header.read bytes = { divisor := 8, octave := 255, tempo := 4294967295 } ∧
      Key.tempo.Resolves (splitAt comma bytes) 4294967295 ∧
      Header.read other = Header.read bytes := by
  intro later bytes other
  have reads : Header.read bytes = { divisor := 8, octave := 255, tempo := 4294967295 } := by decide
  obtain ⟨resolves, -, swaps, -⟩ := last_field_counts bytes
  refine ⟨reads, (resolves .tempo _).mpr (by rw [reads]; rfl), ?_⟩
  refine swaps [] (Utf8.encode " D\t=8x") (Utf8.encode "o=300") later other (by decide)
    (by decide) ?_
  intro k
  cases k <;> decide

end Tune

end Piezo
