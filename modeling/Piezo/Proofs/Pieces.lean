import Mathlib.Data.List.DropRight
import Piezo.Proofs.Reading

/-!
Pieces: what stands between two commas is read by itself, whatever stands around it.

So the notes of two texts that a comma joins are the notes of each. And a text that is cut off keeps
every piece but the last, which is only the beginning of what it was: a note, if it is one, has been
one before the cut.
-/

namespace Piezo

namespace Text

variable {α : Type} {p : α → Bool} {xs ys : List α}

theorem dropWhile_isPrefix (h : xs <+: ys) : xs.dropWhile p <+: ys.dropWhile p := by
  obtain ⟨zs, rfl⟩ := h
  rw [List.dropWhile_append]
  split
  · next hx =>
    rw [List.isEmpty_iff.mp hx]
    exact List.nil_prefix
  · exact List.prefix_append _ _

theorem rdropWhile_isPrefix (h : xs <+: ys) : xs.rdropWhile p <+: ys.rdropWhile p := by
  obtain ⟨zs, rfl⟩ := h
  unfold List.rdropWhile
  rw [List.reverse_append, List.dropWhile_append]
  split
  · exact List.prefix_refl _
  · rw [List.reverse_append, List.reverse_reverse]
    exact (List.rdropWhile_prefix p xs).trans (List.prefix_append _ _)

/-- What is left of the beginning of a list once it is trimmed is a beginning of what is left of the
whole list. -/
theorem trimBy_isPrefix (h : xs <+: ys) : trimBy p xs <+: trimBy p ys :=
  rdropWhile_isPrefix (dropWhile_isPrefix h)

theorem mem_head?_of_isPrefix {x : α} (h : xs <+: ys) (hx : x ∈ xs.head?) : x ∈ ys.head? := by
  obtain ⟨zs, rfl⟩ := h
  rw [List.head?_append, Option.mem_def.mp hx]
  rfl

/-- What is read of pieces that are not empty is no more than the pieces hold. -/
theorem length_filterMap_le_flatten {β : Type} {f : List α → Option β} (empty : f [] = none)
    (pieces : List (List α)) : (pieces.filterMap f).length ≤ pieces.flatten.length := by
  induction pieces with
  | nil => exact Nat.le_refl _
  | cons piece rest ih =>
    rw [List.flatten_cons, List.length_append]
    cases hf : f piece with
    | none =>
      rw [List.filterMap_cons_none hf]
      omega
    | some b =>
      have hp : piece ≠ [] := by
        rintro rfl
        simp [empty] at hf
      have := List.length_pos_iff.mpr hp
      rw [List.filterMap_cons_some hf, List.length_cons]
      omega

variable [DecidableEq α] {separator : α}

/-- Of a list that is cut off, all pieces are whole but the last. -/
theorem splitAt_isPrefix (separator : α) (h : xs <+: ys) :
    ∃ front cut piece rest, splitAt separator xs = front ++ [cut] ∧
      splitAt separator ys = front ++ piece :: rest ∧ cut <+: piece := by
  obtain ⟨zs, rfl⟩ := h
  induction xs with
  | nil =>
    obtain ⟨piece, rest, hz⟩ := exists_splitAt separator zs
    exact ⟨[], [], piece, rest, rfl, hz, List.nil_prefix⟩
  | cons x xs ih =>
    obtain ⟨front, cut, piece, rest, hx, hy, hc⟩ := ih
    by_cases he : x = separator
    · subst he
      refine ⟨[] :: front, cut, piece, rest, ?_, ?_, hc⟩
      · rw [splitAt_cons_separator, hx, List.cons_append]
      · rw [List.cons_append, splitAt_cons_separator, hy, List.cons_append]
    · cases front with
      | nil =>
        exact ⟨[], x :: cut, x :: piece, rest, splitAt_cons_ne he hx, splitAt_cons_ne he hy,
          (List.prefix_cons_inj x).mpr hc⟩
      | cons first front =>
        exact ⟨(x :: first) :: front, cut, piece, rest, splitAt_cons_ne he hx,
          splitAt_cons_ne he hy, hc⟩

/-- The pieces together hold all but the separators. -/
theorem flatten_splitAt (xs : List α) :
    (splitAt separator xs).flatten = xs.filter (· ≠ separator) := by
  induction xs with
  | nil => rfl
  | cons x xs ih =>
    by_cases hx : x = separator
    · rw [hx, splitAt_cons_separator, List.flatten_cons, List.nil_append, ih]
      simp
    · obtain ⟨piece, rest, hp⟩ := exists_splitAt separator xs
      rw [hp] at ih
      rw [splitAt_cons_ne hx hp, List.flatten_cons, List.cons_append, ← List.flatten_cons, ih]
      simp [hx]

end Text

namespace Tune

open Text Text.Utf8

variable {xs ys : List UInt8}

theorem snd_number? (bytes : List UInt8) : (number? bytes).2 = bytes.dropWhile isDigit := by
  unfold number?
  split
  · next h =>
    have split := List.takeWhile_append_dropWhile (p := isDigit) (l := bytes)
    rw [h, List.nil_append] at split
    exact split.symm
  · rfl

namespace Token

/-- What stands between two commas, read as a note. -/
def ofPiece? (piece : List UInt8) : Option Token := read? (trimBy isSpace piece)

/-- A text is a note if a letter comes after its digits. -/
theorem isSome_read?_iff (bytes : List UInt8) :
    (read? bytes).isSome = true ↔
      ∃ letter ∈ ((bytes.dropWhile isGap).dropWhile isDigit).head?, isLetter letter = true := by
  rw [← snd_number?]
  unfold read?
  generalize number? (bytes.dropWhile isGap) = numbered
  obtain ⟨divisor, rest⟩ := numbered
  cases rest with
  | nil => simp
  | cons letter rest =>
    by_cases hl : isLetter letter = true
    · simp [hl]
    · simp [hl]

/-- A note stays one, though perhaps another one, if more is written after it. -/
theorem isSome_read?_of_isPrefix (h : xs <+: ys) (hx : (read? xs).isSome = true) :
    (read? ys).isSome = true := by
  rw [isSome_read?_iff] at *
  obtain ⟨letter, hm, hl⟩ := hx
  exact ⟨letter, mem_head?_of_isPrefix (dropWhile_isPrefix (dropWhile_isPrefix h)) hm, hl⟩

theorem isSome_ofPiece?_of_isPrefix (h : xs <+: ys) (hx : (ofPiece? xs).isSome = true) :
    (ofPiece? ys).isSome = true :=
  isSome_read?_of_isPrefix (trimBy_isPrefix h) hx

end Token

/-- An empty piece is no note, so nothing is lost by leaving it out beforehand. -/
theorem tokens_eq (bytes : List UInt8) :
    tokens bytes = (splitAt comma bytes).filterMap Token.ofPiece? := by
  rw [tokens, pieces, List.filterMap_filter, List.filterMap_map]
  congr 1
  funext piece
  by_cases hp : trimBy isSpace piece = []
  · simp only [Function.comp_apply, Token.ofPiece?, hp]
    rfl
  · simp [Token.ofPiece?, hp]

/-- A comma keeps the notes before it apart from those after it. -/
theorem tokens_join (xs ys : List UInt8) :
    tokens (xs ++ comma :: ys) = tokens xs ++ tokens ys := by
  rw [tokens_eq, tokens_eq, tokens_eq, splitAt_join, List.filterMap_append]

theorem tokens_eq_nil_iff (bytes : List UInt8) :
    tokens bytes = [] ↔ ∀ piece ∈ splitAt comma bytes, Token.ofPiece? piece = none := by
  rw [tokens_eq, List.filterMap_eq_nil_iff]

/-- There are no more notes than bytes. -/
theorem length_tokens_le (bytes : List UInt8) : (tokens bytes).length ≤ bytes.length := by
  have hf : Token.ofPiece? [] = none := rfl
  rw [tokens_eq]
  refine Nat.le_trans (length_filterMap_le_flatten hf _) ?_
  rw [flatten_splitAt]
  exact List.length_filter_le ..

/-- Of notes that are cut off, all stay as they are but the last one, if the cut leaves any of it;
and that one has been a note before the cut. -/
theorem tokens_isPrefix (h : xs <+: ys) :
    ∃ (front : List Token) (last : Option Token) (rest : List Token),
      tokens xs = front ++ last.toList ∧ tokens ys = front ++ rest ∧
        (last.isSome = true → rest ≠ []) := by
  obtain ⟨front, cut, piece, rest, hx, hy, hc⟩ := splitAt_isPrefix comma h
  refine ⟨front.filterMap Token.ofPiece?, Token.ofPiece? cut,
    (piece :: rest).filterMap Token.ofPiece?, ?_, ?_, fun hl => ?_⟩
  · rw [tokens_eq, hx, List.filterMap_append]
    cases hl : Token.ofPiece? cut <;> simp [hl]
  · rw [tokens_eq, hy, List.filterMap_append]
  · obtain ⟨token, ht⟩ := Option.isSome_iff_exists.mp (Token.isSome_ofPiece?_of_isPrefix hc hl)
    rw [List.filterMap_cons_some ht]
    exact List.cons_ne_nil _ _

theorem atColon?_eq_some {bytes front rest : List UInt8} :
    atColon? bytes = some (front, rest) ↔ bytes = front ++ colon :: rest ∧ colon ∉ front := by
  constructor
  · intro h
    have whole := List.takeWhile_append_dropWhile (p := (· ≠ colon)) (l := bytes)
    have stops := List.head?_dropWhile_not (· ≠ colon) bytes
    unfold atColon? at h
    split at h
    · cases h
    · next b after hd =>
      simp only [Option.some.injEq, Prod.mk.injEq] at h
      obtain ⟨rfl, rfl⟩ := h
      rw [hd] at whole stops
      obtain rfl : b = colon := by simpa using stops
      refine ⟨whole.symm, fun hm => ?_⟩
      simpa using List.mem_takeWhile_imp hm
  · rintro ⟨rfl, h⟩
    exact atColon?_append h rest

/-- The three parts of a text are told apart by its first two colons. -/
theorem parts_eq_ok {bytes : List UInt8} {p : Parts} :
    parts bytes = .ok p ↔
      bytes = p.name ++ colon :: (p.header ++ colon :: p.notes) ∧ colon ∉ p.name ∧
        colon ∉ p.header := by
  constructor
  · intro h
    unfold parts at h
    split at h
    · cases h
    · split at h
      · cases h
      · next name rest hname =>
        split at h
        · cases h
        · next header notes hheader =>
          cases h
          obtain ⟨rfl, hn⟩ := atColon?_eq_some.mp hname
          obtain ⟨rfl, hh⟩ := atColon?_eq_some.mp hheader
          exact ⟨rfl, hn, hh⟩
  · rintro ⟨rfl, hn, hh⟩
    rw [parts, if_neg (by simp), atColon?_append hn]
    dsimp only
    rw [atColon?_append hh]

/-- More text is more of the notes. -/
theorem parts_append {p : Parts} (h : parts xs = .ok p) (more : List UInt8) :
    parts (xs ++ more) = .ok { p with notes := p.notes ++ more } := by
  obtain ⟨rfl, hn, hh⟩ := parts_eq_ok.mp h
  exact parts_eq_ok.mpr ⟨by simp, hn, hh⟩

/-- The three parts as they stand in a text. -/
def Parts.bytes (p : Parts) : List UInt8 := p.name ++ colon :: (p.header ++ colon :: p.notes)

/-- Of a text that is kept whole, all three parts are read. -/
theorem read_of_fits (settings : Settings) {s : Source} {p : Parts} (holds : s.Holds p.bytes)
    (hp : colon ∉ p.name ∧ colon ∉ p.header)
    (fits : p.bytes.length ≤ settings.limits.bytes.toNat) :
    read settings s = .ok (ofParts settings false p) := by
  have hparts : parts p.bytes = .ok p := parts_eq_ok.mpr ⟨rfl, hp⟩
  rw [read, Source.copy_of_holds holds, Copy.ofRun]
  simp only [List.take_of_length_le fits, Nat.not_lt.mpr fits, hparts]
  rfl

/-- A text that is kept whole, with all its notes, is read as it stands. -/
theorem read_of_holds (settings : Settings) {s : Source} {p : Parts}
    (holds : s.Holds (p.name ++ colon :: (p.header ++ colon :: p.notes))) (hn : colon ∉ p.name)
    (hh : colon ∉ p.header)
    (bytes : (p.name ++ colon :: (p.header ++ colon :: p.notes)).length ≤
      settings.limits.bytes.toNat)
    (notes : (tokens p.notes).length ≤ settings.limits.notes.toNat) :
    read settings s =
      .ok ⟨lossy (trimBy isSpace p.name), Header.read p.header,
        (tokens p.notes).map (Token.note settings.range (Header.read p.header)), false⟩ := by
  have room : (tokens p.notes).length ≤ capacity settings.limits :=
    Nat.le_trans notes (Nat.le_max_left ..)
  rw [read_of_fits settings holds ⟨hn, hh⟩ bytes]
  simp only [ofParts, List.take_of_length_le room, Nat.not_lt.mpr room]
  rfl

/-- The notes of two texts under one header are those of each in turn if a comma joins them, however
malformed the texts are and wherever each is kept. What cannot be read as a note adds none. -/
theorem read_joined (settings : Settings) (name header a b : List UInt8)
    (hn : colon ∉ name) (hh : colon ∉ header) {joined left right : Source}
    (whole : joined.Holds (name ++ colon :: (header ++ colon :: (a ++ comma :: b))))
    (first : left.Holds (name ++ colon :: (header ++ colon :: a)))
    (second : right.Holds (name ++ colon :: (header ++ colon :: b)))
    (bytes : (name ++ colon :: (header ++ colon :: (a ++ comma :: b))).length ≤
      settings.limits.bytes.toNat)
    (notes : (tokens (a ++ comma :: b)).length ≤ settings.limits.notes.toNat) :
    ∃ title common xs ys,
      read settings left = .ok ⟨title, common, xs, false⟩ ∧
        read settings right = .ok ⟨title, common, ys, false⟩ ∧
        read settings joined = .ok ⟨title, common, xs ++ ys, false⟩ ∧
        (xs = [] ↔ ∀ piece ∈ splitAt comma a, Token.ofPiece? piece = none) ∧
        (ys = [] ↔ ∀ piece ∈ splitAt comma b, Token.ofPiece? piece = none) := by
  have counts := notes
  rw [tokens_join, List.length_append] at counts
  have hjoined := read_of_holds settings (p := ⟨name, header, a ++ comma :: b⟩) whole hn hh bytes
    notes
  simp only [List.length_append, List.length_cons] at bytes
  have hleft := read_of_holds settings (p := ⟨name, header, a⟩) first hn hh
    (by simp only [List.length_append, List.length_cons]; omega) (by dsimp only; omega)
  have hright := read_of_holds settings (p := ⟨name, header, b⟩) second hn hh
    (by simp only [List.length_append, List.length_cons]; omega) (by dsimp only; omega)
  simp only [tokens_join, List.map_append] at hjoined
  refine ⟨_, _, _, _, hleft, hright, hjoined, ?_, ?_⟩
  · rw [List.map_eq_nil_iff, tokens_eq_nil_iff]
  · rw [List.map_eq_nil_iff, tokens_eq_nil_iff]

/-- Notes with malformed ones among them, and after them only what is no note. -/
def garbled : List UInt8 := encode "x:d=8:c,:#,4d#6" ++ [comma, 255, comma, colon]

theorem read_joined_garbled :
    read {} (.ram "x:d=8:c,:#,4d#6") =
        .ok ⟨"x", { divisor := 8 }, [⟨1048, 250⟩, ⟨1244, 500⟩], false⟩ ∧
      read {} (.flash (.image (encode "xx" ++ garbled ++ 0 :: encode "tail")) 2) =
        read {} (.ram "x:d=8:c,:#,4d#6") := by
  have whole := Source.holds_image (encode "xx" ++ garbled ++ 0 :: encode "tail") 2 (by decide)
  have first := Source.holds_ram "x:d=8:c,:#,4d#6" (by decide)
  have second := Source.holds_image (encode "x:d=8:" ++ [255, comma, colon]) 0 (by decide)
  obtain ⟨title, common, xs, ys, hleft, -, hjoined, -, none⟩ :=
    read_joined {} (encode "x") (encode "d=8") (encode "c,:#,4d#6") [255, comma, colon] (by decide)
      (by decide) whole first second (by decide) (by decide)
  have hys : ys = [] := none.mpr (by decide)
  rw [hys, List.append_nil] at hjoined
  exact ⟨by decide, hjoined.trans hleft.symm⟩

end Tune

end Piezo
