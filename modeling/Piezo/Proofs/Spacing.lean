import Mathlib.Logic.Relation
import Piezo.Proofs.Pieces

/-!
Spacing: white space beside a comma or a colon changes nothing of what is read.

The notes and the name are trimmed. A field of the header skips the gaps in front of it, which are
spaces and tabs, and ends with its digits whatever follows them.
-/

namespace Piezo

namespace Text

variable {α : Type} {p : α → Bool} {space : List α}

theorem trimBy_append_left (h : ∀ x ∈ space, p x = true) (xs : List α) :
    trimBy p (space ++ xs) = trimBy p xs := by
  rw [trimBy, trimBy, List.dropWhile_append_of_pos h]

theorem trimBy_append_right (h : ∀ x ∈ space, p x = true) (xs : List α) :
    trimBy p (xs ++ space) = trimBy p xs := by
  have dropped : space.dropWhile p = [] := List.dropWhile_eq_nil_iff.mpr h
  unfold trimBy
  rw [List.dropWhile_append]
  split
  · next hx => rw [dropped, List.isEmpty_iff.mp hx]
  · rw [List.reverse_append, List.dropWhile_append_of_pos (by simpa using h)]

variable [DecidableEq α] {separator : α} {β : Type} {f : List α → Option β}

/-- What is written before a list without separators is written before its first piece. -/
theorem splitAt_append_left (h : separator ∉ space) {xs piece : List α} {rest : List (List α)}
    (hx : splitAt separator xs = piece :: rest) :
    splitAt separator (space ++ xs) = (space ++ piece) :: rest := by
  induction space with
  | nil => exact hx
  | cons x space ih =>
    obtain ⟨hne, hspace⟩ := List.ne_and_not_mem_of_not_mem_cons h
    exact splitAt_cons_ne hne.symm (ih hspace)

/-- What is written after a list without separators is written after its last piece. -/
theorem splitAt_append_right (h : separator ∉ space) (xs : List α) :
    ∃ front last, splitAt separator xs = front ++ [last] ∧
      splitAt separator (xs ++ space) = front ++ [last ++ space] := by
  induction xs with
  | nil => exact ⟨[], [], rfl, splitAt_of_not_mem h⟩
  | cons x xs ih =>
    obtain ⟨front, last, hx, hy⟩ := ih
    by_cases he : x = separator
    · subst he
      refine ⟨[] :: front, last, ?_, ?_⟩
      · rw [splitAt_cons_separator, hx, List.cons_append]
      · rw [List.cons_append, splitAt_cons_separator, hy, List.cons_append]
    · cases front with
      | nil => exact ⟨[], x :: last, splitAt_cons_ne he hx, splitAt_cons_ne he hy⟩
      | cons first front =>
        exact ⟨(x :: first) :: front, last, splitAt_cons_ne he hx, splitAt_cons_ne he hy⟩

/-- If the first piece is read as before, so are all. -/
theorem filterMap_splitAt_append_left (h : separator ∉ space)
    (same : ∀ piece, f (space ++ piece) = f piece) (xs : List α) :
    (splitAt separator (space ++ xs)).filterMap f = (splitAt separator xs).filterMap f := by
  obtain ⟨piece, rest, hx⟩ := exists_splitAt separator xs
  rw [splitAt_append_left h hx, hx, List.filterMap_cons, List.filterMap_cons, same]

/-- If the last piece is read as before, so are all. -/
theorem filterMap_splitAt_append_right (h : separator ∉ space)
    (same : ∀ piece, f (piece ++ space) = f piece) (xs : List α) :
    (splitAt separator (xs ++ space)).filterMap f = (splitAt separator xs).filterMap f := by
  obtain ⟨front, last, hx, hy⟩ := splitAt_append_right h xs
  rw [hx, hy, List.filterMap_append, List.filterMap_append, List.filterMap_cons,
    List.filterMap_cons, same]

end Text

namespace Tune

open Text Text.Utf8

variable {space : List UInt8}

theorem isSpace_of_isGap {b : UInt8} (h : isGap b = true) : isSpace b = true := by
  simp [isSpace, h]

/-- A space is no letter, no digit and no sign. -/
theorem plain_of_isSpace {b : UInt8} (h : isSpace b = true) :
    isLetter b = false ∧ isDigit b = false ∧ b ≠ equals ∧ b ≠ comma ∧ b ≠ colon := by
  simp only [isSpace, isGap, Bool.or_eq_true, decide_eq_true_eq] at h
  rcases h with (((rfl | rfl) | rfl) | rfl) | rfl <;> decide

theorem not_mem_of_isSpace (white : ∀ b ∈ space, isSpace b = true) :
    comma ∉ space ∧ colon ∉ space :=
  ⟨fun hm => (plain_of_isSpace (white _ hm)).2.2.2.1 rfl,
    fun hm => (plain_of_isSpace (white _ hm)).2.2.2.2 rfl⟩

/-- Where gaps have been skipped, what followed still follows, but for gaps at its front. -/
theorem dropWhile_isGap_append (white : ∀ b ∈ space, isSpace b = true) (xs : List UInt8) :
    ∃ tail, (∀ b ∈ tail, isSpace b = true) ∧
      (xs ++ space).dropWhile isGap = xs.dropWhile isGap ++ tail := by
  rw [List.dropWhile_append]
  split
  · next hx =>
    refine ⟨space.dropWhile isGap, fun b hb => ?_, ?_⟩
    · exact white b ((List.dropWhile_sublist _).subset hb)
    · rw [List.isEmpty_iff.mp hx, List.nil_append]
  · exact ⟨space, white, rfl⟩

/-- Spaces after a number are no part of it, and they make none where there is none. -/
theorem fst_number?_append (white : ∀ b ∈ space, isSpace b = true) (xs : List UInt8) :
    (number? (xs ++ space)).1 = (number? xs).1 := by
  have none : space.takeWhile isDigit = [] := by
    refine (dropWhile_of_head fun b hb => ?_).2
    exact (plain_of_isSpace (white b (List.mem_of_mem_head? hb))).2.1
  have digits : (xs ++ space).takeWhile isDigit = xs.takeWhile isDigit := by
    induction xs with
    | nil => exact none
    | cons x xs ih => rw [List.cons_append, List.takeWhile_cons, List.takeWhile_cons, ih]
  rw [fst_number?, fst_number?, digits]

namespace Field

/-- Gaps in front of a field are skipped. -/
theorem read?_append_left (gap : ∀ b ∈ space, isGap b = true) (piece : List UInt8) :
    read? (space ++ piece) = read? piece := by
  rw [read?, List.dropWhile_append_of_pos gap]
  rfl

/-- Spaces after a field are no part of it, and they make none of what is none. -/
theorem read?_append_right (white : ∀ b ∈ space, isSpace b = true) (piece : List UInt8) :
    read? (piece ++ space) = read? piece := by
  obtain ⟨first, hfirst, atKey⟩ := dropWhile_isGap_append white piece
  unfold read?
  rw [atKey]
  cases hk : piece.dropWhile isGap with
  | nil =>
    -- A space that is no gap stands where the key should.
    cases first with
    | nil => rfl
    | cons b rest =>
      have noLetter := (plain_of_isSpace (hfirst b List.mem_cons_self)).1
      simp only [List.nil_append, noLetter]
      split <;> simp
  | cons key afterKey =>
    obtain ⟨second, hsecond, atSign⟩ := dropWhile_isGap_append hfirst afterKey
    simp only [List.cons_append]
    rw [atSign]
    cases hs : afterKey.dropWhile isGap with
    | nil =>
      cases second with
      | nil => rfl
      | cons b rest =>
        have noSign := (plain_of_isSpace (hsecond b List.mem_cons_self)).2.2.1
        simp [noSign]
    | cons sign afterSign =>
      obtain ⟨third, hthird, atValue⟩ := dropWhile_isGap_append hsecond afterSign
      simp only [List.cons_append]
      rw [atValue, fst_number?_append hthird]

end Field

theorem fields_append_left (gap : ∀ b ∈ space, isGap b = true) (xs : List UInt8) :
    Header.fields (space ++ xs) = Header.fields xs :=
  filterMap_splitAt_append_left (not_mem_of_isSpace fun b hb => isSpace_of_isGap (gap b hb)).1
    (Field.read?_append_left gap) xs

theorem fields_append_right (white : ∀ b ∈ space, isSpace b = true) (xs : List UInt8) :
    Header.fields (xs ++ space) = Header.fields xs :=
  filterMap_splitAt_append_right (not_mem_of_isSpace white).1 (Field.read?_append_right white) xs

/-- A comma keeps the fields before it apart from those after it. -/
theorem fields_join (xs ys : List UInt8) :
    Header.fields (xs ++ comma :: ys) = Header.fields xs ++ Header.fields ys := by
  rw [Header.fields, splitAt_join, List.filterMap_append]
  rfl

theorem tokens_append_left (white : ∀ b ∈ space, isSpace b = true) (xs : List UInt8) :
    tokens (space ++ xs) = tokens xs := by
  rw [tokens_eq, tokens_eq]
  refine filterMap_splitAt_append_left (not_mem_of_isSpace white).1 (fun piece => ?_) xs
  rw [Token.ofPiece?, Token.ofPiece?, trimBy_append_left white]

theorem tokens_append_right (white : ∀ b ∈ space, isSpace b = true) (xs : List UInt8) :
    tokens (xs ++ space) = tokens xs := by
  rw [tokens_eq, tokens_eq]
  refine filterMap_splitAt_append_right (not_mem_of_isSpace white).1 (fun piece => ?_) xs
  rw [Token.ofPiece?, Token.ofPiece?, trimBy_append_right white]

/-- White space added beside one of the separators of a text: its first two colons and the commas
between and after them. In front of a field of the header it is spaces and tabs. -/
inductive Spaced : Parts → Parts → Prop
  | beforeFirstColon {name header notes space : List UInt8}
      (white : ∀ b ∈ space, isSpace b = true) :
      Spaced ⟨name, header, notes⟩ ⟨name ++ space, header, notes⟩
  | afterFirstColon {name header notes space : List UInt8}
      (gap : ∀ b ∈ space, isGap b = true) :
      Spaced ⟨name, header, notes⟩ ⟨name, space ++ header, notes⟩
  | beforeFieldComma {name front back notes space : List UInt8}
      (white : ∀ b ∈ space, isSpace b = true) :
      Spaced ⟨name, front ++ comma :: back, notes⟩
        ⟨name, front ++ space ++ comma :: back, notes⟩
  | afterFieldComma {name front back notes space : List UInt8}
      (gap : ∀ b ∈ space, isGap b = true) :
      Spaced ⟨name, front ++ comma :: back, notes⟩
        ⟨name, front ++ comma :: (space ++ back), notes⟩
  | beforeSecondColon {name header notes space : List UInt8}
      (white : ∀ b ∈ space, isSpace b = true) :
      Spaced ⟨name, header, notes⟩ ⟨name, header ++ space, notes⟩
  | afterSecondColon {name header notes space : List UInt8}
      (white : ∀ b ∈ space, isSpace b = true) :
      Spaced ⟨name, header, notes⟩ ⟨name, header, space ++ notes⟩
  | beforeNoteComma {name header front back space : List UInt8}
      (white : ∀ b ∈ space, isSpace b = true) :
      Spaced ⟨name, header, front ++ comma :: back⟩
        ⟨name, header, front ++ space ++ comma :: back⟩
  | afterNoteComma {name header front back space : List UInt8}
      (white : ∀ b ∈ space, isSpace b = true) :
      Spaced ⟨name, header, front ++ comma :: back⟩
        ⟨name, header, front ++ comma :: (space ++ back)⟩

/-- Parts of which the same is read. -/
structure ReadAlike (p q : Parts) : Prop where
  name : trimBy isSpace q.name = trimBy isSpace p.name
  fields : Header.fields q.header = Header.fields p.header
  tokens : tokens q.notes = tokens p.notes

variable {p q : Parts}

theorem ReadAlike.ofParts_eq (h : ReadAlike p q) (settings : Settings) (cut : Bool) :
    ofParts settings cut q = ofParts settings cut p := by
  have header : Header.read q.header = Header.read p.header := by
    rw [Header.read, h.fields]
    rfl
  simp only [ofParts, h.name, header, h.tokens]

/-- White space beside one separator changes nothing of what is read. -/
theorem Spaced.readAlike (h : Spaced p q) : ReadAlike p q := by
  cases h with
  | beforeFirstColon white => exact ⟨trimBy_append_right white _, rfl, rfl⟩
  | afterFirstColon gap => exact ⟨rfl, fields_append_left gap _, rfl⟩
  | beforeFieldComma white =>
    refine ⟨rfl, ?_, rfl⟩
    rw [fields_join, fields_join, fields_append_right white]
  | afterFieldComma gap =>
    refine ⟨rfl, ?_, rfl⟩
    rw [fields_join, fields_join, fields_append_left gap]
  | beforeSecondColon white => exact ⟨rfl, fields_append_right white _, rfl⟩
  | afterSecondColon white => exact ⟨rfl, rfl, tokens_append_left white _⟩
  | beforeNoteComma white =>
    refine ⟨rfl, rfl, ?_⟩
    rw [tokens_join, tokens_join, tokens_append_right white]
  | afterNoteComma white =>
    refine ⟨rfl, rfl, ?_⟩
    rw [tokens_join, tokens_join, tokens_append_left white]

/-- The first two colons stay the first two. -/
theorem Spaced.colon_not_mem (h : Spaced p q) (hp : colon ∉ p.name ∧ colon ∉ p.header) :
    colon ∉ q.name ∧ colon ∉ q.header := by
  have noColon : ∀ space : List UInt8, (∀ b ∈ space, isGap b = true) → colon ∉ space :=
    fun _ gap => (not_mem_of_isSpace fun b hb => isSpace_of_isGap (gap b hb)).2
  cases h with
  | beforeFirstColon white => simpa [(not_mem_of_isSpace white).2] using hp
  | afterFirstColon gap => simpa [noColon _ gap] using hp
  | beforeFieldComma white => simpa [(not_mem_of_isSpace white).2] using hp
  | afterFieldComma gap => simpa [noColon _ gap] using hp
  | beforeSecondColon white => simpa [(not_mem_of_isSpace white).2] using hp
  | afterSecondColon => exact hp
  | beforeNoteComma => exact hp
  | afterNoteComma => exact hp

/-- White space beside as many separators as may be changes nothing either. -/
theorem spaced_keeps (spaced : Relation.ReflTransGen Spaced p q)
    (hp : colon ∉ p.name ∧ colon ∉ p.header) :
    ReadAlike p q ∧ colon ∉ q.name ∧ colon ∉ q.header := by
  induction spaced with
  | refl => exact ⟨⟨rfl, rfl, rfl⟩, hp⟩
  | tail _ step ih =>
    obtain ⟨alike, hq⟩ := ih
    have next := step.readAlike
    exact ⟨⟨next.name.trans alike.name, next.fields.trans alike.fields,
      next.tokens.trans alike.tokens⟩, step.colon_not_mem hq⟩

theorem Spaced.length_le (h : Spaced p q) : p.bytes.length ≤ q.bytes.length := by
  cases h <;> simp only [Parts.bytes, List.length_append, List.length_cons] <;> omega

theorem length_le_of_spaced (spaced : Relation.ReflTransGen Spaced p q) :
    p.bytes.length ≤ q.bytes.length := by
  induction spaced with
  | refl => exact Nat.le_refl _
  | tail _ step ih => exact Nat.le_trans ih step.length_le

/-- White space beside the separators of a text changes nothing of the tune that is read, wherever
the text is kept, as long as all of it is kept. -/
theorem space_beside_separators (settings : Settings) (hp : colon ∉ p.name ∧ colon ∉ p.header)
    (spaced : Relation.ReflTransGen Spaced p q) {plain wide : Source}
    (first : plain.Holds p.bytes) (second : wide.Holds q.bytes)
    (fits : q.bytes.length ≤ settings.limits.bytes.toNat) :
    ∃ tune, read settings plain = .ok tune ∧ read settings wide = .ok tune := by
  obtain ⟨alike, hq⟩ := spaced_keeps spaced hp
  have narrow := Nat.le_trans (length_le_of_spaced spaced) fits
  refine ⟨_, read_of_fits settings first hp narrow, ?_⟩
  rw [read_of_fits settings second hq fits, alike.ofParts_eq]

/-- Line breaks after the name, after a field and before a note, and a tab before a field. -/
theorem space_beside_separators_and_breaks :
    let plain := Source.ram "T:d=8,o=5:C,4D#6"
    let wide := Source.ram "T\r\n:d=8\n,\to=5:C,\x0c\n4D#6"
    read {} plain = .ok ⟨"T", { divisor := 8, octave := 5 }, [⟨524, 250⟩, ⟨1244, 500⟩], false⟩ ∧
      read {} wide = read {} plain := by
  intro plain wide
  have spaced : Relation.ReflTransGen Spaced
      ⟨encode "T", encode "d=8" ++ comma :: encode "o=5", encode "C" ++ comma :: encode "4D#6"⟩
      ⟨encode "T" ++ encode "\r\n",
        encode "d=8" ++ encode "\n" ++ comma :: (encode "\t" ++ encode "o=5"),
        encode "C" ++ comma :: (encode "\x0c\n" ++ encode "4D#6")⟩ :=
    .head (.beforeFirstColon (List.all_eq_true.mp rfl)) <|
      .head (.beforeFieldComma (List.all_eq_true.mp rfl)) <|
      .head (.afterFieldComma (List.all_eq_true.mp rfl)) <|
      .single (.afterNoteComma (List.all_eq_true.mp rfl))
  obtain ⟨tune, hplain, hwide⟩ := space_beside_separators {} (by decide) spaced
    (Source.holds_ram "T:d=8,o=5:C,4D#6" (by decide))
    (Source.holds_ram "T\r\n:d=8\n,\to=5:C,\x0c\n4D#6" (by decide)) (by decide)
  exact ⟨by decide, hwide.trans hplain.symm⟩

/-- A comma within the name is a part of the name, and so is the white space after it. A line break
in front of a field hides the field. -/
theorem space_changes_name_and_hides_field :
    read {} (.ram "a,b::c") = .ok ⟨"a,b", {}, [⟨1048, 500⟩], false⟩ ∧
      read {} (.ram "a, b::c") = .ok ⟨"a, b", {}, [⟨1048, 500⟩], false⟩ ∧
      read {} (.ram "x:d=8:c") = .ok ⟨"x", { divisor := 8 }, [⟨1048, 250⟩], false⟩ ∧
      read {} (.ram "x:\nd=8:c") = .ok ⟨"x", {}, [⟨1048, 500⟩], false⟩ := by
  decide

end Tune

end Piezo
