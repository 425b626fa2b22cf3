import Piezo.Proofs.Copying
import Piezo.Proofs.Spelling

/-!
Reading inverts writing: a tune that is written out, with whatever white space and in whatever case,
is read back as it was meant.
-/

namespace Piezo.Tune

open Text Text.Utf8

/-- A tune as it may be written. -/
structure Writing where
  name : String
  header : Header
  divisorMargins : Margins := {}
  octaveMargins : Margins := {}
  tempoMargins : Margins := {}
  entries : List Entry
  /-- A colon would end the name, and a NUL the whole text. -/
  named : ':' ∉ name.toList ∧ '\x00' ∉ name.toList
  positive : header.divisor ≠ 0 ∧ header.octave ≠ 0 ∧ header.tempo ≠ 0

theorem bytes_intercalate (pieces : List (List Char)) :
    bytes ([','].intercalate pieces) = [comma].intercalate (pieces.map bytes) := by
  induction pieces with
  | nil => rfl
  | cons piece rest ih =>
    cases rest with
    | nil => simp
    | cons next more =>
      rw [List.intercalate_cons_cons, bytes_append, bytes_append, ih]
      simp only [List.map_cons, List.intercalate_cons_cons]
      rfl

/-- Between the pieces there are only commas. -/
theorem mem_joined {pieces : List (List Char)}
    (h : ∀ piece ∈ pieces, ∀ c ∈ piece, isPlain c = true) :
    ∀ c ∈ [','].intercalate pieces, c = ',' ∨ isPlain c = true := by
  induction pieces with
  | nil => simp
  | cons piece rest ih =>
    obtain ⟨hpiece, hrest⟩ := List.forall_mem_cons.mp h
    cases rest with
    | nil =>
      intro c hc
      rw [List.intercalate_singleton] at hc
      exact .inr (hpiece c hc)
    | cons next more =>
      intro c hc
      rw [List.intercalate_cons_cons, List.mem_append, List.mem_append, List.mem_singleton] at hc
      rcases hc with (hc | hc) | hc
      · exact .inr (hpiece c hc)
      · exact .inl hc
      · exact ih hrest c hc

/-- What is joined has neither a colon nor a NUL among its bytes. -/
theorem not_mem_bytes_joined {pieces : List (List Char)}
    (h : ∀ piece ∈ pieces, ∀ c ∈ piece, isPlain c = true) :
    colon ∉ bytes ([','].intercalate pieces) ∧ 0 ∉ bytes ([','].intercalate pieces) := by
  refine ⟨fun hm => ?_, fun hm => ?_⟩
  · have hc := mem_joined h ':' (mem_of_mem_bytes (by decide) rfl hm)
    revert hc
    decide
  · have hc := mem_joined h '\x00' (mem_of_mem_bytes (by decide) rfl hm)
    revert hc
    decide

/-- The bytes of joined pieces split into the bytes of each. -/
theorem splitAt_joined {pieces : List (List Char)}
    (h : ∀ piece ∈ pieces, ∀ c ∈ piece, isPlain c = true) (nonempty : pieces ≠ []) :
    splitAt comma (bytes ([','].intercalate pieces)) = pieces.map bytes := by
  rw [bytes_intercalate]
  refine splitAt_intercalate ?_ (by simpa using nonempty)
  intro piece hp
  obtain ⟨cs, hcs, rfl⟩ := List.mem_map.mp hp
  exact (not_mem_bytes_of_plain (h cs hcs)).1

/-- Without a colon before it, the first colon is where the front part ends. -/
theorem atColon?_append {xs : List UInt8} (h : colon ∉ xs) (rest : List UInt8) :
    atColon? (xs ++ colon :: rest) = some (xs, rest) := by
  have hxs : ∀ b ∈ xs, decide (b ≠ colon) = true := by
    intro b hb
    exact decide_eq_true fun he => h (he ▸ hb)
  unfold atColon?
  rw [List.dropWhile_append_of_pos hxs, List.takeWhile_append_of_pos hxs]
  simp

/-- A text without NUL that is no longer than it may be is copied whole. -/
theorem copy_ram {text : String} {most : UInt64} (hnul : 0 ∉ encode text)
    (hlength : (encode text).length ≤ most.toNat) :
    (Source.ram text).copy most = ⟨encode text, false⟩ := by
  have fits : (encode text).length ≤ greatest :=
    Nat.le_trans hlength (Nat.le_pred_of_lt most.toNat_lt)
  rw [Source.copy_ram_eq fits, beforeNul_of_not_mem hnul]
  simp [Copy.ofRun, List.take_of_length_le hlength, hlength]

namespace Writing

variable (w : Writing)

def fields : List (List Char) :=
  [w.divisorMargins.field 'd' w.header.divisor, w.octaveMargins.field 'o' w.header.octave.toUInt32,
    w.tempoMargins.field 'b' w.header.tempo]

def headerChars : List Char := [','].intercalate w.fields

def notesChars : List Char := [','].intercalate (w.entries.map Entry.chars)

/-- The whole text. -/
def text : String :=
  String.ofList (w.name.toList ++ ':' :: (w.headerChars ++ ':' :: w.notesChars))

theorem fields_plain : ∀ field ∈ w.fields, ∀ c ∈ field, isPlain c = true := by
  intro field hf
  simp only [fields, List.mem_cons, List.not_mem_nil, or_false] at hf
  rcases hf with rfl | rfl | rfl <;> exact Margins.field_plain _ _ rfl

theorem entries_plain : ∀ piece ∈ w.entries.map Entry.chars, ∀ c ∈ piece, isPlain c = true := by
  intro piece hp
  obtain ⟨e, -, rfl⟩ := List.mem_map.mp hp
  exact e.chars_plain

/-- The fields that are read set the header, over any other. -/
theorem header_read : Header.read (bytes w.headerChars) = w.header := by
  obtain ⟨hd, ho, hb⟩ := w.positive
  have hread : Header.fields (bytes w.headerChars) =
      [⟨100, w.header.divisor⟩, ⟨111, w.header.octave.toUInt32⟩, ⟨98, w.header.tempo⟩] := by
    rw [Header.fields, headerChars, splitAt_joined w.fields_plain (by simp [fields])]
    simp only [fields, List.map_cons, List.map_nil]
    rw [List.filterMap_cons_some (Margins.read?_field _ _ rfl),
      List.filterMap_cons_some (Margins.read?_field _ _ rfl),
      List.filterMap_cons_some (Margins.read?_field _ _ rfl)]
    rfl
  have hoctave : UInt8.ofNat (min w.header.octave.toNat 255) = w.header.octave := by
    have hmin : min w.header.octave.toNat 255 = w.header.octave.toNat :=
      Nat.min_eq_left (Nat.le_of_lt_succ w.header.octave.toNat_lt)
    rw [hmin, UInt8.ofNat_toNat]
  have hpositive : w.header.octave.toUInt32 ≠ 0 := by
    intro h
    refine ho (UInt8.toNat_inj.mp ?_)
    simpa using congrArg UInt32.toNat h
  rw [Header.read, hread]
  simp [Header.set, hd, hb, hpositive, hoctave]

theorem pieces_notes : pieces (bytes w.notesChars) = w.entries.map fun e => bytes e.core := by
  cases hw : w.entries with
  | nil =>
    rw [notesChars, hw]
    rfl
  | cons e rest =>
    have hne : w.entries.map Entry.chars ≠ [] := by simp [hw]
    rw [pieces, notesChars, splitAt_joined w.entries_plain hne, ← hw]
    simp only [List.map_map, Function.comp_def, Entry.trimBy_chars]
    refine List.filter_eq_self.mpr fun piece hp => ?_
    obtain ⟨e, -, rfl⟩ := List.mem_map.mp hp
    simpa using e.bytes_core_ne_nil

theorem tokens_notes : tokens (bytes w.notesChars) = w.entries.map Entry.token := by
  rw [tokens, pieces_notes, List.filterMap_map]
  simp only [Function.comp_def, Entry.read?_core]
  exact congrFun List.filterMap_eq_map w.entries

theorem encode_text :
    encode w.text = bytes w.name.toList ++ colon :: (bytes w.headerChars ++ colon ::
      bytes w.notesChars) := by
  rw [encode_eq, text, String.toList_ofList]
  simp only [bytes_append, bytes_cons]
  rfl

/-- The three parts are told apart. -/
theorem parts_text :
    parts (encode w.text) =
      .ok ⟨bytes w.name.toList, bytes w.headerChars, bytes w.notesChars⟩ := by
  have hname : colon ∉ bytes w.name.toList :=
    fun hm => w.named.1 (mem_of_mem_bytes (by decide) rfl hm)
  have hheader : colon ∉ bytes w.headerChars := (not_mem_bytes_joined w.fields_plain).1
  rw [encode_text, parts, if_neg (by simp), atColon?_append hname]
  dsimp only
  rw [atColon?_append hheader]

theorem zero_not_mem_text : 0 ∉ encode w.text := by
  have hname : 0 ∉ bytes w.name.toList :=
    fun hm => w.named.2 (mem_of_mem_bytes (by decide) rfl hm)
  have hheader := (not_mem_bytes_joined w.fields_plain).2
  have hnotes := (not_mem_bytes_joined w.entries_plain).2
  rw [encode_text]
  simp only [List.mem_append, List.mem_cons, not_or]
  exact ⟨hname, by decide, hheader, by decide, hnotes⟩

/-- A tune is read back from its text as it was meant: the name without the white space around it,
the header, and every note under that header. -/
theorem read_text (settings : Settings)
    (room : (encode w.text).length ≤ settings.limits.bytes.toNat)
    (notes : w.entries.length ≤ settings.limits.notes.toNat) :
    Tune.read settings (.ram w.text) =
      .ok {
        name := String.ofList (trimBy isWhite w.name.toList)
        header := w.header
        notes := w.entries.map (Entry.note settings.range w.header)
        truncated := false } := by
  have hcapacity : w.entries.length ≤ capacity settings.limits :=
    Nat.le_trans notes (Nat.le_max_left ..)
  have hcopy := copy_ram w.zero_not_mem_text room
  have hnotes : (w.entries.map Entry.token).map (Token.note settings.range w.header) =
      w.entries.map (Entry.note settings.range w.header) := by
    rw [List.map_map]
    exact List.map_congr_left fun e _ => e.note_token settings.range w.positive.2.2
  have hwhole : (w.entries.map Entry.token).length ≤ capacity settings.limits := by
    simpa using hcapacity
  simp only [Tune.read, hcopy, parts_text, Except.map, ofParts, header_read, tokens_notes,
    trimBy_bytes, lossy_bytes, List.take_of_length_le hwhole, hnotes, Nat.not_lt.mpr hwhole]
  rfl

/-- A tune with an accent in its name, white space wherever it may stand, a dot on either side of
the octave and a rest. -/
def spaced : Writing where
  name := " Café\t"
  header := { divisor := 8, octave := 5, tempo := 120 }
  octaveMargins := { beforeKey := { chars := [' '] }, beforeSign := { chars := ['\t'] } }
  tempoMargins := { beforeValue := { chars := [' ', ' '] }, afterValue := { chars := [' '] } }
  entries := [
    { letter := 'C', before := { chars := [' '] } },
    { divisor := some 4, letter := 'D', sharp := true, octave := some 6,
      after := { chars := [' '] } },
    { letter := 'e', before := { chars := ['\r', '\n', ' '] } },
    { divisor := some 16, letter := 'P', sharp := true, octave := some 7,
      dot := some .afterOctave },
    { divisor := some 2, letter := 'c', octave := some 4, dot := some .beforeOctave }]
  named := by decide
  positive := by decide

/-- What is read is what was meant, and nothing of the white space is left. -/
theorem read_spaced :
    (encode spaced.text).length ≤ ({} : Settings).limits.bytes.toNat ∧
      spaced.entries.length ≤ ({} : Settings).limits.notes.toNat ∧
      spaced.text = " Café\t:d=8, o\t=5,b=  120 : C,4D#6 ,\r\n e,16P#7.,2c.4" ∧
      Tune.read {} (.ram spaced.text) =
        .ok {
          name := "Café"
          header := { divisor := 8, octave := 5, tempo := 120 }
          notes := [⟨524, 250⟩, ⟨1244, 500⟩, ⟨660, 250⟩, .rest 187, ⟨262, 1500⟩]
          truncated := false } := by
  have room : (encode spaced.text).length ≤ ({} : Settings).limits.bytes.toNat := by
    rw [encode_text]
    decide
  have notes : spaced.entries.length ≤ ({} : Settings).limits.notes.toNat := by decide
  refine ⟨room, notes, by decide, ?_⟩
  rw [read_text spaced {} room notes]
  decide

end Writing

end Piezo.Tune
