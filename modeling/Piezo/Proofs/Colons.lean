import Piezo.Proofs.Pieces

/-!
Colons: whether a text can be read depends on its first two colons alone.

They are looked for in the copy, so a colon after a NUL or beyond the limit is none. What stands
before the first is the name. As the copy is a beginning of the text, a name that is read is whole,
and no character of it is lost on the way through its bytes.
-/

namespace Piezo

namespace Text

/-- What is trimmed off a list stands at its ends, and what is left neither begins nor ends with
anything that could be trimmed. -/
theorem trimBy_spec {α : Type} (p : α → Bool) (xs : List α) :
    ∃ lead trail, xs = lead ++ trimBy p xs ++ trail ∧ (∀ x ∈ lead ++ trail, p x = true) ∧
      (∀ x ∈ (trimBy p xs).head?, p x = false) ∧ ∀ x ∈ (trimBy p xs).getLast?, p x = false := by
  have lead := List.takeWhile_append_dropWhile (p := p) (l := xs)
  have trail := List.takeWhile_append_dropWhile (p := p) (l := (xs.dropWhile p).reverse)
  have whole : trimBy p xs ++ ((xs.dropWhile p).reverse.takeWhile p).reverse = xs.dropWhile p := by
    rw [trimBy, ← List.reverse_append, trail, List.reverse_reverse]
  refine ⟨xs.takeWhile p, ((xs.dropWhile p).reverse.takeWhile p).reverse, ?_, ?_, ?_, ?_⟩
  · rw [List.append_assoc, whole, lead]
  · intro x hx
    rcases List.mem_append.mp hx with hx | hx
    · exact List.mem_takeWhile_imp hx
    · exact List.mem_takeWhile_imp (List.mem_reverse.mp hx)
  · intro x hx
    exact not_of_mem_head?_dropWhile (mem_head?_of_isPrefix ⟨_, whole⟩ hx)
  · intro x hx
    rw [trimBy, List.getLast?_reverse] at hx
    exact not_of_mem_head?_dropWhile hx

end Text

namespace Tune

open Text Text.Utf8

theorem atColon?_eq_none {bytes : List UInt8} : atColon? bytes = none ↔ colon ∉ bytes := by
  constructor
  · intro h hm
    obtain ⟨front, rest, rfl, free⟩ := List.eq_append_cons_of_mem hm
    rw [atColon?_append free] at h
    cases h
  · intro h
    cases hc : atColon? bytes with
    | none => rfl
    | some split =>
      obtain ⟨rfl, -⟩ := atColon?_eq_some.mp hc
      exact absurd (by simp) h

/-- The first colon is one of those that are counted. -/
theorem count_colon_append {front : List UInt8} (h : colon ∉ front) (rest : List UInt8) :
    (front ++ colon :: rest).count colon = rest.count colon + 1 := by
  rw [List.count_append, List.count_eq_zero_of_not_mem h, List.count_cons_self, Nat.zero_add]

/-- What comes of a text by the number of its colons. -/
theorem parts_cases (bytes : List UInt8) :
    (bytes = [] ∧ parts bytes = .error .emptyNotation) ∨
      (bytes ≠ [] ∧ bytes.count colon = 0 ∧ parts bytes = .error (.missingPart .header)) ∨
      (bytes.count colon = 1 ∧ parts bytes = .error (.missingPart .notes)) ∨
      (2 ≤ bytes.count colon ∧ ∃ p, parts bytes = .ok p) := by
  by_cases empty : bytes = []
  · exact .inl ⟨empty, by rw [parts, if_pos empty]⟩
  right
  unfold parts
  rw [if_neg empty]
  cases first : atColon? bytes with
  | none => exact .inl ⟨empty, List.count_eq_zero_of_not_mem (atColon?_eq_none.mp first), rfl⟩
  | some split =>
    obtain ⟨name, rest⟩ := split
    obtain ⟨rfl, hname⟩ := atColon?_eq_some.mp first
    right
    rw [count_colon_append hname]
    dsimp only
    cases second : atColon? rest with
    | none =>
      rw [List.count_eq_zero_of_not_mem (atColon?_eq_none.mp second)]
      exact .inl ⟨rfl, rfl⟩
    | some split =>
      obtain ⟨header, notes⟩ := split
      obtain ⟨rfl, hheader⟩ := atColon?_eq_some.mp second
      rw [count_colon_append hheader]
      exact .inr ⟨by omega, _, rfl⟩

/-- Each of these happens on no other condition. -/
theorem parts_iff (bytes : List UInt8) :
    (parts bytes = .error .emptyNotation ↔ bytes = []) ∧
      (parts bytes = .error (.missingPart .header) ↔ bytes ≠ [] ∧ bytes.count colon = 0) ∧
      (parts bytes = .error (.missingPart .notes) ↔ bytes.count colon = 1) ∧
      ((∃ p, parts bytes = .ok p) ↔ 2 ≤ bytes.count colon) := by
  rcases parts_cases bytes with ⟨rfl, hp⟩ | ⟨nonempty, none, hp⟩ | ⟨one, hp⟩ | ⟨more, p, hp⟩
  · simp [hp]
  · simp [hp, nonempty, none]
  · have nonempty : bytes ≠ [] := by
      rintro rfl
      cases one
    simp [hp, nonempty, one]
  · have nonempty : bytes ≠ [] := by
      rintro rfl
      cases more
    simp [hp, nonempty, more]
    omega

section Read

variable {settings : Settings} {source : Source}

theorem read_eq_error {error : Error} :
    read settings source = .error error ↔
      parts (source.copy settings.limits.bytes).bytes = .error error := by
  cases hp : parts (source.copy settings.limits.bytes).bytes <;> simp [read, hp, Except.map]

theorem read_eq_ok {tune : Tune} :
    read settings source = .ok tune ↔
      ∃ p, parts (source.copy settings.limits.bytes).bytes = .ok p ∧
        ofParts settings (source.copy settings.limits.bytes).cut p = tune := by
  cases hp : parts (source.copy settings.limits.bytes).bytes <;> simp [read, hp, Except.map]

end Read

/-- Reading fails for a part that is missing from the copy, and for nothing else: what is malformed
in the header or among the notes is passed over. The name is made of the bytes before the first
colon of the copy, and the notes, under the header between the colons, of those after the second.
The copy of a text is as much as may be kept of what stands before its first NUL. -/
theorem read_fails_without_colons (settings : Settings) (source : Source) :
    let copy := (source.copy settings.limits.bytes).bytes
    (∀ run, source.Holds run → copy = run.take settings.limits.bytes.toNat) ∧
      (read settings source = .error .emptyNotation ↔ copy = []) ∧
      (read settings source = .error (.missingPart .header) ↔
        copy ≠ [] ∧ copy.count colon = 0) ∧
      (read settings source = .error (.missingPart .notes) ↔ copy.count colon = 1) ∧
      ((∃ tune, read settings source = .ok tune) ↔ 2 ≤ copy.count colon) ∧
      ∀ tune, read settings source = .ok tune →
        ∃ name header notes, copy = name ++ colon :: (header ++ colon :: notes) ∧
          colon ∉ name ∧ colon ∉ header ∧ tune.name = lossy (trimBy isSpace name) ∧
          tune.header = Header.read header ∧
          tune.notes = ((tokens notes).take (capacity settings.limits)).map
            (Token.note settings.range tune.header) := by
  intro copy
  obtain ⟨empty, headless, noteless, whole⟩ := parts_iff copy
  refine ⟨fun run holds => congrArg Copy.bytes (Source.copy_of_holds holds _),
    read_eq_error.trans empty, read_eq_error.trans headless, read_eq_error.trans noteless, ?_, ?_⟩
  · rw [← whole]
    constructor
    · rintro ⟨tune, reads⟩
      obtain ⟨p, hp, -⟩ := read_eq_ok.mp reads
      exact ⟨p, hp⟩
    · rintro ⟨p, hp⟩
      exact ⟨_, read_eq_ok.mpr ⟨p, hp, rfl⟩⟩
  · intro tune reads
    obtain ⟨p, hp, rfl⟩ := read_eq_ok.mp reads
    obtain ⟨hcopy, hname, hheader⟩ := parts_eq_ok.mp hp
    exact ⟨p.name, p.header, p.notes, hcopy, hname, hheader, rfl, rfl, rfl⟩

/-- A limit that leaves one colon of two, a NUL before the second, and a text with both of which
neither a field nor a note can be read. -/
theorem read_fails_without_colons_in_sight :
    let text := Source.ram "x:d=4,o=5,b=120:c,d"
    let cut : Settings := { limits := { bytes := 12 } }
    let image := encode "x:d=4" ++ 0 :: encode ":c"
    let ended := Source.flash (.image image) 0
    text.Holds (encode "x:d=4,o=5,b=120:c,d") ∧
      (text.copy 12).bytes = encode "x:d=4,o=5,b=" ∧
      read cut text = .error (.missingPart .notes) ∧
      read {} ended = .error (.missingPart .notes) ∧
      ∃ tune, read {} (.ram "x:=,d:#,:,9") = .ok tune := by
  intro text cut image ended
  have holds : text.Holds (encode "x:d=4,o=5,b=120:c,d") :=
    Source.holds_ram "x:d=4,o=5,b=120:c,d" (by decide)
  obtain ⟨copies, -, -, early, -⟩ := read_fails_without_colons cut text
  obtain ⟨stops, -, -, stopped, -⟩ := read_fails_without_colons {} ended
  obtain ⟨-, -, -, -, whole, -⟩ := read_fails_without_colons {} (.ram "x:=,d:#,:,9")
  have one : (ended.copy 255).bytes.count colon = 1 := by
    rw [stops _ (Source.holds_image image 0 (by decide))]
    decide
  exact ⟨holds, copies _ holds, early.mpr (by decide), stopped.mpr one, whole.mpr (by decide)⟩

/-- The copy of a text is a beginning of its bytes. -/
theorem copy_ram_isPrefix (text : String) (most : UInt64) :
    ((Source.ram text).copy most).bytes <+: encode text :=
  (List.take_prefix _ _).trans ((List.take_prefix _ _).trans (List.takeWhile_prefix _))

/-- The bytes before the first colon are those of the characters before it. -/
theorem exists_before_colon {cs : List Char} {front rest : List UInt8}
    (h : bytes cs = front ++ colon :: rest) (free : colon ∉ front) :
    ∃ before after, cs = before ++ ':' :: after ∧ ':' ∉ before ∧ front = bytes before := by
  have hm : ':' ∈ cs := mem_of_mem_bytes (b := colon) (by decide) rfl (by simp [h])
  obtain ⟨before, after, rfl, unmet⟩ := List.eq_append_cons_of_mem hm
  refine ⟨before, after, rfl, unmet, ?_⟩
  have hbefore : colon ∉ bytes before := fun hb => unmet (mem_of_mem_bytes (by decide) rfl hb)
  have split : atColon? (bytes (before ++ ':' :: after)) = some (bytes before, bytes after) := by
    rw [bytes_append]
    exact atColon?_append hbefore (bytes after)
  rw [h, atColon?_append free] at split
  exact congrArg Prod.fst (Option.some.inj split)

/-- A name that is read from a text in memory is what stands before its first colon, but for white
space at the ends: however little of the text may be kept, whatever its characters. -/
theorem name_kept (settings : Settings) (text : String) {tune : Tune}
    (reads : read settings (.ram text) = .ok tune) :
    ∃ before after, text.toList = before ++ ':' :: after ∧ ':' ∉ before ∧
      ∃ lead trail, before = lead ++ tune.name.toList ++ trail ∧
        (∀ c ∈ lead ++ trail, isWhite c = true) ∧
        (∀ c ∈ tune.name.toList.head?, isWhite c = false) ∧
        ∀ c ∈ tune.name.toList.getLast?, isWhite c = false := by
  obtain ⟨p, hp, rfl⟩ := read_eq_ok.mp reads
  obtain ⟨hcopy, free, -⟩ := parts_eq_ok.mp hp
  -- The copy may end within a character, but only in what follows the first colon.
  obtain ⟨more, hmore⟩ := copy_ram_isPrefix text settings.limits.bytes
  rw [hcopy, encode_eq, List.append_assoc, List.cons_append] at hmore
  obtain ⟨before, after, htext, unmet, hname⟩ := exists_before_colon hmore.symm free
  have name : (ofParts settings ((Source.ram text).copy settings.limits.bytes).cut p).name.toList =
      trimBy isWhite before := by
    rw [ofParts, hname, trimBy_bytes, lossy_bytes, String.toList_ofList]
  rw [name]
  exact ⟨before, after, htext, unmet, trimBy_spec isWhite before⟩

/-- A name of characters of two and three bytes, in a text that is cut within a later character. -/
theorem name_kept_before_cut :
    let text := " \tÑú €\n:d=8:c,é"
    let cut : Settings := { limits := { bytes := 19 } }
    read cut (.ram text) = .ok ⟨"Ñú €", { divisor := 8 }, [⟨1048, 250⟩], true⟩ ∧
      ∃ before after, text.toList = before ++ ':' :: after ∧ ':' ∉ before ∧
        ∃ lead trail, before = lead ++ "Ñú €".toList ++ trail ∧
          ∀ c ∈ lead ++ trail, isWhite c = true := by
  intro text cut
  have reads : read cut (.ram text) = .ok ⟨"Ñú €", { divisor := 8 }, [⟨1048, 250⟩], true⟩ := by
    decide
  obtain ⟨before, after, htext, unmet, lead, trail, split, white, -⟩ := name_kept cut text reads
  exact ⟨reads, before, after, htext, unmet, lead, trail, split, white⟩

end Tune

end Piezo
