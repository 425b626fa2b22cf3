import Piezo.Proofs.Pieces

/-!
Limits: what a limit takes away of a tune, it takes away at the end.

A limit on notes leaves the first of them, and the tune says so if there was one more. A limit on
bytes may fall anywhere, but as long as the notes begin before it, it leaves the name and the header
alone, adds no note, and changes none but the last that it leaves.
-/

namespace Piezo

namespace Settings

def withNotes (s : Settings) (notes : UInt64) : Settings :=
  { s with limits := { s.limits with notes } }

def withBytes (s : Settings) (bytes : UInt64) : Settings :=
  { s with limits := { s.limits with bytes } }

@[simp] theorem range_withBytes (s : Settings) (bytes : UInt64) :
    (s.withBytes bytes).range = s.range := rfl

@[simp] theorem capacity_withBytes (s : Settings) (bytes : UInt64) :
    Tune.capacity (s.withBytes bytes).limits = Tune.capacity s.limits := rfl

end Settings

namespace Tune

open Text Text.Utf8

namespace Source

variable {s : Source} {most : UInt64}

/-- What a source hands over if so many bytes are asked for. -/
def handed (s : Source) (limit : Nat) : List UInt8 :=
  match s with
  | .ram text => (beforeNul (encode text)).take limit
  | .flash reader address => (gatherAll reader address limit).bytes

/-- Whether more is handed over than may be kept, if one byte more than that is asked for. -/
def Exceeds (s : Source) (most : UInt64) : Prop :=
  most.toNat < (s.handed (min (most.toNat + 1) greatest)).length

theorem copy_cut_iff (s : Source) (most : UInt64) :
    (s.copy most).cut = true ↔ s.Exceeds most := by
  cases s <;> exact decide_eq_true_iff

theorem length_copy_le (s : Source) (most : UInt64) : (s.copy most).bytes.length ≤ most.toNat :=
  List.length_take_le ..

/-- A source that holds a text hands over more than may be kept if the text is longer. -/
theorem exceeds_iff_of_holds {run : List UInt8} (h : s.Holds run) :
    s.Exceeds most ↔ most.toNat < run.length := by
  rw [← copy_cut_iff, copy_of_holds h]
  exact decide_eq_true_iff

end Source

/-- The pieces looked at are those up to the last note there is room for. Any note after them is one
for which there is none. -/
theorem examined_spec (room : Nat) (pieces : List (List UInt8)) :
    ∃ rest, pieces = examined room pieces ++ rest ∧
      (examined room pieces).filterMap Token.read? =
        (pieces.filterMap Token.read?).take room ∧
      rest.filterMap Token.read? = (pieces.filterMap Token.read?).drop room := by
  induction pieces generalizing room with
  | nil => exact ⟨[], by cases room <;> simp [examined]⟩
  | cons piece pieces ih =>
    cases room with
    | zero => exact ⟨piece :: pieces, by simp [examined]⟩
    | succ room =>
      cases ht : Token.read? piece with
      | none =>
        obtain ⟨rest, hp, hf, hr⟩ := ih (room + 1)
        refine ⟨rest, ?_, ?_, ?_⟩
        · simpa [examined, ht] using hp
        · simp [examined, ht, hf]
        · rw [hr, List.filterMap_cons_none ht]
      | some token =>
        obtain ⟨rest, hp, hf, hr⟩ := ih room
        refine ⟨rest, ?_, ?_, ?_⟩
        · simpa [examined, ht] using hp
        · simp [examined, ht, hf]
        · rw [hr, List.filterMap_cons_some ht, List.drop_succ_cons]

theorem filterMap_ne_nil_iff {α β : Type} (f : α → Option β) (xs : List α) :
    xs.filterMap f ≠ [] ↔ ∃ x ∈ xs, (f x).isSome = true := by
  simp [List.filterMap_eq_nil_iff, Option.isSome_iff_ne_none]

/-- There is room for every note of a copy if there is no limit on them. -/
theorem length_tokens_of_copy {s : Source} {most : UInt64} {p : Parts}
    (h : parts (s.copy most).bytes = .ok p) : (tokens p.notes).length ≤ greatest := by
  have hcopy := s.length_copy_le most
  have hmost := most.toNat_lt
  have htokens := length_tokens_le p.notes
  rw [(parts_eq_ok.mp h).1] at hcopy
  simp only [List.length_append, List.length_cons] at hcopy
  simp only [greatest, UInt64.size]
  omega

/-- A limit on the notes leaves the first of them and all else as it is without that limit. The tune
is truncated if more text comes from the source than may be kept, or if there is a note for which
there is no room: one among the pieces after those that were looked at. -/
theorem cap_keeps_front (settings : Settings) (source : Source) (cap : UInt64)
    (positive : 1 ≤ cap) :
    let most := settings.limits.bytes
    let capped := read (settings.withNotes cap) source
    let uncapped := read (settings.withNotes (UInt64.ofNat greatest)) source
    (∀ run, source.Holds run → (source.Exceeds most ↔ most.toNat < run.length)) ∧
      (∀ error, capped = .error error ↔ uncapped = .error error) ∧
      ∀ tune whole, capped = .ok tune → uncapped = .ok whole →
        tune.name = whole.name ∧ tune.header = whole.header ∧
          tune.notes = whole.notes.take cap.toNat ∧
          (tune.truncated = true ↔ source.Exceeds most ∨ cap.toNat < whole.notes.length) ∧
          ∃ p rest, parts (source.copy most).bytes = .ok p ∧
            pieces p.notes = examined cap.toNat (pieces p.notes) ++ rest ∧
            tune.notes = ((examined cap.toNat (pieces p.notes)).filterMap Token.read?).map
              (Token.note settings.range whole.header) ∧
            (tune.truncated = true ↔
              source.Exceeds most ∨ ∃ piece ∈ rest, (Token.read? piece).isSome = true) := by
  intro most capped uncapped
  refine ⟨fun run h => Source.exceeds_iff_of_holds h, ?_⟩
  have hcapped : capped = (parts (source.copy most).bytes).map
      (ofParts (settings.withNotes cap) (source.copy most).cut) := rfl
  have huncapped : uncapped = (parts (source.copy most).bytes).map
      (ofParts (settings.withNotes (UInt64.ofNat greatest)) (source.copy most).cut) := rfl
  cases hp : parts (source.copy most).bytes with
  | error fault =>
    rw [hp] at hcapped huncapped
    rw [hcapped, huncapped]
    refine ⟨fun error => Iff.rfl, ?_⟩
    rintro tune whole ⟨⟩
  | ok p =>
    have hone := UInt64.le_iff_toNat_le.mp positive
    have hall := length_tokens_of_copy hp
    have hroom : capacity (settings.withNotes cap).limits = cap.toNat := Nat.max_eq_left hone
    have hevery : (tokens p.notes).length ≤
        capacity (settings.withNotes (UInt64.ofNat greatest)).limits := hall
    rw [hp] at hcapped huncapped
    rw [hcapped, huncapped]
    refine ⟨fun error => by simp [Except.map], ?_⟩
    rintro tune whole ⟨⟩ ⟨⟩
    obtain ⟨rest, hrest, hfront, hback⟩ := examined_spec cap.toNat (pieces p.notes)
    have flagged : ∀ more : Prop, (cap.toNat < (tokens p.notes).length ↔ more) →
        ((ofParts (settings.withNotes cap) (source.copy most).cut p).truncated = true ↔
          source.Exceeds most ∨ more) := by
      intro more hmore
      simp only [ofParts, hroom, Bool.or_eq_true, decide_eq_true_eq, Source.copy_cut_iff, hmore]
    have hnotes : (ofParts (settings.withNotes (UInt64.ofNat greatest)) (source.copy most).cut
        p).notes = (tokens p.notes).map (Token.note settings.range (Header.read p.header)) := by
      simp only [ofParts, List.take_of_length_le hevery]
      rfl
    refine ⟨rfl, rfl, ?_, flagged _ (by rw [hnotes, List.length_map]), p, rest, rfl, hrest, ?_,
      flagged _ ?_⟩
    · rw [hnotes, ← List.map_take]
      simp only [ofParts, hroom]
      rfl
    · rw [hfront]
      simp only [ofParts, hroom]
      rfl
    · rw [← filterMap_ne_nil_iff, hback, ne_eq, List.drop_eq_nil_iff, Nat.not_le]
      rfl

/-- Of three notes with malformed ones among them, the last is one too many. -/
theorem cap_keeps_front_among_malformed :
    let source := Source.ram "x::c,#,d, ,9,e"
    let tune : Tune := ⟨"x", {}, [⟨1048, 500⟩, ⟨1176, 500⟩], true⟩
    let whole : Tune := ⟨"x", {}, [⟨1048, 500⟩, ⟨1176, 500⟩, ⟨1320, 500⟩], false⟩
    (1 : UInt64) ≤ 2 ∧ read (({} : Settings).withNotes 2) source = .ok tune ∧
      read (({} : Settings).withNotes (UInt64.ofNat greatest)) source = .ok whole ∧
      tune.notes = whole.notes.take 2 ∧
      (tune.truncated = true ↔ source.Exceeds 255 ∨ 2 < whole.notes.length) ∧
      ¬ source.Exceeds 255 := by
  intro source tune whole
  have capped : read (({} : Settings).withNotes 2) source = .ok tune := by decide
  have uncapped : read (({} : Settings).withNotes (UInt64.ofNat greatest)) source = .ok whole := by
    decide
  obtain ⟨exceeds, -, keeps⟩ := cap_keeps_front {} source 2 (by decide)
  obtain ⟨-, -, hnotes, htruncated, -⟩ := keeps tune whole capped uncapped
  have short := (exceeds _ (Source.holds_ram "x::c,#,d, ,9,e" (by decide))).not.mpr (by decide)
  exact ⟨by decide, capped, uncapped, hnotes, htruncated, short⟩

/-- What is no note does not count, wherever it stands. -/
example : read (({} : Settings).withNotes 2) (.ram "x::c,d,#, ,9") =
    .ok ⟨"x", {}, [⟨1048, 500⟩, ⟨1176, 500⟩], false⟩ := by
  decide

/-- Lists that differ only after a common front agree as far as that goes, however many elements are
taken of each. -/
theorem take_agree {α : Type} (front : List α) {last : Option α} {rest : List α}
    (h : last.isSome = true → rest ≠ []) (n : Nat) :
    ((front ++ last.toList).take n).length ≤ ((front ++ rest).take n).length ∧
      ∀ i, i + 1 < ((front ++ last.toList).take n).length →
        ((front ++ last.toList).take n)[i]? = ((front ++ rest).take n)[i]? := by
  have hlast : last.toList.length ≤ 1 ∧ last.toList.length ≤ rest.length := by
    cases last with
    | none => simp
    | some a => exact ⟨Nat.le_refl 1, List.length_pos_iff.mpr (h rfl)⟩
  simp only [List.length_take, List.length_append]
  refine ⟨by omega, fun i hi => ?_⟩
  have hfront : i < front.length := by omega
  rw [List.getElem?_take_of_lt (by omega), List.getElem?_take_of_lt (by omega),
    List.getElem?_append_left hfront, List.getElem?_append_left hfront]

/-- If a text that is longer than what may be kept of it is read at all, the whole text can be read
too. The name and the header are the same, the cut adds no note, and only the last note that it
leaves may be another one. -/
theorem cut_loses_end (settings : Settings) (most room : UInt64) {source : Source}
    {run : List UInt8} (holds : source.Holds run) (longer : most.toNat < run.length)
    (roomy : run.length ≤ room.toNat) {tune : Tune}
    (reads : read (settings.withBytes most) source = .ok tune) :
    ∃ whole, read (settings.withBytes room) source = .ok whole ∧ whole.name = tune.name ∧
      whole.header = tune.header ∧ tune.truncated = true ∧
      tune.notes.length ≤ whole.notes.length ∧
      ∀ i, i + 1 < tune.notes.length → tune.notes[i]? = whole.notes[i]? := by
  have hcut : read (settings.withBytes most) source =
      (parts (run.take most.toNat)).map (ofParts (settings.withBytes most) true) := by
    rw [read, Source.copy_of_holds holds]
    simp only [Copy.ofRun, Settings.withBytes, longer, decide_true]
  have hwhole : read (settings.withBytes room) source =
      (parts run).map (ofParts (settings.withBytes room) false) := by
    rw [read, Source.copy_of_holds holds]
    simp only [Copy.ofRun, Settings.withBytes, List.take_of_length_le roomy,
      Nat.not_lt.mpr roomy, decide_false]
  rw [hcut] at reads
  cases hp : parts (run.take most.toNat) with
  | error error =>
    rw [hp] at reads
    cases reads
  | ok p =>
    have hparts := parts_append hp (run.drop most.toNat)
    rw [List.take_append_drop] at hparts
    obtain ⟨front, last, rest, hx, hy, hl⟩ :=
      tokens_isPrefix (List.prefix_append p.notes (run.drop most.toNat))
    rw [hp] at reads
    cases reads
    rw [hwhole, hparts]
    refine ⟨_, rfl, rfl, rfl, rfl, ?_⟩
    have agree := take_agree front hl (capacity settings.limits)
    rw [← hx, ← hy] at agree
    obtain ⟨length, same⟩ := agree
    simp only [ofParts, Settings.range_withBytes, Settings.capacity_withBytes, List.length_map,
      List.getElem?_map]
    exact ⟨length, fun i hi => by rw [same i hi]⟩

/-- A text with an accent in its name that is cut within the second note. -/
theorem cut_loses_end_within_note :
    let source := Source.ram "Café:o=5:8c,4d#6.,e"
    source.Holds (encode "Café:o=5:8c,4d#6.,e") ∧
      read (({} : Settings).withBytes 15) source =
        .ok ⟨"Café", { octave := 5 }, [⟨524, 250⟩, ⟨588, 500⟩], true⟩ ∧
      ∃ whole, read (({} : Settings).withBytes 22) source = .ok whole ∧ whole.name = "Café" ∧
        whole.header = { octave := 5 } ∧ 2 ≤ whole.notes.length ∧
        some ⟨524, 250⟩ = whole.notes[0]? := by
  intro source
  have holds : source.Holds (encode "Café:o=5:8c,4d#6.,e") :=
    Source.holds_ram "Café:o=5:8c,4d#6.,e" (by decide)
  have reads : read (({} : Settings).withBytes 15) source =
      .ok ⟨"Café", { octave := 5 }, [⟨524, 250⟩, ⟨588, 500⟩], true⟩ := by
    decide
  obtain ⟨whole, hwhole, name, header, -, longer, same⟩ :=
    cut_loses_end {} 15 22 holds (by decide) (by decide) reads
  exact ⟨holds, reads, whole, hwhole, name, header, longer, same 0 (by decide)⟩

end Tune

end Piezo
