import Mathlib.Algebra.Group.Nat.Defs
import Piezo.Wave.Export

/-!
Exports read back. A reader of the written file, which goes by its header, finds every rendered
sample once for each channel as a 16-bit integer, those before the fade as loud as they were; and no
file comes of a format that cannot be written.
-/

namespace Piezo.Wave

/-- The number that bytes spell, the least byte first. -/
def spelled : List UInt8 → Nat
  | [] => 0
  | b :: rest => b.toNat + 256 * spelled rest

/-- The words of two bytes each, the low byte first. -/
def words : List UInt8 → List Int16
  | low :: high :: rest => (UInt16.ofNat (spelled [low, high])).toInt16 :: words rest
  | _ => []

def wordBytes (s : Int16) : List UInt8 := littleEndian 2 s.toUInt16.toNat

/-- The samples in a file: after a header of 44 bytes, whose last four say how many bytes of samples
there are. -/
def samplesIn (file : ByteArray) : List Int16 :=
  let bytes := file.data.toList
  words ((bytes.drop 44).take (spelled ((bytes.drop 40).take 4)))

/-- A sample as a 16-bit integer, with 32767 for full scale. What is louder than full scale is cut
to it, and a fraction is dropped. -/
def pcm (sample : Float32) : Int16 :=
  let level := if sample < -1.0 then -1.0 else if 1.0 < sample then 1.0 else sample
  (level * 32767.0).toInt16

namespace Format

/-- How many frames are less loud than the rest: those of the fade, cut down to a whole number. -/
def fading (format : Format) : Nat := (format.fade * format.rate.toFloat32).toUInt64.toNat

/-- A sample of so many, of which `i` have gone before. Those of the fade, at the end, lose an equal
part more each. -/
def attenuated (format : Format) (size i : Nat) (sample : Float32) : Float32 :=
  if 0.0 < format.fade ∧ size - format.fading ≤ i then
    let gone := (i - (size - format.fading)).toUInt64.toFloat32
    sample * (1.0 - gone / format.fading.toUInt64.toFloat32)
  else sample

/-- What is to be found in a file: the samples of a sound in order, each once for every channel. -/
def frames (format : Format) (sound : Array Float32) : List Int16 :=
  (sound.toList.mapIdx fun i sample => pcm (format.attenuated sound.size i sample)).flatMap
    (List.replicate format.channels.toNat)

end Format

section Bytes

theorem length_littleEndian (width n : Nat) : (littleEndian width n).length = width := by
  induction width generalizing n with
  | zero => rfl
  | succ width ih => rw [littleEndian, List.length_cons, ih]

theorem spelled_littleEndian (width n : Nat) :
    spelled (littleEndian width n) = n % 256 ^ width := by
  induction width generalizing n with
  | zero => simp [littleEndian, spelled, Nat.mod_one]
  | succ width ih =>
    have hb : n % 256 % 2 ^ 8 = n % 256 := Nat.mod_eq_of_lt (Nat.mod_lt n (by decide))
    rw [littleEndian, spelled, ih, UInt8.toNat_ofNat', hb, Nat.pow_succ', Nat.mod_mul]

theorem length_header (rate : UInt32) (channels : UInt16) (size : Nat) :
    (header rate channels size).length = 44 := by
  simp [header, ascii, length_littleEndian]

/-- The last four bytes of a header spell the size of what follows it. -/
theorem header_size (rate : UInt32) (channels : UInt16) (size : Nat) :
    (header rate channels size).drop 40 = littleEndian 4 size := by
  unfold header
  rw [List.drop_left' (by simp [ascii, length_littleEndian])]

/-- A word takes two bytes, the low one first. -/
theorem data_pushWord (done : ByteArray) (word : UInt16) :
    (File.pushWord done word).data.toList = done.data.toList ++ littleEndian 2 word.toNat := by
  have low : word.toUInt8 = UInt8.ofNat (word.toNat % 256) := by
    rw [← UInt8.toNat_inj]
    simp
  have high : (word >>> 8).toUInt8 = UInt8.ofNat (word.toNat / 256 % 256) := by
    rw [← UInt8.toNat_inj]
    simp [Nat.shiftRight_eq_div_pow]
  simp [File.pushWord, littleEndian, low, high]

theorem data_bytes (f : File) :
    f.bytes.data.toList = header f.rate f.channels (f.samples.size * 2) ++
      f.samples.toList.flatMap wordBytes := by
  have pushed : ∀ (samples : List Int16) (done : ByteArray),
      (samples.foldl (fun done s => File.pushWord done s.toUInt16) done).data.toList =
        done.data.toList ++ samples.flatMap wordBytes := by
    intro samples
    induction samples with
    | nil => simp
    | cons s rest ih =>
      intro done
      rw [List.foldl_cons, ih, data_pushWord, List.flatMap_cons, List.append_assoc, wordBytes]
  rw [File.bytes, ← Array.foldl_toList, pushed, List.toList_data_toByteArray]

theorem words_cons (s : Int16) (rest : List UInt8) :
    words (wordBytes s ++ rest) = s :: words rest := by
  have word : UInt16.ofNat (spelled (wordBytes s)) = s.toUInt16 := by
    have small : s.toUInt16.toNat < 256 ^ 2 := s.toUInt16.toNat_lt
    rw [wordBytes, spelled_littleEndian, Nat.mod_eq_of_lt small, UInt16.ofNat_toNat]
  unfold wordBytes at word ⊢
  simp only [littleEndian, List.cons_append, List.nil_append] at word ⊢
  rw [words, word, Int16.toInt16_toUInt16]

theorem words_flatMap (samples : List Int16) : words (samples.flatMap wordBytes) = samples := by
  induction samples with
  | nil => rfl
  | cons s rest ih => rw [List.flatMap_cons, words_cons, ih]

theorem length_samples (samples : List Int16) :
    (samples.flatMap wordBytes).length = 2 * samples.length := by
  induction samples with
  | nil => rfl
  | cons s rest ih =>
    rw [List.flatMap_cons, List.length_append, ih, wordBytes, length_littleEndian, List.length_cons]
    omega

theorem size_bytes (f : File) : f.bytes.size = 44 + 2 * f.samples.size := by
  rw [← ByteArray.size_data, ← Array.length_toList, data_bytes, List.length_append, length_header,
    length_samples, Array.length_toList]

/-- As long as the header can say how long it is, a file is read as it was written. -/
theorem samplesIn_bytes (f : File) (room : 2 * f.samples.size < UInt32.size) :
    samplesIn f.bytes = f.samples.toList := by
  have body : f.bytes.data.toList.drop 44 =
      f.samples.toList.flatMap wordBytes := by
    rw [data_bytes, List.drop_left' (length_header ..)]
  have size : spelled ((f.bytes.data.toList.drop 40).take 4) = 2 * f.samples.size := by
    rw [data_bytes, List.drop_append_of_le_length (by rw [length_header]; decide), header_size,
      List.take_left' (length_littleEndian ..), spelled_littleEndian, Nat.mul_comm]
    exact Nat.mod_eq_of_lt room
  unfold samplesIn
  simp only [body, size]
  have whole : (f.samples.toList.flatMap wordBytes).length ≤ 2 * f.samples.size :=
    Nat.le_of_eq (by rw [length_samples, Array.length_toList])
  rw [List.take_of_length_le whole, words_flatMap]

end Bytes

section Frames

variable {format : Format}

theorem flatMap_replicate_one {α : Type} (xs : List α) : xs.flatMap (List.replicate 1) = xs :=
  List.flatMap_singleton' xs

theorem length_flatMap_replicate {α : Type} (n : Nat) (xs : List α) :
    (xs.flatMap (List.replicate n)).length = n * xs.length := by
  induction xs with
  | nil => rfl
  | cons x rest ih =>
    rw [List.flatMap_cons, List.length_append, ih, List.length_replicate, List.length_cons,
      Nat.mul_succ, Nat.add_comm]

/-- The first frames have all their samples in front. -/
theorem take_flatMap_replicate {α : Type} (n count : Nat) (xs : List α) :
    (xs.flatMap (List.replicate n)).take (n * count) =
      (xs.take count).flatMap (List.replicate n) := by
  induction xs generalizing count with
  | nil => simp
  | cons x rest ih =>
    cases count with
    | zero => simp
    | succ count =>
      have split : n * (count + 1) = (List.replicate n x).length + n * count := by
        rw [List.length_replicate, Nat.mul_succ, Nat.add_comm]
      rw [List.flatMap_cons, split, List.take_length_add_append, ih, List.take_succ_cons,
        List.flatMap_cons]

theorem quantize_eq_pcm (sample : Float32) : quantize sample = pcm sample := by
  have bounds : ¬ (1.0 : Float32) < -1.0 := by decide
  unfold quantize clamp pcm
  by_cases low : sample < -1.0
  · simp only [low, bounds, if_true, if_false]
  · simp only [low, if_false]

theorem fadeLength_eq (format : Format) :
    fadeLength format.fade format.rate = format.fading := rfl

theorem toList_fadeOut (format : Format) (sound : Array Float32) :
    (fadeOut sound format.fade format.rate).toList =
      sound.toList.mapIdx (format.attenuated sound.size) := by
  unfold fadeOut
  split
  · next fades =>
    rw [Array.toList_mapIdx]
    refine List.mapIdx_eq_mapIdx_iff.mpr fun i hi => ?_
    rw [Format.attenuated, ← fadeLength_eq]
    by_cases before : i < sound.size - fadeLength format.fade format.rate
    · rw [if_pos before, if_neg fun h => Nat.not_le.mpr before h.2]
    · rw [if_neg before, if_pos ⟨fades, Nat.not_lt.mp before⟩]
      rfl
  · next plain =>
    have same : format.attenuated sound.size = fun _ sample => sample := by
      funext i sample
      rw [Format.attenuated, if_neg fun h => plain h.1]
    rw [same]
    exact List.ext_getElem? fun i => by simp

theorem interleave_stereo (samples : Array Float32) :
    (interleave 2 samples).toList = samples.toList.flatMap (List.replicate 2) := by
  have pushed : ∀ (xs : List Float32) (done : Array Float32),
      (xs.foldl (fun done s => (done.push s).push s) done).toList =
        done.toList ++ xs.flatMap (List.replicate 2) := by
    intro xs
    induction xs with
    | nil => simp
    | cons x rest ih =>
      intro done
      rw [List.foldl_cons, ih, List.flatMap_cons]
      simp [List.replicate_succ]
  rw [interleave, if_pos rfl, ← Array.foldl_toList, pushed]
  rfl

/-- The samples of a file, as many for each frame as there are channels. -/
theorem samples_encode (h : format.channels = 1 ∨ format.channels = 2) (sound : Array Float32) :
    (encode format sound).samples.toList = format.frames sound := by
  have single : ((fadeOut sound format.fade format.rate).toList.map quantize) =
      sound.toList.mapIdx fun i sample => pcm (format.attenuated sound.size i sample) := by
    rw [toList_fadeOut]
    refine List.ext_getElem? fun i => ?_
    simp [Function.comp_def, quantize_eq_pcm]
  unfold encode Format.frames
  rw [Array.toList_map, ← single]
  rcases h with h | h
  · rw [h, UInt16.toNat_one, flatMap_replicate_one]
    rfl
  · rw [h, interleave_stereo, List.map_flatMap, List.flatMap_map]
    simp

theorem length_frames (format : Format) (sound : Array Float32) :
    (format.frames sound).length = format.channels.toNat * sound.size := by
  rw [Format.frames, length_flatMap_replicate, List.length_mapIdx, Array.length_toList]

/-- Before a fade nothing is changed. -/
theorem take_frames (format : Format) (sound : Array Float32) :
    let before := format.channels.toNat * (sound.size - format.fading)
    (format.frames sound).take before =
      (({ format with fade := 0.0 } : Format).frames sound).take before := by
  have silent : ¬ (0.0 : Float32) < 0.0 := by decide
  intro before
  unfold Format.frames
  rw [take_flatMap_replicate, take_flatMap_replicate]
  refine congrArg _ (List.ext_getElem? fun i => ?_)
  rw [List.getElem?_take, List.getElem?_take]
  split
  · next hi =>
    rw [List.getElem?_mapIdx, List.getElem?_mapIdx]
    simp only [Format.attenuated, silent, Nat.not_le.mpr hi, false_and, and_false, if_false]
  · rfl

end Frames

/-- A format that can be written, with room in its header for the length of so many frames. -/
structure Format.Takes (format : Format) (frames : Nat) : Prop where
  rate : format.rate ≠ 0
  channels : format.channels = 1 ∨ format.channels = 2
  room : 36 + 2 * (format.channels.toNat * frames) < UInt32.size

/-- An export makes a file, whatever its path, in which a reader finds these samples and no more. -/
def Exports (r : Recording) (c : Channel) (format : Format) (samples : List Int16) : Prop :=
  ∀ path, ∃ file, (exportTo r c format path true).result = .ok file ∧
    file.bytes.size = 44 + 2 * samples.length ∧ samplesIn file.bytes = samples

section Export

variable {r : Recording} {c : Channel} {format : Format}

theorem Format.check_eq (format : Format) :
    format.check =
      if format.rate = 0 ∨ ¬ (format.channels = 1 ∨ format.channels = 2) then
        .error (.settings (.exportFormat format.rate format.channels))
      else .ok () := by
  have count : (format.channels = 0 ∨ 2 < format.channels) ↔
      ¬ (format.channels = 1 ∨ format.channels = 2) := by
    simp only [← UInt16.toNat_inj, UInt16.lt_iff_toNat_lt, UInt16.reduceToNat]
    omega
  simp only [check, count]

theorem exports_of_takes (h : format.Takes (render r c format.rate format.volume).size) :
    Exports r c format (format.frames (render r c format.rate format.volume)) := by
  intro path
  have good : ¬ (format.rate = 0 ∨ ¬ (format.channels = 1 ∨ format.channels = 2)) := by
    simp [h.rate, h.channels]
  have hcheck : format.check = .ok () := by rw [format.check_eq, if_neg good]
  have hlist := samples_encode h.channels (render r c format.rate format.volume)
  have hsize : (encode format (render r c format.rate format.volume)).samples.size =
      format.channels.toNat * (render r c format.rate format.volume).size := by
    rw [← Array.length_toList, hlist, length_frames]
  refine ⟨encode format (render r c format.rate format.volume), ?_, ?_, ?_⟩
  · simp only [exportTo, hcheck, if_true]
  · rw [size_bytes, ← hlist, Array.length_toList]
  · have room := h.room
    rw [samplesIn_bytes _ (by omega), hlist]

end Export

/-- A format with one channel or two and a rate above zero makes a file of the rendered samples, as
many for each channel as there are. Those before the frames of the fade are what they are without a
fade, and in stereo each sample of the mono file stands twice in a row. Any other format is refused,
and no file is made. -/
theorem export_carries_sound (r : Recording) (c : Channel) (format : Format) :
    let sound := render r c format.rate format.volume
    let plain : Format := { format with fade := 0.0 }
    let mono : Format := { format with channels := 1 }
    let stereo : Format := { format with channels := 2 }
    let before := format.channels.toNat * (sound.size - format.fading)
    (format.Takes sound.size →
        Exports r c format (format.frames sound) ∧
          (format.frames sound).length = format.channels.toNat * sound.size ∧
          Exports r c plain (plain.frames sound) ∧
          (format.frames sound).take before = (plain.frames sound).take before) ∧
      (stereo.Takes sound.size →
        Exports r c mono (mono.frames sound) ∧
          Exports r c stereo ((mono.frames sound).flatMap fun s => [s, s])) ∧
      (format.rate = 0 ∨ ¬ (format.channels = 1 ∨ format.channels = 2) → ∀ path canCreate,
        exportTo r c format path canCreate =
          ⟨.error (.settings (.exportFormat format.rate format.channels)), []⟩) := by
  intro sound plain mono stereo before
  refine ⟨fun takes => ?_, fun takes => ?_, fun bad path canCreate => ?_⟩
  · have plainTakes : plain.Takes sound.size := ⟨takes.rate, takes.channels, takes.room⟩
    exact ⟨exports_of_takes takes, length_frames format sound, exports_of_takes plainTakes,
      take_frames format sound⟩
  · have monoTakes : mono.Takes sound.size := by
      have room := takes.room
      simp only [stereo, mono, UInt16.reduceToNat] at room ⊢
      exact ⟨takes.rate, .inl rfl, by simp only [UInt16.reduceToNat]; omega⟩
    have twice : stereo.frames sound = (mono.frames sound).flatMap fun s => [s, s] := by
      unfold Format.frames
      rw [show mono.channels.toNat = 1 from rfl, flatMap_replicate_one]
      rfl
    exact ⟨exports_of_takes monoTakes, twice ▸ exports_of_takes takes⟩
  · simp only [exportTo, format.check_eq, if_pos bad]

/-- A tone of 10 ms in stereo, which fades out over its second half; and three channels. -/
theorem export_carries_sound_fading :
    let r : Recording := ({} : Recording).perform (.emit ⟨0⟩ 440) |>.advance 10
    let fading : Format := { rate := 8000, channels := 2, fade := 0.005 }
    let plain : Format := { fading with fade := 0.0 }
    let mono : Format := { fading with channels := 1 }
    let sound := render r ⟨0⟩ fading.rate fading.volume
    Exports r ⟨0⟩ fading (fading.frames sound) ∧ (fading.frames sound).length = 160 ∧
      Exports r ⟨0⟩ plain (plain.frames sound) ∧
      (fading.frames sound).take 80 = (plain.frames sound).take 80 ∧
      Exports r ⟨0⟩ fading ((mono.frames sound).flatMap fun s => [s, s]) ∧
      exportTo r ⟨0⟩ { fading with channels := 3 } "tone.wav" true =
        ⟨.error (.settings (.exportFormat 8000 3)), []⟩ := by
  intro r fading plain mono sound
  have size : sound.size = 80 := by decide
  have count : fading.channels.toNat * (sound.size - fading.fading) = 80 := by
    rw [size]
    decide
  have takes : fading.Takes sound.size := by
    rw [size]
    exact ⟨by decide, by decide, by decide⟩
  obtain ⟨faded, stereo, -⟩ := export_carries_sound r ⟨0⟩ fading
  obtain ⟨carries, length, carriesPlain, front⟩ := faded takes
  refine ⟨carries, ?_, carriesPlain, ?_, (stereo takes).2, ?_⟩
  · rw [length]
    exact congrArg (2 * ·) size
  · exact count ▸ front
  · exact (export_carries_sound r ⟨0⟩ { fading with channels := 3 }).2.2 (by decide) _ _

end Piezo.Wave
