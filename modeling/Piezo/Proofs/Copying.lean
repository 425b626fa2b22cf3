import Piezo.Proofs.Utf8
import Piezo.Tune

/-!
Copies: a tune's text is the same wherever it is kept. What is copied from program storage, window
by window, is what stands there before the first NUL, as it is in ordinary memory.
-/

namespace Piezo.Tune

open Text.Utf8

variable {bytes xs : List UInt8}

theorem beforeNul_append (h : 0 ∉ xs) (ys : List UInt8) :
    beforeNul (xs ++ ys) = xs ++ beforeNul ys :=
  List.takeWhile_append_of_pos fun _ hb => decide_eq_true fun he => h (he ▸ hb)

theorem beforeNul_of_not_mem (h : 0 ∉ xs) : beforeNul xs = xs := by
  simpa [beforeNul] using beforeNul_append h []

/-- The first NUL is where it ends. -/
theorem beforeNul_ended (h : 0 ∉ xs) (rest : List UInt8) : beforeNul (xs ++ 0 :: rest) = xs := by
  rw [beforeNul_append h]
  simp [beforeNul]

theorem beforeNul_append_of_mem (h : 0 ∈ xs) (ys : List UInt8) :
    beforeNul (xs ++ ys) = beforeNul xs := by
  obtain ⟨front, back, rfl, free⟩ := List.eq_append_cons_of_mem h
  rw [List.append_assoc, List.cons_append, beforeNul_ended free, beforeNul_ended free]

theorem length_beforeNul_lt (h : 0 ∈ xs) : (beforeNul xs).length < xs.length := by
  obtain ⟨front, back, rfl, free⟩ := List.eq_append_cons_of_mem h
  rw [beforeNul_ended free, List.length_append, List.length_cons]
  omega

theorem length_beforeNul_le (xs : List UInt8) : (beforeNul xs).length ≤ xs.length :=
  (List.takeWhile_sublist _).length_le

/-- The longest run at the front of bytes that is free of NUL. -/
structure LongestRun (bytes run : List UInt8) : Prop where
  front : run <+: bytes
  free : 0 ∉ run
  longest : ∀ other, other <+: bytes → 0 ∉ other → other.length ≤ run.length

theorem longestRun_beforeNul (bytes : List UInt8) : LongestRun bytes (beforeNul bytes) where
  front := List.takeWhile_prefix _
  free := by
    intro h
    simpa using List.all_eq_true.mp List.all_takeWhile 0 h
  longest := by
    rintro other ⟨rest, rfl⟩ h
    simp [beforeNul_append h]

/-- There is only one. -/
theorem LongestRun.eq_beforeNul {run : List UInt8} (h : LongestRun bytes run) :
    run = beforeNul bytes := by
  obtain ⟨rest, rfl⟩ := h.front
  have hrun := beforeNul_append h.free rest
  have hle := h.longest _ (longestRun_beforeNul _).front (longestRun_beforeNul _).free
  rw [hrun, List.length_append] at hle
  rw [hrun, List.eq_nil_of_length_eq_zero (l := beforeNul rest) (by omega), List.append_nil]

namespace Reader

theorem throughNul_of_not_mem (h : 0 ∉ xs) : throughNul xs = xs := by
  induction xs with
  | nil => rfl
  | cons b rest ih =>
    obtain ⟨hb, hrest⟩ := not_or.mp (mt List.mem_cons.mpr h)
    rw [throughNul, if_neg (Ne.symm hb), ih hrest]

theorem throughNul_ended (h : 0 ∉ xs) (rest : List UInt8) :
    throughNul (xs ++ 0 :: rest) = xs ++ [0] := by
  induction xs with
  | nil => rfl
  | cons b more ih =>
    obtain ⟨hb, hmore⟩ := not_or.mp (mt List.mem_cons.mpr h)
    rw [List.cons_append, throughNul, if_neg (Ne.symm hb), ih hmore, List.cons_append]

theorem throughNul_of_mem (h : 0 ∈ xs) :
    0 ∈ throughNul xs ∧ beforeNul (throughNul xs) = beforeNul xs := by
  obtain ⟨front, back, rfl, free⟩ := List.eq_append_cons_of_mem h
  rw [throughNul_ended free, beforeNul_ended free, beforeNul_ended free]
  exact ⟨by simp, rfl⟩

theorem length_throughNul_le (xs : List UInt8) : (throughNul xs).length ≤ xs.length := by
  induction xs with
  | nil => exact Nat.le_refl _
  | cons b rest ih =>
    rw [throughNul]
    split <;> simp [ih]

/-- The bytes that a reply counts for. -/
def reply (r : Reader) (number : Nat) (address : UInt64) (window : List UInt8) : List UInt8 :=
  (r.fill number address window).1.take (r.fill number address window).2

/-- A reader that hands out an image. It fills the window as far as the image goes, and may or may
not go on after a NUL. -/
structure HandsOut (r : Reader) (image : List UInt8) : Prop where
  whole : ∀ number address window, 0 ∉ (tail image address).take window.length →
    r.reply number address window = (tail image address).take window.length ∧
      (r.fill number address window).2 = ((tail image address).take window.length).length
  ended : ∀ number address window, 0 ∈ (tail image address).take window.length →
    0 ∈ r.reply number address window ∧
      beforeNul (r.reply number address window) =
        beforeNul ((tail image address).take window.length)

/-- A reply of bytes that fit in the window counts for just these. -/
theorem reply_of_read {r : Reader} {number : Nat} {address : UInt64} {window written : List UInt8}
    (h : r.read number address window = (written, written.length))
    (fits : written.length ≤ window.length) :
    r.reply number address window = written ∧
      (r.fill number address window).2 = written.length := by
  simp [reply, fill, h, List.take_of_length_le fits]

theorem image_handsOut (image : List UInt8) : (Reader.image image).HandsOut image := by
  have replies : ∀ number address window,
      (Reader.image image).reply number address window =
          throughNul ((tail image address).take window.length) ∧
        ((Reader.image image).fill number address window).2 =
          (throughNul ((tail image address).take window.length)).length := fun _ _ _ =>
    reply_of_read rfl (Nat.le_trans (length_throughNul_le _) (List.length_take_le _ _))
  constructor
  case whole =>
    intro number address window h
    simpa only [throughNul_of_not_mem h] using replies number address window
  case ended =>
    intro number address window h
    rw [(replies number address window).1]
    exact throughNul_of_mem h

theorem raw_handsOut (image : List UInt8) : (raw image).HandsOut image := by
  have replies : ∀ number address window,
      (raw image).reply number address window = (tail image address).take window.length ∧
        ((raw image).fill number address window).2 =
          ((tail image address).take window.length).length := fun _ _ _ =>
    reply_of_read rfl (List.length_take_le _ _)
  constructor
  case whole => exact fun number address window _ => replies number address window
  case ended =>
    intro number address window h
    rw [(replies number address window).1]
    exact ⟨h, rfl⟩

end Reader

variable {reader : Reader} {image : List UInt8}

/-- An address that stands still at the greatest one is past the end of any image. -/
theorem tail_saturating (fits : image.length ≤ greatest) (start : UInt64) (got : Nat) :
    Reader.tail image (UInt64.ofNat (min (start.toNat + got) greatest)) =
      image.drop (start.toNat + got) := by
  have hlt : min (start.toNat + got) greatest < UInt64.size := by
    simp only [greatest, UInt64.size]
    omega
  rw [Reader.tail, UInt64.toNat_ofNat_of_lt' hlt]
  by_cases h : start.toNat + got ≤ greatest
  · rw [Nat.min_eq_left h]
  · rw [List.drop_eq_nil_of_le (by omega), List.drop_eq_nil_of_le (by omega)]

/-- One more call, and what is read after it unless it is the last. The buffer keeps its size. -/
theorem gather_step (reader : Reader) (start : UInt64) {limit got : Nat} (buffer : List UInt8)
    (number : Nat) (more : got < limit) :
    let size := min (limit - got) windowSize
    let address := UInt64.ofNat (min (start.toNat + got) greatest)
    let c : Call := ⟨address, size, reader.reply number address (buffer.take size),
      decide ((reader.fill number address (buffer.take size)).2 < size)⟩
    ∃ after, after.length = buffer.length ∧
      gather reader start limit buffer number got =
        let rest :=
          if c.isLast then {} else gather reader start limit after (number + 1) (got + size)
        ⟨beforeNul c.bytes ++ rest.bytes, c :: rest.calls⟩ := by
  intro size address c
  refine ⟨(reader.fill number address (buffer.take size)).1 ++ buffer.drop size, ?_, ?_⟩
  · rw [List.length_append, Reader.length_fill, List.length_take, List.length_drop]
    omega
  · rw [gather, if_pos more]
    rfl

/-- What one more call adds: its reply as far as a NUL, and what is read after it unless it is the
last. -/
theorem gather_more (reader : Reader) (start : UInt64) {limit got : Nat} (buffer : List UInt8)
    (number : Nat) (more : got < limit) :
    let size := min (limit - got) windowSize
    let address := UInt64.ofNat (min (start.toNat + got) greatest)
    let reply := reader.reply number address (buffer.take size)
    ∃ after, after.length = buffer.length ∧
      (gather reader start limit buffer number got).bytes = beforeNul reply ++
        if 0 ∈ reply ∨ (reader.fill number address (buffer.take size)).2 < size then []
        else (gather reader start limit after (number + 1) (got + size)).bytes := by
  intro size address reply
  obtain ⟨after, hafter, step⟩ := gather_step reader start buffer number more
  refine ⟨after, hafter, ?_⟩
  rw [step]
  simp only [Call.isLast, Bool.or_eq_true, decide_eq_true_eq, apply_ite Gathered.bytes]
  rfl

/-- Of what may be taken, one window holds all that stands before a NUL within it. -/
theorem take_beforeNul_of_mem {rest : List UInt8} {size room : Nat} (h : size ≤ room)
    (hm : 0 ∈ rest.take size) : (beforeNul rest).take room = beforeNul (rest.take size) := by
  have hrun : beforeNul rest = beforeNul (rest.take size) := by
    rw [← beforeNul_append_of_mem hm (rest.drop size), List.take_append_drop]
  have hlt := length_beforeNul_lt hm
  have := List.length_take_le size rest
  rw [hrun, List.take_of_length_le (by omega)]

/-- Without a NUL within the window, what may be taken goes on after it. -/
theorem take_beforeNul_of_not_mem {rest : List UInt8} {size room : Nat} (h : size ≤ room)
    (hm : 0 ∉ rest.take size) :
    (beforeNul rest).take room =
      rest.take size ++ (beforeNul (rest.drop size)).take (room - size) := by
  have hrun : beforeNul rest = rest.take size ++ beforeNul (rest.drop size) := by
    rw [← beforeNul_append hm, List.take_append_drop]
  rw [hrun, List.take_append, List.take_of_length_le (by rw [List.length_take]; omega)]
  by_cases hfull : size ≤ rest.length
  · rw [List.length_take_of_le hfull]
  · rw [List.drop_eq_nil_of_le (by omega)]
    simp [beforeNul]

/-- Reading on from where the reading has got to, up to the limit, yields what the image has there
before its next NUL. -/
theorem gather_bytes (hands : reader.HandsOut image) (fits : image.length ≤ greatest)
    (start : UInt64) (limit : Nat) (buffer : List UInt8) (number got : Nat)
    (room : buffer.length = windowSize) :
    (gather reader start limit buffer number got).bytes =
      (beforeNul (image.drop (start.toNat + got))).take (limit - got) := by
  by_cases more : got < limit
  · obtain ⟨after, hafter, hbytes⟩ := gather_more reader start buffer number more
    have htail := tail_saturating fits start got
    generalize UInt64.ofNat (min (start.toNat + got) greatest) = address at htail hbytes
    generalize hs : min (limit - got) windowSize = size at hbytes
    have hsize : size ≤ limit - got ∧ 0 < size := by
      simp only [windowSize] at hs
      omega
    have ih := gather_bytes hands fits start limit after (number + 1) (got + size)
      (hafter.trans room)
    have hwindow : (buffer.take size).length = size := by
      rw [List.length_take]
      omega
    have whole := hands.whole number address (buffer.take size)
    have ended := hands.ended number address (buffer.take size)
    rw [htail, hwindow] at whole ended
    rw [hbytes]
    by_cases hm : 0 ∈ (image.drop (start.toNat + got)).take size
    · obtain ⟨hnul, hrun⟩ := ended hm
      rw [if_pos (.inl hnul), hrun, List.append_nil, take_beforeNul_of_mem hsize.1 hm]
    · obtain ⟨hreply, hcount⟩ := whole hm
      rw [take_beforeNul_of_not_mem hsize.1 hm, hreply, hcount, beforeNul_of_not_mem hm]
      congr 1
      split
      · next hlast =>
        -- The image ends within the window, so nothing of it is left.
        have hshort := hlast.resolve_left hm
        rw [List.length_take] at hshort
        rw [List.drop_eq_nil_of_le (by omega)]
        exact List.take_nil.symm
      · rw [ih, List.drop_drop, Nat.add_assoc, Nat.sub_sub]
  · rw [gather, if_neg more, Nat.sub_eq_zero_of_le (Nat.le_of_not_lt more), List.take_zero]
termination_by limit - got

/-- The copy of a run: as much of it as may be kept, and whether there is more. -/
def Copy.ofRun (run : List UInt8) (most : UInt64) : Copy :=
  ⟨run.take most.toNat, decide (most.toNat < run.length)⟩

/-- One byte more than may be kept tells whether there is more. Only where every count of bytes may
be kept is that byte not asked for. -/
theorem Copy.ofRun_take {run : List UInt8} (fits : run.length ≤ greatest) (most : UInt64) :
    Copy.ofRun (run.take (min (most.toNat + 1) greatest)) most = Copy.ofRun run most := by
  have hmost : most.toNat ≤ greatest := Nat.le_pred_of_lt most.toNat_lt
  simp only [ofRun, List.take_take, List.length_take, Copy.mk.injEq, decide_eq_decide]
  constructor
  · rw [Nat.min_eq_left (by omega)]
  · omega

namespace Source

theorem copy_ram_eq {text : String} (fits : (encode text).length ≤ greatest) (most : UInt64) :
    (ram text).copy most = .ofRun (beforeNul (encode text)) most :=
  Copy.ofRun_take (Nat.le_trans (length_beforeNul_le _) fits) most

theorem copy_flash_eq (hands : reader.HandsOut image) (fits : image.length ≤ greatest)
    (address most : UInt64) :
    (flash reader address).copy most = .ofRun (beforeNul (image.drop address.toNat)) most := by
  have hrun : (beforeNul (image.drop address.toNat)).length ≤ greatest := by
    refine Nat.le_trans (length_beforeNul_le _) (Nat.le_trans ?_ fits)
    rw [List.length_drop]
    exact Nat.sub_le ..
  have hbytes : (gatherAll reader address (min (most.toNat + 1) greatest)).bytes =
      (beforeNul (image.drop address.toNat)).take (min (most.toNat + 1) greatest) :=
    gather_bytes hands fits address _ _ 0 0 List.length_replicate
  rw [← Copy.ofRun_take hrun most, ← hbytes]
  rfl

/-- The text of a source is the longest run without NUL at the front of what is in memory, or of what
its reader hands out from the address on. -/
def Holds (s : Source) (run : List UInt8) : Prop :=
  match s with
  | .ram text => (encode text).length ≤ greatest ∧ LongestRun (encode text) run
  | .flash reader address => ∃ image, reader.HandsOut image ∧ image.length ≤ greatest ∧
      LongestRun (image.drop address.toNat) run

theorem holds_ram (text : String) (fits : (encode text).length ≤ greatest) :
    (ram text).Holds (beforeNul (encode text)) :=
  ⟨fits, longestRun_beforeNul _⟩

theorem holds_image (image : List UInt8) (address : UInt64) (fits : image.length ≤ greatest) :
    (flash (.image image) address).Holds (beforeNul (image.drop address.toNat)) :=
  ⟨image, Reader.image_handsOut image, fits, longestRun_beforeNul _⟩

theorem copy_of_holds {s : Source} {run : List UInt8} (h : s.Holds run) (most : UInt64) :
    s.copy most = .ofRun run most := by
  cases s with
  | ram text =>
    obtain ⟨fits, longest⟩ := h
    rw [longest.eq_beforeNul]
    exact copy_ram_eq fits most
  | flash reader address =>
    obtain ⟨image, hands, fits, longest⟩ := h
    rw [longest.eq_beforeNul]
    exact copy_flash_eq hands fits address most

/-- A text that a NUL ends in an image is copied as it is from ordinary memory. -/
theorem copy_flash_text (hands : reader.HandsOut image) (fits : image.length ≤ greatest)
    {text : String} (free : '\x00' ∉ text.toList) {before after : List UInt8} {address : UInt64}
    (lies : image = before ++ encode text ++ 0 :: after) (hb : address.toNat = before.length)
    (most : UInt64) :
    (flash reader address).copy most = (ram text).copy most := by
  have hnul : 0 ∉ encode text := fun hm => free (mem_of_mem_bytes (by decide) rfl hm)
  have htext : (encode text).length ≤ greatest := by
    simp only [lies, List.length_append] at fits
    omega
  have hdrop : image.drop address.toNat = encode text ++ 0 :: after := by
    rw [lies, hb, List.append_assoc, List.drop_left]
  rw [copy_ram_eq htext, copy_flash_eq hands fits, hdrop, beforeNul_ended hnul,
    beforeNul_of_not_mem hnul]

/-- Of an image that addresses reach, whether or not its reader stops after a NUL, as much is copied
as may be kept of the longest run without NUL that begins at the address, and the copy is cut exactly
if the run is longer than that. So a text that lies anywhere in an image, with a NUL after it, is
read as it is from ordinary memory. -/
theorem flash_like_ram (fits : image.length ≤ greatest)
    (hands : reader = .image image ∨ reader = .raw image) (address : UInt64) :
    (∀ most : UInt64, ∃ run, LongestRun (image.drop address.toNat) run ∧
        ((flash reader address).copy most).bytes = run.take most.toNat ∧
        (((flash reader address).copy most).cut = true ↔ most.toNat < run.length)) ∧
      ∀ (settings : Settings) (text : String) (before after : List UInt8),
        '\x00' ∉ text.toList → image = before ++ encode text ++ 0 :: after →
        address.toNat = before.length →
        read settings (.flash reader address) = read settings (.ram text) ∧
          notices settings (.flash reader address) = notices settings (.ram text) := by
  have hands : reader.HandsOut image := by
    rcases hands with rfl | rfl
    · exact Reader.image_handsOut image
    · exact Reader.raw_handsOut image
  constructor
  · intro most
    refine ⟨_, longestRun_beforeNul _, ?_⟩
    rw [copy_flash_eq hands fits]
    exact ⟨rfl, decide_eq_true_iff⟩
  · intro settings text before after free lies hb
    have copies := copy_flash_text hands fits free lies hb settings.limits.bytes
    refine ⟨?_, ?_⟩
    · simp only [Tune.read, copies]
    · simp only [Tune.notices, copies]

/-- An image with a text in it, between other bytes. -/
def shelf : List UInt8 := encode "xx" ++ encode "Nokia:d=4:c" ++ 0 :: encode "tail"

theorem flash_like_ram_on_shelf :
    ((flash (.raw shelf) 2).copy 5).bytes = encode "Nokia" ∧
      ((flash (.raw shelf) 2).copy 5).cut = true ∧
      ((flash (.image shelf) 99).copy 5).bytes = [] ∧
      read {} (.flash (.raw shelf) 2) = read {} (.ram "Nokia:d=4:c") := by
  have fits : shelf.length ≤ greatest := by decide
  obtain ⟨copies, reads⟩ := flash_like_ram fits (.inr rfl) 2
  obtain ⟨run, longest, kept, cut⟩ := copies 5
  have hrun : run = encode "Nokia:d=4:c" := longest.eq_beforeNul
  subst hrun
  obtain ⟨beyond, -⟩ := flash_like_ram fits (.inl rfl) 99
  obtain ⟨absent, empty, nothing, -⟩ := beyond 5
  have habsent : absent = [] := empty.eq_beforeNul
  subst habsent
  exact ⟨kept, cut.mpr (by decide), nothing,
    (reads {} "Nokia:d=4:c" (encode "xx") (encode "tail") (by decide) rfl rfl).1⟩

end Source

end Piezo.Tune
