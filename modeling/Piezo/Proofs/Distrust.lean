import Mathlib.Algebra.GroupWithZero.Nat
import Piezo.Proofs.Copying

/-!
Reading without trust. Whatever a reader writes over its window and whatever it reports, only so
many calls are made as it takes windows to cover the limit, each asks for no more than a window
holds, and nothing is taken from a buffer that it does not hold.
-/

namespace Piezo.Tune

/-- How many bytes the replies to calls count for. -/
def Call.gathered (calls : List Call) : Nat := (calls.map (·.bytes.length)).sum

variable {reader : Reader} {start : UInt64} {limit number got : Nat} {buffer : List UInt8}
  {c : Call} {g : Gathered}

namespace Reader

/-- A call that is made when so many bytes have been gathered, and what the reader replies. -/
structure Answers (reader : Reader) (start : UInt64) (limit number got : Nat) (c : Call) :
    Prop where
  less : got < limit
  size : c.size = min (limit - got) windowSize
  address : c.address.toNat = min (start.toNat + got) greatest
  replied : ∃ window, window.length = c.size ∧ c.bytes = reader.reply number c.address window ∧
    (c.short = true ↔ (reader.fill number c.address window).2 < c.size)

namespace Answers

theorem size_bounds (h : reader.Answers start limit number got c) :
    1 ≤ c.size ∧ c.size ≤ windowSize ∧ got + c.size ≤ limit := by
  have := h.less
  have := h.size
  simp only [windowSize] at *
  omega

/-- A reply that is not the last fills the window, and there is no NUL in it. -/
theorem of_not_isLast (h : reader.Answers start limit number got c) (more : c.isLast = false) :
    c.bytes.length = c.size ∧ 0 ∉ c.bytes := by
  simp only [Call.isLast, Bool.or_eq_false_iff, decide_eq_false_iff_not] at more
  obtain ⟨window, hw, hb, hs⟩ := h.replied
  have whole : ¬ (reader.fill number c.address window).2 < c.size := by simp [← hs, more.2]
  refine ⟨?_, more.1⟩
  rw [hb, reply, List.length_take, length_fill, hw]
  omega

end Answers

/-- What is read from where a reading has got to: nothing once the limit is reached, and nothing
after the last call. -/
inductive Reads (reader : Reader) (start : UInt64) (limit : Nat) : Nat → Nat → Gathered → Prop where
  | full {number got : Nat} (enough : limit ≤ got) : Reads reader start limit number got {}
  | last {number got : Nat} {c : Call} (answers : reader.Answers start limit number got c)
    (isLast : c.isLast = true) : Reads reader start limit number got ⟨beforeNul c.bytes, [c]⟩
  | more {number got : Nat} {c : Call} {g : Gathered}
    (answers : reader.Answers start limit number got c) (isNotLast : c.isLast = false)
    (rest : Reads reader start limit (number + 1) (got + c.bytes.length) g) :
    Reads reader start limit number got ⟨c.bytes ++ g.bytes, c :: g.calls⟩

end Reader

theorem toNat_address (start : UInt64) (got : Nat) :
    (UInt64.ofNat (min (start.toNat + got) greatest)).toNat = min (start.toNat + got) greatest := by
  refine UInt64.toNat_ofNat_of_lt' ?_
  simp only [greatest, UInt64.size]
  omega

/-- A buffer that holds a whole window has room for one at every call, and holds one after it. -/
theorem gather_call (reader : Reader) (start : UInt64) (number : Nat) (less : got < limit)
    (room : buffer.length = windowSize) :
    ∃ c after, reader.Answers start limit number got c ∧ after.length = windowSize ∧
      gather reader start limit buffer number got =
        let rest :=
          if c.isLast then {} else gather reader start limit after (number + 1) (got + c.size)
        ⟨beforeNul c.bytes ++ rest.bytes, c :: rest.calls⟩ := by
  obtain ⟨after, hafter, step⟩ := gather_step reader start buffer number less
  have hwindow : (buffer.take (min (limit - got) windowSize)).length =
      min (limit - got) windowSize := by
    rw [List.length_take, room]
    omega
  exact ⟨_, after, ⟨less, rfl, toNat_address .., _, hwindow, rfl, decide_eq_true_iff⟩,
    hafter.trans room, step⟩

theorem gather_reads (reader : Reader) (start : UInt64) (limit : Nat) (buffer : List UInt8)
    (number got : Nat) (room : buffer.length = windowSize) :
    reader.Reads start limit number got (gather reader start limit buffer number got) := by
  by_cases less : got < limit
  · obtain ⟨c, after, answers, hafter, hg⟩ := gather_call reader start number less room
    have hsize := answers.size_bounds
    rw [hg]
    cases isLast : c.isLast with
    | true => simpa [isLast] using Reader.Reads.last answers isLast
    | false =>
      obtain ⟨hlength, hfree⟩ := answers.of_not_isLast isLast
      have rest := gather_reads reader start limit after (number + 1) (got + c.size) hafter
      rw [← hlength] at rest
      simpa [isLast, beforeNul_of_not_mem hfree, hlength]
        using Reader.Reads.more answers isLast rest
  · rw [gather, if_neg less]
    exact .full (Nat.le_of_not_lt less)
termination_by limit - got

namespace Reader.Reads

/-- As many windows as cover what is missing are enough. -/
theorem length_calls_le (h : reader.Reads start limit number got g) :
    g.calls.length ≤ (limit - got + 63) / 64 := by
  induction h with
  | full enough => simp
  | last answers isLast =>
    have := answers.less
    simp only [List.length_cons, List.length_nil]
    omega
  | more answers isNotLast rest ih =>
    have := answers.less
    have := answers.size
    rw [(answers.of_not_isLast isNotLast).1] at ih
    simp only [List.length_cons, windowSize] at *
    omega

theorem zero_not_mem (h : reader.Reads start limit number got g) : 0 ∉ g.bytes := by
  induction h with
  | full enough => exact List.not_mem_nil
  | last answers isLast => exact (longestRun_beforeNul _).free
  | more answers isNotLast rest ih =>
    exact fun hm => (List.mem_append.mp hm).elim (answers.of_not_isLast isNotLast).2 ih

/-- Each call is made where the replies before it end, and there is none after the last. -/
theorem answers_of_getElem? (h : reader.Reads start limit number got g) {i : Nat} {c : Call}
    (hc : g.calls[i]? = some c) :
    reader.Answers start limit (number + i) (got + Call.gathered (g.calls.take i)) c ∧
      (c.isLast = true → i + 1 = g.calls.length) := by
  induction h generalizing i with
  | full enough => simp at hc
  | last answers isLast =>
    cases i with
    | zero =>
      cases hc
      exact ⟨answers, fun _ => rfl⟩
    | succ i => simp at hc
  | @more number got first g answers isNotLast rest ih =>
    cases i with
    | zero =>
      cases hc
      exact ⟨answers, fun isLast => by simp [isLast] at isNotLast⟩
    | succ i =>
      obtain ⟨hanswers, hlast⟩ := ih (by simpa using hc)
      refine ⟨?_, fun isLast => congrArg (· + 1) (hlast isLast)⟩
      have hnumber : number + (i + 1) = number + 1 + i := by omega
      have hgot : got + Call.gathered ((first :: g.calls).take (i + 1)) =
          got + first.bytes.length + Call.gathered (g.calls.take i) := by
        rw [List.take_succ_cons, Call.gathered, List.map_cons, List.sum_cons, ← Nat.add_assoc]
        rfl
      rw [hnumber, hgot]
      exact hanswers

end Reader.Reads

section Bounds

/-- The first bytes of a buffer, unless it has fewer. -/
def front? (count : Nat) (buffer : List UInt8) : Option (List UInt8) :=
  if count ≤ buffer.length then some (buffer.take count) else none

/-- What `gather` reads, with every slice checked. It fails if a window does not fit in the
buffer, if a reply is taken from beyond the end of it, or if what is kept of a reply is more
than the reply. -/
def gatherWithin? (reader : Reader) (start : UInt64) (limit : Nat) (buffer : List UInt8)
    (number got : Nat) : Option (List UInt8) :=
  if got < limit then do
    let size := min (limit - got) windowSize
    let address := UInt64.ofNat (min (start.toNat + got) greatest)
    let window ← front? size buffer
    let (written, count) := reader.fill number address window
    let buffer := written ++ buffer.drop size
    let reply ← front? (min count size) buffer
    if 0 ∈ reply then front? (reply.idxOf 0) reply
    else if count < size then some reply
    else do
      let rest ← gatherWithin? reader start limit buffer (number + 1) (got + size)
      some (reply ++ rest)
  else some []
termination_by limit - got
decreasing_by simp only [windowSize] at *; omega

theorem front?_eq_some {count : Nat} {buffer : List UInt8} (h : count ≤ buffer.length) :
    front? count buffer = some (buffer.take count) := if_pos h

/-- What stands before the first NUL. -/
theorem take_idxOf_zero {bytes : List UInt8} (h : 0 ∈ bytes) :
    bytes.take (bytes.idxOf 0) = beforeNul bytes := by
  obtain ⟨front, back, rfl, free⟩ := List.eq_append_cons_of_mem h
  rw [beforeNul_ended free, List.idxOf_append, if_neg free, List.idxOf_cons_self, Nat.zero_add,
    List.take_left]

/-- No slice of a reading is out of bounds. -/
theorem gatherWithin?_eq (reader : Reader) (start : UInt64) (limit : Nat) (buffer : List UInt8)
    (number got : Nat) (room : buffer.length = windowSize) :
    gatherWithin? reader start limit buffer number got =
      some (gather reader start limit buffer number got).bytes := by
  rw [gatherWithin?, gather]
  split
  · next less =>
    generalize hsize : min (limit - got) windowSize = size
    generalize UInt64.ofNat (min (start.toNat + got) greatest) = address
    have hfits : size ≤ buffer.length := by omega
    have hwritten := reader.length_fill number address (buffer.take size)
    rw [List.length_take_of_le hfits] at hwritten
    simp only [Option.bind_eq_bind, front?_eq_some hfits, Option.bind_some]
    generalize reader.fill number address (buffer.take size) = filled at hwritten
    obtain ⟨written, count⟩ := filled
    dsimp only at hwritten ⊢
    have hroom : (written ++ buffer.drop size).length = windowSize := by
      rw [List.length_append, List.length_drop]
      omega
    have hcount : min count size ≤ (written ++ buffer.drop size).length := by omega
    -- A count beyond the window is cut down to it, so that nothing behind the window is taken.
    have hreply : (written ++ buffer.drop size).take (min count size) = written.take count := by
      rw [List.take_append_of_le_length (by omega), ← hwritten, ← List.take_eq_take_min]
    have ih := gatherWithin?_eq reader start limit (written ++ buffer.drop size) (number + 1)
      (got + size) hroom
    simp only [front?_eq_some hcount, hreply, Option.bind_some, ih, Call.isLast, Bool.or_eq_true,
      decide_eq_true_eq]
    by_cases hnul : 0 ∈ written.take count
    · have hfirst := List.idxOf_lt_length_of_mem hnul
      simp [hnul, front?_eq_some (Nat.le_of_lt hfirst), take_idxOf_zero hnul]
    · by_cases hshort : count < size
      · simp [hnul, hshort, beforeNul_of_not_mem hnul]
      · simp [hnul, hshort, beforeNul_of_not_mem hnul]
  · rfl
termination_by limit - got
decreasing_by simp only [windowSize] at *; omega

end Bounds

namespace Source

/-- A copy from program storage is made by no more calls than it takes windows to cover the limit,
which is one byte more than may be kept as far as bytes can be counted. Each call is for at least
one byte and at most a window, at the address where the replies before it end, and none is made
after a reply that is short or holds a NUL. Every slice that is taken lies within its buffer. The
copy has no NUL and no more bytes than may be kept, and it is cut only if it has as many as that. -/
theorem any_reader_bounded (reader : Reader) (start most : UInt64) :
    let limit := min (most.toNat + 1) greatest
    let calls := (gatherAll reader start limit).calls
    let copy := (flash reader start).copy most
    calls.length ≤ (limit + 63) / 64 ∧
      (∀ (i : Nat) (c : Call), calls[i]? = some c →
        let got := Call.gathered (calls.take i)
        1 ≤ c.size ∧ c.size ≤ 64 ∧ got + c.size ≤ limit ∧
          c.address.toNat = min (start.toNat + got) greatest ∧
          (∃ window, window.length = c.size ∧ c.bytes = reader.reply i c.address window ∧
            (c.short = true ↔ (reader.fill i c.address window).2 < c.size)) ∧
          (c.short = true ∨ 0 ∈ c.bytes → i + 1 = calls.length)) ∧
      (gatherWithin? reader start limit (List.replicate windowSize 0) 0 0).map
          (·.take most.toNat) = some copy.bytes ∧
      copy.bytes.length ≤ most.toNat ∧ 0 ∉ copy.bytes ∧
      (copy.cut = true → copy.bytes.length = most.toNat) := by
  intro limit calls copy
  have room : (List.replicate windowSize (0 : UInt8)).length = windowSize := List.length_replicate
  have reads := gather_reads reader start limit _ 0 0 room
  refine ⟨reads.length_calls_le, fun i c hc => ?_, ?_, List.length_take_le .., fun hm => ?_,
    fun hcut => ?_⟩
  · obtain ⟨answers, last⟩ := reads.answers_of_getElem? hc
    rw [Nat.zero_add, Nat.zero_add] at answers
    obtain ⟨positive, fits, within⟩ := answers.size_bounds
    refine ⟨positive, fits, within, answers.address, answers.replied, fun ends => last ?_⟩
    simpa [Call.isLast] using ends.symm
  · rw [gatherWithin?_eq reader start limit _ 0 0 room]
    rfl
  · exact reads.zero_not_mem (List.mem_of_mem_take hm)
  · have more : most.toNat < (gatherAll reader start limit).bytes.length := of_decide_eq_true hcut
    exact List.length_take_of_le (Nat.le_of_lt more)

/-- A reader that at first fills more than the window and counts more than that, and then writes a
byte and a NUL and counts the bytes behind them too. -/
def boaster : Reader where
  read number _ _ := if number = 0 then (List.replicate 100 97, 1000) else ([98, 0], 40)

theorem any_reader_bounded_boasting :
    let start : UInt64 := 18446744073709551600
    let calls := (gatherAll boaster start 101).calls
    let second : Call := ⟨18446744073709551615, 37, 98 :: 0 :: List.replicate 35 97, false⟩
    calls[1]? = some second ∧ 0 ∈ second.bytes ∧ calls.length = 2 ∧
      second.address.toNat = min (start.toNat + Call.gathered (calls.take 1)) greatest ∧
      ((flash boaster start).copy 10).cut = true ∧
      ((flash boaster start).copy 10).bytes.length = 10 := by
  intro start calls second
  have hsecond : (gatherAll boaster 18446744073709551600 101).calls[1]? = some second := by cbv
  have hcut : ((flash boaster 18446744073709551600).copy 10).cut = true := by cbv
  have hnul : 0 ∈ second.bytes := by decide
  obtain ⟨-, each, -⟩ := any_reader_bounded boaster start 100
  obtain ⟨-, -, -, address, -, ends⟩ := each 1 second hsecond
  obtain ⟨-, -, -, -, -, whole⟩ := any_reader_bounded boaster start 10
  exact ⟨hsecond, hnul, (ends (.inr hnul)).symm, address, hcut, whole hcut⟩

end Source

end Piezo.Tune
