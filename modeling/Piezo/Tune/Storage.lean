import Piezo.Text.Quoted
import Piezo.Text.Utf8

/-!
Storage of tune texts, and the bounded copy that is made of a text before it is read.

A text lies in ordinary memory or in program storage, and a NUL ends it in either. Program storage
is read in windows of at most 64 bytes through a reader that is trusted with nothing: it may write
anything over the window and report any number of bytes.
-/

namespace Piezo.Tune

/-- A reader of program storage. Its calls are numbered from 0, so a reader may answer one request
differently each time. -/
structure Reader where
  /-- For the number of the call, the address and the bytes now in the window: what is written over
  the window from its first byte on, and how many bytes are reported as read. -/
  read : Nat → UInt64 → List UInt8 → List UInt8 × Nat

inductive Source where
  | ram (text : String)
  | flash (reader : Reader) (address : UInt64)

/-- The beginning of a text, as much of it as a limit allows. -/
structure Copy where
  bytes : List UInt8
  cut : Bool
deriving DecidableEq, Repr

/-- One call of a reader and its reply. -/
structure Call where
  address : UInt64
  size : Nat
  /-- The bytes that the reply counts for, all of them within the window. -/
  bytes : List UInt8
  /-- Whether the reply reports fewer bytes than the window holds. -/
  short : Bool
deriving DecidableEq, Repr

/-- What was read from program storage, and the calls it took. -/
structure Gathered where
  bytes : List UInt8 := []
  calls : List Call := []
deriving DecidableEq, Repr

/-- The greatest address, and the greatest count of bytes. -/
def greatest : Nat := UInt64.size - 1

/-- The bytes before the first NUL. -/
def beforeNul (bytes : List UInt8) : List UInt8 := bytes.takeWhile (· ≠ 0)

namespace Reader

/-- The window after a call, which keeps its size, and the count that was reported. -/
def fill (r : Reader) (call : Nat) (address : UInt64) (window : List UInt8) : List UInt8 × Nat :=
  let (written, count) := r.read call address window
  (written.take window.length ++ window.drop written.length, count)

theorem length_fill (r : Reader) (call : Nat) (address : UInt64) (window : List UInt8) :
    (r.fill call address window).1.length = window.length := by
  simp only [fill, List.length_append, List.length_take, List.length_drop]
  omega

/-- The bytes through the first NUL. -/
def throughNul : List UInt8 → List UInt8
  | [] => []
  | b :: rest => if b = 0 then [b] else b :: throughNul rest

/-- The bytes of an image from an address on; none if the address is past its end. -/
def tail (image : List UInt8) (address : UInt64) : List UInt8 := image.drop address.toNat

/-- Copies what the window holds of the image, and stops after a NUL. -/
def image (image : List UInt8) : Reader where
  read _ address window :=
    let bytes := throughNul ((tail image address).take window.length)
    (bytes, bytes.length)

/-- Like `image`, with at most `most` bytes in a call. -/
def short (image : List UInt8) (most : Nat) : Reader where
  read _ address window :=
    let bytes := throughNul ((tail image address).take (min most window.length))
    (bytes, bytes.length)

/-- Copies what the window holds of the image, and does not stop at a NUL. -/
def raw (image : List UInt8) : Reader where
  read _ address window :=
    let bytes := (tail image address).take window.length
    (bytes, bytes.length)

/-- Like `image`, with `extra` bytes more reported than copied. -/
def boastful (image : List UInt8) (extra : Nat) : Reader where
  read _ address window :=
    let bytes := throughNul ((tail image address).take window.length)
    (bytes, bytes.length + extra)

end Reader

/-- Bytes in a whole window. -/
def windowSize : Nat := 64

/-- Whether a call is the last: its reply holds a NUL or is short. -/
def Call.isLast (c : Call) : Bool := 0 ∈ c.bytes || c.short

/-- Reads on until a NUL, a short reply, or `limit` bytes in all. The buffer keeps from one call to
the next whatever was written into it. -/
def gather (reader : Reader) (start : UInt64) (limit : Nat) (buffer : List UInt8)
    (number got : Nat) : Gathered :=
  if got < limit then
    let size := min (limit - got) windowSize
    let address := UInt64.ofNat (min (start.toNat + got) greatest)
    let (window, count) := reader.fill number address (buffer.take size)
    let call : Call := ⟨address, size, window.take count, decide (count < size)⟩
    let more :=
      if call.isLast then {}
      else gather reader start limit (window ++ buffer.drop size) (number + 1) (got + size)
    ⟨beforeNul call.bytes ++ more.bytes, call :: more.calls⟩
  else {}
termination_by limit - got
decreasing_by simp only [windowSize] at *; omega

namespace Source

/-- All calls of a reader together, from an empty buffer. -/
def gatherAll (reader : Reader) (start : UInt64) (limit : Nat) : Gathered :=
  gather reader start limit (List.replicate windowSize 0) 0 0

/-- The copy of at most `most` bytes. One byte more is asked for, to tell a text that was cut from
one that just fits. -/
def copy (s : Source) (most : UInt64) : Copy :=
  let limit := min (most.toNat + 1) greatest
  let bytes :=
    match s with
    | .ram text => (beforeNul (Text.Utf8.encode text)).take limit
    | .flash reader address => (gatherAll reader address limit).bytes
  ⟨bytes.take most.toNat, decide (most.toNat < bytes.length)⟩

/-- How a source is shown to a person: its text, or the address of it. -/
def describe : Source → String
  | .ram text => "Ram(" ++ Text.Quoted.text text ++ ")"
  | .flash _ address =>
    "Flash \x7b address: 0x" ++ Text.Quoted.hex 4 address.toNat ++ " \x7d"

end Source

end Piezo.Tune
