import Piezo.Error
import Piezo.Notice
import Piezo.Wave.Render

/-!
Export: the sound of one channel as a WAV file of 16-bit samples.

A file has a header of 44 bytes, and then the samples in order, least byte first. In stereo every
sample is written twice.
-/

namespace Piezo.Wave

structure Format where
  rate : UInt32 := 44100
  channels : UInt16 := 1
  /-- The greatest sample, as a part of full scale. -/
  volume : Float32 := 0.5
  /-- Seconds over which the sound fades out at the end; none if not above zero. -/
  fade : Float32 := 0.0

namespace Format

def stereo : Format := { channels := 2 }

end Format

/-- Brings a float between two bounds. What is no number stays as it is. -/
def clamp (x low high : Float32) : Float32 :=
  let x := if x < low then low else x
  if high < x then high else x

/-- How many samples a fade takes. -/
def fadeLength (fade : Float32) (rate : UInt32) : Nat :=
  (fade * rate.toFloat32).toUInt64.toNat

/-- A sample `i` samples into a fade. -/
def faded (sample : Float32) (i length : Nat) : Float32 :=
  sample * (1.0 - i.toUInt64.toFloat32 / length.toUInt64.toFloat32)

/-- Lets the end of the samples fade out. -/
def fadeOut (samples : Array Float32) (fade : Float32) (rate : UInt32) : Array Float32 :=
  if 0.0 < fade then
    let length := fadeLength fade rate
    let start := samples.size - length
    samples.mapIdx fun i sample => if i < start then sample else faded sample (i - start) length
  else samples

/-- A sample as a 16-bit integer: cut to full scale, and the fraction dropped. -/
def quantize (sample : Float32) : Int16 := (clamp sample (-1.0) 1.0 * 32767.0).toInt16

/-- Each sample once for every channel. -/
def interleave (channels : UInt16) (samples : Array Float32) : Array Float32 :=
  if channels = 2 then samples.foldl (fun done s => (done.push s).push s) #[] else samples

/-- The low bytes of a number, the least first. -/
def littleEndian : Nat → Nat → List UInt8
  | 0, _ => []
  | width + 1, n => UInt8.ofNat (n % 256) :: littleEndian width (n / 256)

def ascii (s : String) : List UInt8 := s.toList.map fun c => UInt8.ofNat c.toNat

/-- The header of a file with `size` bytes of samples. -/
def header (rate : UInt32) (channels : UInt16) (size : Nat) : List UInt8 :=
  let frame := channels.toNat * 2
  ascii "RIFF" ++ littleEndian 4 (36 + size) ++ ascii "WAVE" ++
    ascii "fmt " ++ littleEndian 4 16 ++ littleEndian 2 1 ++ littleEndian 2 channels.toNat ++
    littleEndian 4 rate.toNat ++ littleEndian 4 (rate.toNat * frame) ++ littleEndian 2 frame ++
    littleEndian 2 16 ++
    ascii "data" ++ littleEndian 4 size

structure File where
  rate : UInt32
  channels : UInt16
  samples : Array Int16
deriving DecidableEq

namespace File

/-- Appends a word, its low byte first. -/
def pushWord (done : ByteArray) (word : UInt16) : ByteArray :=
  (done.push word.toUInt8).push (word >>> 8).toUInt8

def bytes (f : File) : ByteArray :=
  f.samples.foldl (fun done s => pushWord done s.toUInt16)
    (header f.rate f.channels (f.samples.size * 2)).toByteArray

end File

/-- Only mono and stereo can be written, and only at a rate above zero. -/
def Format.check (format : Format) : Except Error Unit :=
  if format.rate = 0 ∨ format.channels = 0 ∨ 2 < format.channels then
    .error (.settings (.exportFormat format.rate format.channels))
  else .ok ()

/-- The file that is written for rendered samples. -/
def encode (format : Format) (samples : Array Float32) : File where
  rate := format.rate
  channels := format.channels
  samples :=
    (interleave format.channels (fadeOut samples format.fade format.rate)).map quantize

/-- What comes of an export: the file is handed over only if the format can be written and the
path can be created. -/
structure Exporting where
  result : Except Error File
  notices : List Notice

/-- Exports one channel to a path. -/
def exportTo (r : Recording) (channel : Channel) (format : Format) (path : String)
    (canCreate : Bool) : Exporting :=
  match format.check with
  | .error error => ⟨.error error, []⟩
  | .ok () =>
    let samples := render r channel format.rate format.volume
    let seconds := samples.size.toUInt64.toFloat32 / format.rate.toFloat32
    let rendered : Notice := .rendered samples.size seconds channel
    if canCreate then ⟨.ok (encode format samples), [rendered, .written path]⟩
    else ⟨.error (.audioFile "failed to create WAV file"), [rendered]⟩

end Piezo.Wave
