import Piezo.Notice
import Piezo.Pitch
import Piezo.Text.Blank
import Piezo.Text.Split
import Piezo.Tune.Grammar
import Piezo.Tune.Storage

/-!
Tunes: named melodies written as text, such as

    Nokia:d=4,o=5,b=225:8e6,8d6,f#,g#,8c#6,8b,d,e,8b,8a,c#,e,2a

The header's fields `d` (divisor), `o` (octave) and `b` (tempo) stand in for what a note leaves
out. Reading fails only where a part is missing. A note that cannot be read is skipped, and a pitch
out of range becomes a rest.
-/

namespace Piezo

/-- What the notes of a tune have in common. -/
structure Header where
  /-- The part of a whole note that a note lasts: 4 for a quarter. -/
  divisor : UInt32 := 4
  octave : UInt8 := 6
  /-- Beats a minute. -/
  tempo : UInt32 := 120
deriving DecidableEq, Repr

structure Tune where
  name : String
  header : Header
  notes : List Note
  /-- Whether the text was cut or notes were dropped. -/
  truncated : Bool
deriving DecidableEq, Repr

namespace Header

/-- Milliseconds of a quarter note. -/
def quarter (h : Header) : UInt32 := Pitch.quarter h.tempo

/-- Takes over one field. A value of zero changes nothing, nor does any other key. -/
def set (h : Header) (f : Tune.Field) : Header :=
  if f.value = 0 then h
  else if f.key = 100 then { h with divisor := f.value }
  else if f.key = 111 then { h with octave := UInt8.ofNat (min f.value.toNat 255) }
  else if f.key = 98 then { h with tempo := f.value }
  else h

def fields (bytes : List UInt8) : List Tune.Field :=
  (Text.splitAt Tune.comma bytes).filterMap Tune.Field.read?

/-- The header that the fields make, over the defaults; of one key the last field counts. -/
def read (bytes : List UInt8) : Header := (fields bytes).foldl set {}

/-- One notice for each field whose value is zero. -/
def notices (bytes : List UInt8) : List Notice :=
  ((fields bytes).filter (·.value = 0)).map fun _ => .zeroField

end Header

namespace Tune

/-- The note that a token means under a header. A divisor of zero counts as left out. -/
def Token.note (range : FrequencyRange) (h : Header) (t : Token) : Note where
  frequency := Pitch.frequency range t.letter t.sharp (t.octave.getD h.octave)
  duration := Pitch.length h.quarter ((t.divisor.filter (· ≠ 0)).getD h.divisor) t.dotted

/-- The texts of the notes: what stands between commas, trimmed, unless nothing is left. -/
def pieces (bytes : List UInt8) : List (List UInt8) :=
  ((Text.splitAt comma bytes).map (Text.trimBy isSpace)).filter (· ≠ [])

def tokens (bytes : List UInt8) : List Token := (pieces bytes).filterMap Token.read?

/-- The pieces looked at until `room` notes are found, or all of them. -/
def examined : Nat → List (List UInt8) → List (List UInt8)
  | 0, _ => []
  | _, [] => []
  | room + 1, piece :: rest =>
    piece :: examined (if (Token.read? piece).isSome then room else room + 1) rest

/-- How many notes are kept; at least one is, whatever the limit. -/
def capacity (limits : Limits) : Nat := max limits.notes.toNat 1

/-- One notice for each piece that was looked at and could not be read. -/
def malformed (limits : Limits) (bytes : List UInt8) : List Notice :=
  ((examined (capacity limits) (pieces bytes)).filter (Token.read? · |>.isNone)).map
    fun piece => .malformedNote (Text.Utf8.lossy piece)

def parts (bytes : List UInt8) : Except Error Parts :=
  if bytes = [] then .error .emptyNotation
  else
    match atColon? bytes with
    | none => .error (.missingPart .header)
    | some (name, rest) =>
      match atColon? rest with
      | none => .error (.missingPart .notes)
      | some (header, notes) => .ok ⟨name, header, notes⟩

def ofParts (settings : Settings) (cut : Bool) (parts : Parts) : Tune :=
  let header := Header.read parts.header
  let tokens := tokens parts.notes
  let room := capacity settings.limits
  { name := Text.Utf8.lossy (Text.trimBy isSpace parts.name)
    header
    notes := (tokens.take room).map (Token.note settings.range header)
    truncated := cut || room < tokens.length }

/-- Reads a tune from wherever its text is kept. -/
def read (settings : Settings) (source : Source) : Except Error Tune :=
  let copy := source.copy settings.limits.bytes
  (parts copy.bytes).map (ofParts settings copy.cut)

def notices (settings : Settings) (source : Source) : List Notice :=
  let copy := source.copy settings.limits.bytes
  let cut : List Notice := if copy.cut then [.textCut settings.limits.bytes] else []
  match parts copy.bytes with
  | .error .emptyNotation => []
  | .error _ => cut
  | .ok parts =>
    let tune := ofParts settings copy.cut parts
    let dropped : List Notice :=
      if capacity settings.limits < (tokens parts.notes).length
      then [.notesDropped settings.limits.notes] else []
    cut ++ Header.notices parts.header ++ malformed settings.limits parts.notes ++ dropped ++
      [.tuneRead tune.name tune.notes.length tune.header.tempo]

/-- The notes alone, to be played by whoever holds them. -/
def melody (t : Tune) : Melody := ⟨t.notes.toArray, .owned⟩

end Tune

end Piezo
