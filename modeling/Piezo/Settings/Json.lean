import Piezo.Json.Value
import Piezo.Settings
import Piezo.Text.Utf8

/-!
The JSON form of settings.

A field that is left out keeps its default, at either level. What is read is also validated.
-/

namespace Piezo

/-- A value read if it is there, or else a default. -/
def Json.orElse {α : Type} (value : Option Json) (default : α) (read : Json → Option α) :
    Option α :=
  match value with
  | none => some default
  | some v => read v

def Json.word32? (v : Json) : Option UInt32 := (v.natUpTo? (UInt32.size - 1)).map UInt32.ofNat

def Json.word64? (v : Json) : Option UInt64 := (v.natUpTo? (UInt64.size - 1)).map UInt64.ofNat

namespace FrequencyRange

def fields : List String := ["min", "max"]

def toJson (r : FrequencyRange) : Json :=
  .object [(some "min", .ofNat r.min.toNat), (some "max", .ofNat r.max.toNat)]

def ofJson? (v : Json) : Option FrequencyRange :=
  match v.record? fields with
  | some [min, max] => do
    let min ← Json.orElse min (FrequencyRange.min {}) Json.word32?
    let max ← Json.orElse max (FrequencyRange.max {}) Json.word32?
    return { min, max }
  | _ => none

end FrequencyRange

namespace Limits

def fields : List String := ["max_notes", "max_source_len"]

def toJson (l : Limits) : Json :=
  .object [(some "max_notes", .ofNat l.notes.toNat), (some "max_source_len", .ofNat l.bytes.toNat)]

def ofJson? (v : Json) : Option Limits :=
  match v.record? fields with
  | some [notes, bytes] => do
    let notes ← Json.orElse notes (Limits.notes {}) Json.word64?
    let bytes ← Json.orElse bytes (Limits.bytes {}) Json.word64?
    return { notes, bytes }
  | _ => none

end Limits

namespace Settings

def fields : List String := ["frequency_range", "settle_margin_ms", "siren_divisions", "parser"]

def toJson (s : Settings) : Json :=
  .object
    [(some "frequency_range", s.range.toJson),
      (some "settle_margin_ms", .ofNat s.settleMargin.toNat),
      (some "siren_divisions", .ofNat s.sirenDivisions.toNat),
      (some "parser", s.limits.toJson)]

def ofJson? (v : Json) : Option Settings :=
  match v.record? fields with
  | some [range, settleMargin, sirenDivisions, limits] => do
    let range ← Json.orElse range {} FrequencyRange.ofJson?
    let settleMargin ← Json.orElse settleMargin (Settings.settleMargin {}) Json.word32?
    let sirenDivisions ← Json.orElse sirenDivisions (Settings.sirenDivisions {}) Json.word32?
    let limits ← Json.orElse limits {} Limits.ofJson?
    return { range, settleMargin, sirenDivisions, limits }
  | _ => none

/-- The text of settings, valid or not. -/
def text (s : Settings) : String := s.toJson.text

def read (text : String) : Except Error Settings :=
  match (Json.read? text).bind ofJson? with
  | none => .error (.settings .malformed)
  | some settings => settings.validate.map fun _ => settings

/-- Reads settings from a file, whose content is given, or the reason why there is none. -/
def load (path : String) (content : Except String (List UInt8)) : Except Error Settings :=
  match content with
  | .error reason => .error (.settings (.unreadable path reason))
  | .ok bytes =>
    match Text.Utf8.strict? bytes with
    | none => .error (.settings (.unreadable path "stream did not contain valid UTF-8"))
    | some text => read text

end Settings

end Piezo
