import Piezo.Channel

/-!
Errors: every way in which a request can be refused, and its wording.
-/

namespace Piezo

open Text

/-- What may be wrong with the settings of a program or of an export. -/
inductive SettingsFault where
  /-- The frequency 0 stands for silence, so no range may begin with it. -/
  | zeroMinimum
  | emptyRange (min max : UInt32)
  | zeroDivisions
  | zeroLimits
  | sourceLimit (requested most : Nat)
  /-- The text is not the JSON form of any settings. -/
  | malformed
  | unreadable (path reason : String)
  | exportFormat (rate : UInt32) (channels : UInt16)
  | other (text : String)
deriving DecidableEq, Repr

/-- The parts of a tune's text, besides its name. -/
inductive Part where
  | header
  | notes
deriving DecidableEq, Repr

inductive Error where
  | emptyNotation
  /-- No colon ends the part before this one. -/
  | missingPart (part : Part)
  | frequencyOutOfRange (frequency min max : UInt32)
  | zeroDuration
  | zeroCount
  | zeroStep
  | emptyMelody
  /-- Someone else has the channel's lease. -/
  | channelBusy (channel : Channel)
  | settings (fault : SettingsFault)
  | audioFile (reason : String)
  | audioDevice (reason : String)
  | system (reason : String)
  | other (text : String)
deriving DecidableEq, Repr

namespace SettingsFault

def message : SettingsFault → String
  | .zeroMinimum => "minimum frequency must be above 0 Hz (0 is the silence value)"
  | .emptyRange min max =>
    "frequency range " ++ Decimal.text min.toNat ++ "..=" ++ Decimal.text max.toNat ++ " is empty"
  | .zeroDivisions => "siren_divisions must be at least 1"
  | .zeroLimits => "parser limits must be non-zero"
  | .sourceLimit requested most =>
    "max_source_len " ++ Decimal.text requested ++ " exceeds the " ++ Decimal.text most ++
      " byte limit"
  | .malformed => "invalid config JSON"
  | .unreadable path reason => "failed to read '" ++ path ++ "': " ++ reason
  | .exportFormat rate channels =>
    "unsupported export format: " ++ Decimal.text rate.toNat ++ " Hz, " ++
      Decimal.text channels.toNat ++ " channels"
  | .other text => text

end SettingsFault

namespace Part

def name : Part → String
  | .header => "header"
  | .notes => "notes"

end Part

namespace Error

def message : Error → String
  | .emptyNotation => "notation is empty"
  | .missingPart part => "notation has no " ++ part.name ++ " section"
  | .frequencyOutOfRange frequency min max =>
    "frequency " ++ Decimal.text frequency.toNat ++ " Hz outside " ++ Decimal.text min.toNat ++
      "..=" ++ Decimal.text max.toNat ++ " Hz"
  | .zeroDuration => "duration must be positive"
  | .zeroCount => "pulse count must be positive"
  | .zeroStep => "sweep step must be non-zero"
  | .emptyMelody => "melody has no notes"
  | .channelBusy channel => "channel " ++ channel.text ++ " is in use by another controller"
  | .settings fault => "Invalid configuration: " ++ fault.message
  | .audioFile reason => "Audio file write error: " ++ reason
  | .audioDevice reason => "Audio device error: " ++ reason
  | .system reason => "IO error: " ++ reason
  | .other text => text

end Error

end Piezo
