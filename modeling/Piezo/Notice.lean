import Piezo.Error
import Piezo.Note
import Piezo.Text.Rounded

/-!
Notices: what the library reports about its own work while it works.

A notice is a fact; its level, its topic and its wording follow from it.
-/

namespace Piezo

open Text

inductive Kind where
  | tone
  | melody
  | alert
  | sweep
  | siren
deriving DecidableEq, Repr

inductive Ending where
  | finished
  | stopped
deriving DecidableEq, Repr

inductive Notice where
  /-- A tune's text is longer than the limit, and only its beginning is read. -/
  | textCut (limit : UInt64)
  | zeroField
  | malformedNote (text : String)
  | notesDropped (limit : UInt64)
  | tuneRead (name : String) (notes : Nat) (tempo : UInt32)
  | refused (kind : Kind) (channel : Channel) (error : Error)
  | toneStarted (channel : Channel) (frequency duration : UInt32)
  | alertStarted (channel : Channel) (count frequency duration lapse : UInt32)
  | sweepStarted (channel : Channel) (first last : UInt32) (step : Int32) (duration : UInt32)
  | sirenStarted (channel : Channel) (low high total interval : UInt32)
  | melodyStarted (channel : Channel) (notes : Nat) (passes : UInt8) (owned : Bool)
  | notPlayed (channel : Channel) (note : Note) (error : Error)
  | alertFinished (channel : Channel)
  | sweepFinished (channel : Channel) (frequency : UInt32)
  | sirenFinished (channel : Channel)
  | melodyEnded (channel : Channel) (ending : Ending) (notes : Nat) (owned : Bool)
  | stopped (kind : Kind) (channel : Channel)
  | rendered (samples : Nat) (seconds : Float32) (channel : Channel)
  | written (path : String)

namespace Kind

def name : Kind → String
  | .tone => "tone"
  | .melody => "melody"
  | .alert => "alert"
  | .sweep => "series"
  | .siren => "siren"

end Kind

namespace Ending

def text : Ending → String
  | .finished => "finished"
  | .stopped => "stopped"

end Ending

namespace Notice

def level : Notice → String
  | .textCut _ | .notesDropped _ => "WARN"
  | .rendered .. | .written _ => "INFO"
  | _ => "DEBUG"

/-- The part of the library that gives the notice. -/
def topic : Notice → String
  | .textCut _ | .zeroField | .malformedNote _ | .notesDropped _ | .tuneRead .. => "parser"
  | .refused kind .. | .stopped kind _ => kind.name
  | .toneStarted .. => Kind.name .tone
  | .alertStarted .. | .alertFinished _ => Kind.name .alert
  | .sweepStarted .. | .sweepFinished .. => Kind.name .sweep
  | .sirenStarted .. | .sirenFinished _ => Kind.name .siren
  | .melodyStarted .. | .notPlayed .. | .melodyEnded .. => Kind.name .melody
  | .rendered .. | .written _ => "export"

/-- Why a start was refused; for a melody without notes in words of its own. -/
def reason : Error → String
  | .emptyMelody => "empty melody"
  | error => error.message

def message : Notice → String
  | .textCut limit => "notation longer than " ++ Decimal.text limit.toNat ++ " bytes, cut off"
  | .zeroField => "ignoring zero header field"
  | .malformedNote text => "skipping malformed note '" ++ text ++ "'"
  | .notesDropped limit =>
    "melody exceeds " ++ Decimal.text limit.toNat ++ " notes, remaining notes dropped"
  | .tuneRead name notes tempo =>
    "parsed '" ++ name ++ "': " ++ Decimal.text notes ++ " notes at " ++
      Decimal.text tempo.toNat ++ " bpm"
  | .refused _ channel error => channel.text ++ ": start rejected: " ++ reason error
  | .toneStarted channel frequency duration =>
    channel.text ++ ": " ++ Decimal.text frequency.toNat ++ " Hz for " ++
      Decimal.text duration.toNat ++ " ms"
  | .alertStarted channel count frequency duration lapse =>
    channel.text ++ ": " ++ Decimal.text count.toNat ++ " x " ++ Decimal.text frequency.toNat ++
      " Hz (" ++ Decimal.text duration.toNat ++ " ms on, " ++ Decimal.text lapse.toNat ++
      " ms off)"
  | .sweepStarted channel first last step duration =>
    channel.text ++ ": sweep " ++ Decimal.text first.toNat ++ " -> " ++
      Decimal.text last.toNat ++ " Hz, step " ++ Decimal.signedText step.toInt ++
      " every " ++ Decimal.text duration.toNat ++ " ms"
  | .sirenStarted channel low high total interval =>
    channel.text ++ ": " ++ Decimal.text low.toNat ++ " / " ++ Decimal.text high.toNat ++
      " Hz for " ++ Decimal.text total.toNat ++ " ms, flip every " ++
      Decimal.text interval.toNat ++ " ms"
  | .melodyStarted channel notes passes owned =>
    channel.text ++ ": playing " ++ Decimal.text notes ++ " notes x" ++
      Decimal.text passes.toNat ++ if owned then " (owned)" else " (static)"
  | .notPlayed channel note error =>
    channel.text ++ ": note " ++ note.text ++ " not played: " ++ error.message
  | .alertFinished channel | .sirenFinished channel => channel.text ++ ": finished"
  | .sweepFinished channel frequency =>
    channel.text ++ ": finished at " ++ Decimal.text frequency.toNat ++ " Hz"
  | .melodyEnded channel ending notes owned =>
    channel.text ++ ": " ++ ending.text ++ " after " ++ Decimal.text notes ++ " notes" ++
      if owned then ", owned melody released" else ""
  | .stopped _ channel => channel.text ++ ": stopped"
  | .rendered samples seconds channel =>
    "rendered " ++ Decimal.text samples ++ " samples (" ++ Rounded.hundredths seconds ++
      "s) from " ++ channel.text
  | .written path => "wrote " ++ path

def line (n : Notice) : String := n.level ++ " buzzer::" ++ n.topic ++ ": " ++ n.message

end Notice

end Piezo
