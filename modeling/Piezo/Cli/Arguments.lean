import Piezo.Player
import Piezo.Table
import Piezo.Text.Blank
import Piezo.Text.Split

/-!
The arguments of the command line.

A list of arguments is read from left to right into items: a flag together with the value that it
consumes, or a single argument. A malformed item is complained about and asks for help, and does
nothing else. Of several items that say the same, the last one counts.
-/

namespace Piezo.Cli

open Text

/-- What the command line can be asked to play. -/
inductive Sound where
  | tune (text : String)
  | sample
  | tone (frequency duration : UInt32)
  | beep (pattern : Pattern)
  | sweep (ramp : Ramp)
  | siren (wail : Wail)

/-- The flags that take the parameters of a sound. -/
inductive SoundFlag where
  | tone
  | beep
  | sweep
  | siren
deriving DecidableEq, Repr

inductive ValueFlag where
  | melody
  | repeats
  | config
  | exportTo
  | sound (flag : SoundFlag)
deriving DecidableEq, Repr

/-- What is wrong with a malformed item. -/
inductive Complaint where
  | unknownMelody (name : String)
  | noName
  | badRepeats
  | noConfigPath
  | noExportPath
  | badParameters (flag : SoundFlag)
  | unknownFlag (flag : String)
deriving DecidableEq, Repr

inductive Item where
  | help
  | list
  | dryRun
  | sound (sound : Sound)
  | repeats (count : UInt8)
  | config (path : String)
  | exportTo (path : String)
  | malformed (complaint : Complaint)

structure Options where
  sound : Option Sound := none
  repeats : UInt8 := 1
  configPath : Option String := none
  exportPath : Option String := none
  dryRun : Bool := false
  list : Bool := false
  help : Bool := false

namespace Sound

/-- A tune's name is what stands before its first colon. -/
def tuneName (text : String) : List Char := text.toList.takeWhile (· ≠ ':')

def text : Sound → String
  | .tune text =>
    if tuneName text = [] then "melody" else "melody '" ++ String.ofList (tuneName text) ++ "'"
  | .sample => "sample melody"
  | .tone frequency duration =>
    "tone " ++ Decimal.text frequency.toNat ++ " Hz for " ++ Decimal.text duration.toNat ++ " ms"
  | .beep pattern =>
    Decimal.text pattern.count.toNat ++ " beeps at " ++ Decimal.text pattern.frequency.toNat ++
      " Hz"
  | .sweep ramp =>
    "sweep " ++ Decimal.text ramp.first.toNat ++ " -> " ++ Decimal.text ramp.last.toNat ++ " Hz"
  | .siren wail =>
    "siren " ++ Decimal.text wail.low.toNat ++ " / " ++ Decimal.text wail.high.toNat ++ " Hz"

def request (sound : Sound) (repeats : UInt8) : Request :=
  match sound with
  | .tune text => .tune (.ram text) repeats
  | .sample => .melody Melody.sample repeats
  | .tone frequency duration => .tone frequency duration
  | .beep pattern => .alert pattern
  | .sweep ramp => .sweep ramp
  | .siren wail => .siren wail

/-- A number with blanks around it that fits 32 bits. -/
def word? (cs : List Char) : Option UInt32 :=
  (Decimal.atMost (UInt32.size - 1) (trim cs)).map UInt32.ofNat

/-- The same, written with either sign. -/
def wordOfInteger? (cs : List Char) : Option UInt32 :=
  ((Decimal.integer? (trim cs)).filter fun n => 0 ≤ n ∧ n.toNat < UInt32.size).map fun n =>
    UInt32.ofNat n.toNat

/-- A number with blanks around it that fits 32 bits with a sign. -/
def stepOfInteger? (cs : List Char) : Option Int32 :=
  ((Decimal.integer? (trim cs)).filter fun n =>
    Int32.minValue.toInt ≤ n ∧ n ≤ Int32.maxValue.toInt).map Int32.ofInt

def ofParameters? (flag : SoundFlag) (value : String) : Option Sound :=
  match flag, splitAt ':' value.toList with
  | .tone, [frequency, duration] => do
    return .tone (← word? frequency) (← word? duration)
  | .beep, [count, frequency, duration, lapse] => do
    return .beep ⟨← word? count, ← word? frequency, ← word? duration, ← word? lapse⟩
  | .sweep, [first, last, step, duration] => do
    return .sweep
      ⟨← wordOfInteger? first, ← wordOfInteger? last, ← stepOfInteger? step,
        ← wordOfInteger? duration⟩
  | .siren, [low, high, total] => do
    return .siren ⟨← word? low, ← word? high, ← word? total⟩
  | _, _ => none

end Sound

namespace SoundFlag

def text : SoundFlag → String
  | .tone => "--tone"
  | .beep => "--beep"
  | .sweep => "--sweep"
  | .siren => "--siren"

end SoundFlag

namespace ValueFlag

def ofText? (arg : String) : Option ValueFlag :=
  if arg = "--melody" ∨ arg = "-m" then some .melody
  else if arg = "--repeat" ∨ arg = "-r" then some .repeats
  else if arg = "--config" ∨ arg = "-c" then some .config
  else if arg = "--export" ∨ arg = "-o" then some .exportTo
  else if arg = "--tone" then some (.sound .tone)
  else if arg = "--beep" then some (.sound .beep)
  else if arg = "--sweep" then some (.sound .sweep)
  else if arg = "--siren" then some (.sound .siren)
  else none

end ValueFlag

namespace Complaint

def text : Complaint → String
  | .unknownMelody name => "Unknown melody: " ++ name ++ " (see --list)"
  | .noName => "--melody requires a name"
  | .badRepeats => "--repeat requires a number between 0 and 255"
  | .noConfigPath => "--config requires a file path"
  | .noExportPath => "--export requires a file path"
  | .badParameters flag => flag.text ++ " has malformed parameters (see --help)"
  | .unknownFlag flag => "Unknown flag: " ++ flag

end Complaint

namespace Item

/-- The item of a flag and its value; there is no value at the end of the arguments. -/
def ofFlag (flag : ValueFlag) (value : Option String) : Item :=
  match flag, value with
  | .melody, none => .malformed .noName
  | .melody, some name =>
    match Table.ringtones.find? name with
    | some text => .sound (.tune text)
    | none => .malformed (.unknownMelody name)
  | .repeats, value =>
    match value.bind fun v => Decimal.atMost 255 v.toList with
    | some n => .repeats (UInt8.ofNat n)
    | none => .malformed .badRepeats
  | .config, none => .malformed .noConfigPath
  | .config, some path => .config path
  | .exportTo, none => .malformed .noExportPath
  | .exportTo, some path => .exportTo path
  | .sound flag, value =>
    match value.bind (Sound.ofParameters? flag) with
    | some made => .sound made
    | none => .malformed (.badParameters flag)

/-- The item of an argument that takes no value: a ringtone's name or else a tune, unless it begins
with a hyphen. -/
def ofSingle (arg : String) : Item :=
  if arg = "--help" ∨ arg = "-h" then .help
  else if arg = "--list" ∨ arg = "-l" then .list
  else if arg = "--dry-run" ∨ arg = "-n" then .dryRun
  else if arg = "--sample" then .sound .sample
  else if arg.toList.head? = some '-' then .malformed (.unknownFlag arg)
  else .sound (.tune ((Table.ringtones.find? arg).getD arg))

def readAll : List String → List Item
  | [] => []
  | arg :: rest =>
    match ValueFlag.ofText? arg with
    | none => ofSingle arg :: readAll rest
    | some flag =>
      match rest with
      | [] => [ofFlag flag none]
      | value :: rest => ofFlag flag (some value) :: readAll rest

def complaint? : Item → Option Complaint
  | .malformed complaint => some complaint
  | _ => none

end Item

namespace Options

def apply (o : Options) : Item → Options
  | .help => { o with help := true }
  | .list => { o with list := true }
  | .dryRun => { o with dryRun := true }
  | .sound sound => { o with sound := some sound }
  | .repeats count => { o with repeats := count }
  | .config path => { o with configPath := some path }
  | .exportTo path => { o with exportPath := some path }
  | .malformed _ => { o with help := true }

def read (args : List String) : Options := (Item.readAll args).foldl apply {}

/-- The file of settings that has to be read; help and the list of ringtones need none. -/
def neededConfig (o : Options) : Option String :=
  if o.help || o.list then none else o.configPath

def complaints (args : List String) : List Complaint :=
  (Item.readAll args).filterMap Item.complaint?

end Options

end Piezo.Cli
