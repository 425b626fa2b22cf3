import Piezo.Cli.Arguments
import Piezo.Cli.Help
import Piezo.Settings.Json
import Piezo.Simulation
import Piezo.Wave.Export

/-!
The command line as a function: from the arguments, and the files that they name, to what is
printed, the exit code and the file that is written.
-/

namespace Piezo

/-- A player that has played nothing yet starts a request of its kind. -/
def Request.startFresh (request : Request) (channel : Channel) (settings : Settings)
    (leases : Leases) (now : UInt32) : Attempt Player :=
  match request with
  | .tone frequency duration =>
    (TonePlayer.start { channel, settings } leases now frequency duration).map .tone
  | .melody m repeats =>
    (MelodyPlayer.start { tone := { channel, settings } } leases now m repeats).map .melody
  | .tune source repeats =>
    (MelodyPlayer.startTune { tone := { channel, settings } } leases now source repeats).map .melody
  | .alert pattern => (AlertPlayer.start { channel, settings } leases now pattern).map .alert
  | .sweep ramp => (SweepPlayer.start { channel, settings } leases now ramp).map .sweep
  | .siren wail => (SirenPlayer.start { channel, settings } leases now wail).map .siren

namespace Cli

open Text

/-- What the program can see of the files around it. -/
structure Files where
  /-- The content of a file, or the reason why it cannot be read. -/
  read : String → Except String (List UInt8)
  canCreate : String → Bool

structure Response where
  code : UInt32 := 0
  stdout : String := ""
  stderr : String := ""
  /-- The path and the content of the file that is written. -/
  written : Option (String × ByteArray) := none

/-- Why the program fails: an error, or what it was doing and the error that came up. -/
inductive Failure where
  | plain (message : String)
  | during (activity : String) (cause : Error)

def channel : Channel := ⟨0⟩

/-- The longest simulation, in milliseconds. -/
def simulationLimit : UInt32 := 600000

/-- Seconds over which an exported sound fades out. -/
def exportFade : Float32 := 0.05

namespace Failure

/-- A text whose further lines are indented like the first one. -/
def indented (text : String) : String :=
  String.ofList (text.toList.flatMap fun c => if c = '\n' then "\n    ".toList else [c])

def report : Failure → String
  | .plain message => "Error: " ++ message ++ "\n"
  | .during activity cause =>
    "Error: " ++ activity ++ "\n\nCaused by:\n    " ++ indented cause.message ++ "\n"

end Failure

namespace Response

def print (r : Response) (text : String) : Response := { r with stdout := r.stdout ++ text }

def complain (r : Response) (text : String) : Response := { r with stderr := r.stderr ++ text }

def fail (r : Response) (failure : Failure) : Response :=
  { r.complain failure.report with code := 1 }

end Response

/-- Plays a sound to its end against a recording, or for as long as is allowed. -/
def simulate (sound : Sound) (repeats : UInt8) (settings : Settings) : Except Error Recording :=
  let attempt := (sound.request repeats).startFresh channel settings {} 0
  match attempt.verdict with
  | .error error => .error error
  | .ok () =>
    let recording := Recording.performAll {} attempt.commands
    let run := attempt.player.runUntilIdle attempt.leases 1 simulationLimit recording
    .ok (run.recording.performAll (run.state.player.stop run.state.leases).commands)

def dryRun (sound : Sound) (r : Recording) : String :=
  let events := r.events.toList.map fun e => "  " ++ e.text ++ "\n"
  let last := (r.events.back?.map (·.time)).getD 0
  sound.text ++ ":\n" ++ String.join events ++ Decimal.text r.emitCount ++ " tones, " ++
    Decimal.text r.silenceCount ++ " silences, " ++ Decimal.text last.toNat ++ " ms\n"

def padRight (width : Nat) (text : String) : String :=
  text ++ String.ofList (List.replicate (width - text.length) ' ')

def listing (name : String) (tune : Tune) : String :=
  padRight 12 name ++ " " ++ padRight 14 tune.name ++ " " ++
    Decimal.padded 3 tune.notes.length ++ " notes" ++
    (if tune.truncated then " (truncated)" else "") ++ "\n"

def listRingtones (r : Response) : List (String × String) → Response
  | [] => r
  | (name, text) :: rest =>
    match Tune.read {} (.ram text) with
    | .ok tune => listRingtones (r.print (listing name tune)) rest
    | .error error => r.fail (.plain error.message)

/-- The settings to play with: those of the file that is named, or else the defaults. -/
def settingsOf (files : Files) (options : Options) : Except Failure Settings :=
  match options.configPath with
  | none => .ok {}
  | some path =>
    match Settings.load path (files.read path) with
    | .ok settings => .ok settings
    | .error error => .error (.during ("loading config " ++ path) error)

def writeFile (files : Files) (r : Response) (recording : Recording) (path : String) : Response :=
  match (Wave.exportTo recording channel { fade := exportFade } path (files.canCreate path)).result
  with
  | .error error => r.fail (.during ("exporting to " ++ path) error)
  | .ok file => { r.print ("Wrote " ++ path ++ "\n") with written := some (path, file.bytes) }

def perform (files : Files) (options : Options) (settings : Settings) (sound : Sound)
    (r : Response) : Response :=
  let noSpeaker :=
    "Speaker playback requires the \"streaming\" feature; printing a dry run instead.\n"
  let r := if options.exportPath.isNone ∧ !options.dryRun then r.complain noSpeaker else r
  match simulate sound options.repeats settings with
  | .error error => r.fail (.plain error.message)
  | .ok recording =>
    match options.exportPath with
    | none => r.print (dryRun sound recording)
    | some path =>
      let r := if options.dryRun then r.print (dryRun sound recording) else r
      writeFile files r recording path

def respond (files : Files) (args : List String) : Response :=
  let options := Options.read args
  let complaints := (Options.complaints args).map fun c => c.text ++ "\n"
  let r : Response := { stderr := String.join complaints }
  if options.help then r.complain help
  else if options.list then listRingtones r Table.ringtones
  else
    match settingsOf files options with
    | .error failure => r.fail failure
    | .ok settings =>
      match options.sound with
      | none => (r.complain help).fail (.plain "nothing to play")
      | some sound => perform files options settings sound r

end Cli

end Piezo
