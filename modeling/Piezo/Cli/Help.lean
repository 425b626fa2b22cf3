/-!
The help text of the command line.
-/

namespace Piezo.Cli

/-- A line about something that can be written: the words for it, what stands after them, and what
it is for. -/
structure Entry where
  words : List String
  value : String := ""
  purpose : String
deriving DecidableEq

/-- All purposes begin in one column. -/
def Entry.line (e : Entry) : String :=
  let usage := ", ".intercalate e.words ++ " " ++ e.value
  "  " ++ usage ++ String.ofList (List.replicate (27 - usage.length) ' ') ++ e.purpose

def soundEntries : List Entry :=
  [⟨["<melody-name>"], "", "Built-in melody (see --list)"⟩,
    ⟨["<notation>"], "", "Melody notation, e.g. \"Tune:d=4,o=5,b=120:c,e,g\""⟩,
    ⟨["-m", "--melody"], "<name>", "Built-in melody"⟩,
    ⟨["--sample"], "", "C-D-E-F-G sample melody"⟩,
    ⟨["--tone"], "<hz:ms>", "Single tone"⟩,
    ⟨["--beep"], "<n:hz:ms:lapse>", "n beeps, lapse ms apart"⟩,
    ⟨["--sweep"], "<from:to:step:ms>", "Frequency sweep, step may be negative"⟩,
    ⟨["--siren"], "<low:high:ms>", "Two-tone siren"⟩]

def optionEntries : List Entry :=
  [⟨["-r", "--repeat"], "<n>", "Play a melody n times (default 1)"⟩,
    ⟨["-c", "--config"], "<file.json>", "Load buzzer configuration"⟩,
    ⟨["-o", "--export"], "<file.wav>", "Render to WAV (needs the export-wav feature)"⟩,
    ⟨["-n", "--dry-run"], "", "Print output commands instead of playing"⟩,
    ⟨["-l", "--list"], "", "List built-in melodies"⟩,
    ⟨["-h", "--help"], "", "Show this help"⟩]

def helpLines : List String :=
  ["Usage:",
    "  buzzer-fx [options] <melody-name | notation>",
    "  buzzer-fx [options] --tone|--beep|--sweep|--siren <params>",
    "",
    "Sounds:"] ++
  soundEntries.map Entry.line ++
  ["", "Options:"] ++
  optionEntries.map Entry.line ++
  ["", "Set RUST_LOG=debug to trace controller state changes."]

/-- Every line ends with a line feed. -/
def help : String := String.join (helpLines.map (· ++ "\n"))

end Piezo.Cli
