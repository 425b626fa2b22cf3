import Piezo.Cli.Program
import Piezo.Proofs.Admission
import Piezo.Proofs.Driving
import Piezo.Proofs.Voices

/-!
Finales: what is played from the command line ends with a silence within the time that is allowed,
and all of it is printed, whether or not a dry run is asked for.
-/

namespace Piezo

theorem Player.channel_idle (kind : Kind) (channel : Channel) (settings : Settings) :
    (idle kind channel settings).channel = channel := by
  cases kind <;> rfl

open Player

theorem Request.start?_idle (request : Request) (channel : Channel) (settings : Settings)
    (leases : Leases) (now : UInt32) :
    (idle request.kind channel settings).start? leases now request =
      some (request.startFresh channel settings leases now) := by
  cases request <;> rfl

namespace Event

open Text

/-- What is printed of an event: its time, with spaces in front to make seven places, its channel,
and the frequency of a tone. -/
def line (e : Event) : String :=
  let time := String.ofList ((toString e.time.toNat).toList.leftpad 7 ' ')
  match e.command with
  | .emit c frequency =>
    time ++ " ms  #" ++ toString c.number.toNat ++ "  tone " ++ toString frequency.toNat ++ " Hz"
  | .silence c => time ++ " ms  #" ++ toString c.number.toNat ++ "  silence"

theorem padded_eq_leftpad (width n : Nat) :
    Decimal.padded width n = String.ofList ((toString n).toList.leftpad width ' ') := by
  change _ = String.ofList ((Decimal.text n).toList.leftpad width ' ')
  rw [Decimal.text, String.toList_ofList]
  rfl

theorem text_eq_line (e : Event) : e.text = e.line := by
  obtain ⟨time, command⟩ := e
  have hash : " ms  #" = " ms  " ++ "#" := rfl
  unfold text line
  rw [padded_eq_leftpad]
  cases command with
  | emit c frequency =>
    simp only [hash, String.append_assoc]
    rfl
  | silence c =>
    simp only [hash, String.append_assoc]
    rfl

end Event

namespace Recording

variable {r : Recording}

theorem emitCount_eq (r : Recording) :
    r.emitCount = r.events.toList.countP fun e => e.command.frequency?.isSome := by
  rw [emitCount, frequencies, List.length_filterMap_eq_countP]
  rfl

/-- What does not emit is silent. -/
theorem silenceCount_eq (r : Recording) :
    r.silenceCount = r.events.toList.countP fun e => e.command.frequency?.isNone := by
  have hall := List.length_eq_countP_add_countP (l := r.events.toList)
    fun e => e.command.frequency?.isSome
  rw [silenceCount, emitCount_eq, ← Array.length_toList, hall, Nat.add_sub_cancel_left]
  exact List.countP_congr fun e _ => by cases e.command.frequency? <;> simp

/-- What is silenced last, and is all that was sounded, is silent. -/
theorem CarriesOut.silent {commands : List Command} {channel : Channel}
    (h : ({} : Recording).CarriesOut r commands) (channels : ∀ c ∈ commands, c.channel = channel)
    (last : commands.getLast? = some (.silence channel)) (c : Channel) :
    r.sounding.get? c = none := by
  rw [h.sounding]
  by_cases hc : c = channel
  · subst hc
    exact Soundings.get?_foldl_getLast _ last
  · exact Soundings.get?_foldl_of_ne _ fun d hd he => hc (he ▸ channels d hd)

end Recording

namespace Cli

open Text

variable {sound : Sound} {repeats : UInt8} {settings : Settings}

/-- A simulation that starts carries out commands for its channel only, the last of them a silence,
and none after the limit. -/
theorem simulate_ends
    (starts : ((sound.request repeats).startFresh channel settings {} 0).verdict = .ok ()) :
    ∃ recording commands, simulate sound repeats settings = .ok recording ∧
      ({} : Recording).CarriesOut recording commands ∧
      (∀ c ∈ commands, c.channel = channel) ∧
      commands.getLast? = some (.silence channel) ∧
      recording.Timely ∧ recording.now ≤ simulationLimit := by
  have fresh := idle_coherent (sound.request repeats).kind channel settings
  have unlisted : (idle (sound.request repeats).kind channel settings).Listed {} := by
    intro ha
    rw [isActive_idle] at ha
    cases ha
  have admitted := (start?_decided fresh
    (Request.start?_idle (sound.request repeats) channel settings {} 0)).admitted starts
  have listed := admitted.listed fresh unlisted
  obtain ⟨first, hfirst, hchannel, -⟩ := admitted.command
  have hplayer := admitted.channel
  rw [channel_idle] at hchannel hplayer
  unfold simulate
  simp only [starts]
  generalize (sound.request repeats).startFresh channel settings {} 0 = attempt at *
  obtain ⟨later, carried, channels, last⟩ := runUntilIdle_stop admitted.coherent admitted.active
    listed 1 simulationLimit (Recording.performAll {} attempt.commands)
  rw [hplayer] at channels last
  have within := Machine.runUntilIdle_within machine simulationLimit
    ⟨attempt.player, attempt.leases, []⟩ (Recording.performAll {} attempt.commands)
    (Recording.now_performAll ..) (Recording.Timely.performAll (by intro e he; cases he) _)
  refine ⟨_, attempt.commands ++ later, rfl,
    (Recording.carriesOut_performAll {} attempt.commands).trans carried, ?_, ?_,
    within.timely.performAll _, ?_⟩
  · intro c hc
    rcases List.mem_append.mp hc with hc | hc
    · rw [hfirst, List.mem_singleton] at hc
      rw [hc, hchannel]
    · exact channels c hc
  · rw [List.getLast?_append, last, Option.some_or]
  · rw [Recording.now_performAll]
    exact within.clock ▸ within.spent

/-- The lines that are printed: each event once, in order, and the totals. -/
def script (sound : Sound) (events : List Event) (last : UInt32) : String :=
  sound.text ++ ":\n" ++ String.join (events.map fun e => "  " ++ e.line ++ "\n") ++
    toString (events.countP fun e => e.command.frequency?.isSome) ++ " tones, " ++
    toString (events.countP fun e => e.command.frequency?.isNone) ++ " silences, " ++
    toString last.toNat ++ " ms\n"

theorem dryRun_eq {recording : Recording} {before : List Event} {last : Event}
    (h : recording.events.toList = before ++ [last]) :
    dryRun sound recording = script sound recording.events.toList last.time := by
  have hlast : recording.events.back? = some last := by
    rw [← Array.getLast?_toList, h, List.getLast?_concat]
  simp only [dryRun, script, hlast, Recording.emitCount_eq, Recording.silenceCount_eq,
    Event.text_eq_line]
  rfl

/-- Without an export, what is printed on the standard output is the dry run, asked for or not. -/
theorem perform_of_ok (files : Files) (options : Options) (r : Response) {recording : Recording}
    (unexported : options.exportPath = none)
    (simulated : simulate sound options.repeats settings = .ok recording) :
    (perform files options settings sound r).stdout = r.stdout ++ dryRun sound recording ∧
      (perform files options settings sound r).code = r.code := by
  simp only [perform, simulated, unexported]
  split <;> exact ⟨rfl, rfl⟩

theorem perform_stdout_dryRun (files : Files) {options : Options} (settings : Settings)
    (sound : Sound) (r : Response) (unexported : options.exportPath = none) :
    (perform files { options with dryRun := true } settings sound r).stdout =
      (perform files options settings sound r).stdout := by
  cases hs : simulate sound options.repeats settings with
  | ok recording =>
    rw [(perform_of_ok files options r unexported hs).1]
    exact (perform_of_ok files { options with dryRun := true } r unexported hs).1
  | error error =>
    simp only [perform, hs]
    split <;> split <;> rfl

namespace Options

theorem apply_dryRun (o : Options) (item : Item) :
    apply { o with dryRun := true } item = { apply o item with dryRun := true } := by
  cases item <;> rfl

theorem foldl_apply_dryRun (o : Options) (items : List Item) :
    items.foldl apply { o with dryRun := true } = { items.foldl apply o with dryRun := true } :=
  List.foldl_hom (fun o : Options => { o with dryRun := true }) apply_dryRun

theorem readAll_dryRun (args : List String) :
    Item.readAll ("--dry-run" :: args) = .dryRun :: Item.readAll args := by
  rfl

theorem read_dryRun (args : List String) :
    read ("--dry-run" :: args) = { read args with dryRun := true } := by
  rw [read, readAll_dryRun]
  exact foldl_apply_dryRun {} (Item.readAll args)

theorem complaints_dryRun (args : List String) :
    complaints ("--dry-run" :: args) = complaints args := by
  rw [complaints, readAll_dryRun]
  rfl

end Options

/-- What is printed before anything is played. -/
def opening (args : List String) : Response :=
  { stderr := String.join ((Options.complaints args).map fun c => c.text ++ "\n") }

theorem respond_of_asked (files : Files) {args : List String}
    (help : (Options.read args).help = false) (list : (Options.read args).list = false)
    (asked : (Options.read args).sound = some sound) :
    respond files args =
      match settingsOf files (Options.read args) with
      | .error failure => (opening args).fail failure
      | .ok settings => perform files (Options.read args) settings sound (opening args) := by
  cases hs : settingsOf files (Options.read args) <;>
    simp only [respond, opening, help, list, asked, hs, Bool.false_eq_true, if_false]

theorem settingsOf_dryRun (files : Files) (options : Options) :
    settingsOf files { options with dryRun := true } = settingsOf files options := rfl

theorem respond_dryRun (files : Files) {args : List String}
    (help : (Options.read args).help = false) (list : (Options.read args).list = false)
    (unexported : (Options.read args).exportPath = none)
    (asked : (Options.read args).sound = some sound) :
    (respond files ("--dry-run" :: args)).stdout = (respond files args).stdout := by
  have hread := Options.read_dryRun args
  have hopening : opening ("--dry-run" :: args) = opening args := by
    rw [opening, Options.complaints_dryRun, opening]
  rw [respond_of_asked files help list asked, respond_of_asked files (by rw [hread]; exact help)
    (by rw [hread]; exact list) (by rw [hread]; exact asked), hread, hopening, settingsOf_dryRun]
  cases settingsOf files (Options.read args) with
  | error failure => rfl
  | ok settings => exact perform_stdout_dryRun files settings sound _ unexported

/-- Arguments that ask for a sound and for nothing else play it, if it starts, to a silence on the
first channel within ten minutes, after which nothing sounds. Each event is printed once, in order,
and then how many tones and silences there were and when the last was. Asking for a dry run as well
prints the same. -/
theorem respond_ends_silent (files : Files) (args : List String) {sound : Sound}
    (help : (Options.read args).help = false) (list : (Options.read args).list = false)
    (unexported : (Options.read args).exportPath = none)
    (asked : (Options.read args).sound = some sound) :
    (∀ settings, settingsOf files (Options.read args) = .ok settings →
      let request := sound.request (Options.read args).repeats
      (request.startFresh ⟨0⟩ settings {} 0).verdict = .ok () →
      ∃ recording before time,
        simulate sound (Options.read args).repeats settings = .ok recording ∧
        recording.events.toList = before ++ [⟨time, .silence ⟨0⟩⟩] ∧ time.toNat ≤ 600000 ∧
        (∀ c, recording.sounding.get? c = none) ∧ recording.now.toNat ≤ 600000 ∧
        (respond files args).stdout = script sound recording.events.toList time ∧
        (respond files args).code = 0) ∧
      (respond files ("--dry-run" :: args)).stdout = (respond files args).stdout := by
  constructor
  · intro settings accepted request starts
    obtain ⟨recording, commands, simulated, carried, channels, last, timely, limit⟩ :=
      simulate_ends starts
    obtain ⟨before, time, hlast⟩ := carried.lastEvent last
    have printed := perform_of_ok files (Options.read args) (opening args) unexported simulated
    have response := respond_of_asked files help list asked
    simp only [accepted] at response
    have hnow : recording.now.toNat ≤ 600000 := UInt32.le_iff_toNat_le.mp limit
    have htime : time.toNat ≤ recording.now.toNat :=
      UInt32.le_iff_toNat_le.mp (timely ⟨time, .silence channel⟩ (by simp [hlast]))
    rw [dryRun_eq hlast, ← response] at printed
    refine ⟨recording, before, time, simulated, hlast, Nat.le_trans htime hnow,
      carried.silent channels last, hnow, ?_, printed.2⟩
    simpa [opening] using printed.1
  · exact respond_dryRun files help list unexported asked

/-- Two beeps that are lower than the default settings allow. -/
theorem respond_ends_silent_beeping :
    let low := "\x7b\"frequency_range\": \x7b\"min\": 20, \"max\": 100\x7d\x7d"
    let files : Files := ⟨fun _ => .ok (Utf8.encode low), fun _ => false⟩
    let args := ["--config", "low.json", "--beep", "2:25:10:5"]
    let sound : Sound := .beep ⟨2, 25, 10, 5⟩
    ∃ recording before time,
      simulate sound 1 { range := ⟨20, 100⟩ } = .ok recording ∧
      recording.events.toList = before ++ [⟨time, .silence ⟨0⟩⟩] ∧ time.toNat ≤ 600000 ∧
      (∀ c, recording.sounding.get? c = none) ∧ recording.now.toNat ≤ 600000 ∧
      (respond files args).stdout = script sound recording.events.toList time ∧
      (respond files ("--dry-run" :: args)).stdout =
        script sound recording.events.toList time := by
  intro low files args sound
  have asked : (Options.read args).sound = some sound := rfl
  have path : (Options.read args).configPath = some "low.json" := rfl
  have loaded : Settings.load "low.json" (.ok (Utf8.encode low)) = .ok { range := ⟨20, 100⟩ } := by
    unfold low
    rfl
  have accepted : settingsOf files (Options.read args) = .ok { range := ⟨20, 100⟩ } := by
    simp only [settingsOf, path, files, loaded]
  obtain ⟨played, same⟩ := respond_ends_silent files args rfl rfl rfl asked
  obtain ⟨recording, before, time, simulated, last, timely, silent, now, printed, -⟩ :=
    played _ accepted rfl
  exact ⟨recording, before, time, simulated, last, timely, silent, now, printed,
    same.trans printed⟩

end Cli

end Piezo
