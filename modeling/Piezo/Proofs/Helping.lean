import Mathlib.Data.List.Induction
import Piezo.Proofs.Finale
import Piezo.Proofs.Phrases

/-!
Help: what the command line comes to when something is wrong with it.

A phrase that makes no sense is complained about and asks for help. It does nothing else, so the
options are those of the other phrases. Of those that set the same option the last one counts. Once
there is a need for help, nothing is read, played or written any more.
-/

namespace Piezo.Cli

open Phrase

/-- The words that mean something for what they are. -/
def IsFlag (word : String) : Prop := word ∈ switches ∨ ∃ flag : ValueFlag, word ∈ flag.words

/-- A line of the text, not the first one, begins with the words for one thing, of which this is
one, and goes on after a space. -/
def Explains (text word : String) : Prop :=
  ∃ before words after, (∀ w ∈ words, IsFlag w) ∧ word ∈ words ∧
    text = before ++ "\n  " ++ ", ".intercalate words ++ " " ++ after

/-- This is in the last of the phrases that say something of a kind. -/
def LastOf {α : Type} (kind : α → Item) (phrases : List Phrase) : Option α → Prop
  | some a => ∃ before p after, phrases = before ++ p :: after ∧ p.Means (kind a) ∧
      ∀ later ∈ after, ∀ b, ¬ later.Means (kind b)
  | none => ∀ p ∈ phrases, ∀ b, ¬ p.Means (kind b)

section LastOf

variable {α β : Type} {kind : α → Item} {phrases : List Phrase} {p : Phrase} {last : Option α}

theorem lastOf_concat {a : α} (means : p.Means (kind a)) :
    LastOf kind (phrases ++ [p]) (some a) :=
  ⟨phrases, p, [], rfl, means, by simp⟩

/-- A phrase of another kind may follow. -/
theorem LastOf.concat (h : LastOf kind phrases last) (other : ∀ b, ¬ p.Means (kind b)) :
    LastOf kind (phrases ++ [p]) last := by
  cases last with
  | some a =>
    obtain ⟨before, q, after, rfl, means, later⟩ := h
    refine ⟨before, q, after ++ [p], by simp, means, ?_⟩
    exact List.forall_mem_append.mpr ⟨later, List.forall_mem_singleton.mpr other⟩
  | none => exact List.forall_mem_append.mpr ⟨h, List.forall_mem_singleton.mpr other⟩

/-- An option that only one kind of item sets is what the last of them means. -/
theorem exists_lastOf (get : Options → β) (value : α → β)
    (sets : ∀ (o : Options) a, get (o.apply (kind a)) = value a)
    (keeps : ∀ (o : Options) item, (∀ a, item ≠ kind a) → get (o.apply item) = get o)
    (o : Options) (phrases : List Phrase) :
    ∃ last, LastOf kind phrases last ∧
      get ((phrases.map Phrase.item).foldl Options.apply o) = last.elim (get o) value := by
  -- From the end, where the phrase is that has the last word.
  induction phrases using List.reverseRecOn with
  | nil => exact ⟨none, by simp [LastOf], rfl⟩
  | append_singleton phrases p ih =>
    obtain ⟨last, means, held⟩ := ih
    rw [List.map_append, List.map_singleton, List.foldl_concat]
    by_cases said : ∃ a, p.item = kind a
    · obtain ⟨a, said⟩ := said
      refine ⟨some a, lastOf_concat (means_iff.mpr said), ?_⟩
      rw [said, sets, Option.elim_some]
    · refine ⟨last, means.concat fun a means => said ⟨a, means_iff.mp means⟩, ?_⟩
      rw [keeps _ _ fun a same => said ⟨a, same⟩, held]

/-- The same for an option that there is none of at first. -/
theorem lastOf_option {get : Options → Option α}
    (sets : ∀ (o : Options) a, get (o.apply (kind a)) = some a)
    (keeps : ∀ (o : Options) item, (∀ a, item ≠ kind a) → get (o.apply item) = get o)
    {o : Options} (unset : get o = none) (phrases : List Phrase) :
    LastOf kind phrases (get ((phrases.map Phrase.item).foldl Options.apply o)) := by
  obtain ⟨last, means, held⟩ := exists_lastOf get some sets keeps o phrases
  rw [held, unset]
  cases last <;> exact means

end LastOf

namespace Options

theorem apply_help (o : Options) (item : Item) :
    apply { o with help := true } item = { apply o item with help := true } := by
  cases item <;> rfl

theorem foldl_apply_help (o : Options) (items : List Item) :
    items.foldl apply { o with help := true } = { items.foldl apply o with help := true } :=
  List.foldl_hom (fun o : Options => { o with help := true }) apply_help

/-- A malformed item makes no difference but for the help. -/
theorem foldl_apply_malformed (o : Options) (before after : List Item) (complaint : Complaint) :
    (before ++ .malformed complaint :: after).foldl apply o =
      { (before ++ after).foldl apply o with help := true } := by
  rw [List.foldl_append, List.foldl_append, List.foldl_cons, ← foldl_apply_help]
  rfl

theorem help_apply (o : Options) (item : Item) :
    (o.apply item).help = true ↔
      o.help = true ∨ item = .help ∨ ∃ complaint, item = .malformed complaint := by
  cases item <;> simp [apply]

theorem help_foldl_apply (o : Options) (items : List Item) :
    (items.foldl apply o).help = true ↔
      o.help = true ∨
        ∃ item ∈ items, item = .help ∨ ∃ complaint, item = .malformed complaint := by
  induction items generalizing o with
  | nil => simp
  | cons item rest ih =>
    rw [List.foldl_cons, ih, help_apply, List.exists_mem_cons_iff, or_assoc]

end Options

variable {args : List String} {phrases : List Phrase}

theorem Parsed.read_eq (h : Parsed args phrases) :
    Options.read args = (phrases.map Phrase.item).foldl Options.apply {} := by
  rw [Options.read, h.readAll_eq]

theorem Parsed.help_iff (h : Parsed args phrases) :
    (Options.read args).help = true ↔ ∃ p ∈ phrases, p.Means .help ∨ p.Malformed := by
  rw [h.read_eq, Options.help_foldl_apply]
  simp only [List.mem_map, exists_exists_and_eq_and, Malformed, means_iff, Bool.false_eq_true,
    false_or]

theorem complaint?_eq_some {item : Item} {complaint : Complaint} :
    item.complaint? = some complaint ↔ item = .malformed complaint := by
  cases item <;> simp [Item.complaint?]

/-- What is complained about is what is wrong with the phrases. -/
theorem Parsed.mem_complaints (h : Parsed args phrases) (complaint : Complaint) :
    complaint ∈ Options.complaints args ↔ ∃ p ∈ phrases, p.Means (.malformed complaint) := by
  simp only [Options.complaints, h.readAll_eq, List.mem_filterMap, List.mem_map,
    exists_exists_and_eq_and, complaint?_eq_some, means_iff]

/-- Without a malformed phrase the options are the same, but for the help. -/
theorem Parsed.read_without {before after : List Phrase} {p : Phrase}
    (h : Parsed args (before ++ p :: after)) (malformed : p.Malformed) :
    Options.read args =
      { Options.read ((before ++ after).flatMap Phrase.args) with help := true } := by
  obtain ⟨complaint, means⟩ := malformed
  rw [h.read_eq, h.without.read_eq, List.map_append, List.map_cons, means_iff.mp means,
    Options.foldl_apply_malformed, List.map_append]

/-- Of the phrases that set the same option the last one counts. -/
theorem Parsed.lastOf (h : Parsed args phrases) :
    LastOf .sound phrases (Options.read args).sound ∧
      (∃ count, LastOf .repeats phrases count ∧ (Options.read args).repeats = count.getD 1) ∧
      LastOf .config phrases (Options.read args).configPath ∧
      LastOf .exportTo phrases (Options.read args).exportPath := by
  rw [h.read_eq]
  refine ⟨?_, ?_, ?_, ?_⟩
  · refine lastOf_option (fun o sound => rfl) (fun o item other => ?_) rfl phrases
    cases item with
    | sound sound => exact absurd rfl (other sound)
    | _ => rfl
  · have keeps (o : Options) (item : Item) (other : ∀ count, item ≠ .repeats count) :
        (o.apply item).repeats = o.repeats := by
      cases item with
      | repeats count => exact absurd rfl (other count)
      | _ => rfl
    obtain ⟨count, last, held⟩ := exists_lastOf _ id (fun o count => rfl) keeps {} phrases
    refine ⟨count, last, held.trans ?_⟩
    cases count <;> rfl
  · refine lastOf_option (fun o path => rfl) (fun o item other => ?_) rfl phrases
    cases item with
    | config path => exact absurd rfl (other path)
    | _ => rfl
  · refine lastOf_option (fun o path => rfl) (fun o item other => ?_) rfl phrases
    cases item with
    | exportTo path => exact absurd rfl (other path)
    | _ => rfl

section Explained

theorem switch_entry :
    ∀ word ∈ switches, ∃ e ∈ soundEntries ++ optionEntries, word ∈ e.words ∧
      ∀ w ∈ e.words, w ∈ switches := by
  decide +kernel

theorem flag_entry (flag : ValueFlag) :
    ∃ e ∈ soundEntries ++ optionEntries, e.words = flag.words.reverse := by
  rcases flag with _ | _ | _ | _ | _ | _ | _ | _ <;> decide +kernel

/-- Flags that mean the same have a line together. -/
theorem IsFlag.exists_entry {word : String} (h : IsFlag word) :
    ∃ e ∈ soundEntries ++ optionEntries, word ∈ e.words ∧ ∀ w ∈ e.words, IsFlag w := by
  obtain switch | ⟨flag, named⟩ := h
  · obtain ⟨e, listed, mem, all⟩ := switch_entry word switch
    exact ⟨e, listed, mem, fun w hw => .inl (all w hw)⟩
  · obtain ⟨e, listed, words⟩ := flag_entry flag
    refine ⟨e, listed, ?_, fun w hw => .inr ⟨flag, ?_⟩⟩
    · rwa [words, List.mem_reverse]
    · rwa [words, List.mem_reverse] at hw

/-- Every line but the first stands after a line feed. -/
theorem join_split (first line : String) (before after : List String) :
    ∃ text rest, String.join ((first :: (before ++ line :: after)).map (· ++ "\n")) =
      text ++ "\n" ++ line ++ rest := by
  induction before generalizing first with
  | nil =>
    refine ⟨first, "\n" ++ String.join (after.map (· ++ "\n")), ?_⟩
    simp [String.append_assoc]
  | cons next before ih =>
    obtain ⟨text, rest, split⟩ := ih next
    refine ⟨first ++ "\n" ++ text, rest, ?_⟩
    rw [List.cons_append, List.map_cons, String.join_cons, split]
    simp only [String.append_assoc]

theorem line_mem {e : Entry} (h : e ∈ soundEntries ++ optionEntries) :
    e.line ∈ helpLines.tail := by
  have listed : e.line ∈ soundEntries.map Entry.line ∨ e.line ∈ optionEntries.map Entry.line :=
    (List.mem_append.mp h).imp List.mem_map_of_mem List.mem_map_of_mem
  simp only [helpLines, List.cons_append, List.tail_cons, List.mem_cons, List.mem_append]
  rcases listed with sound | option
  · simp only [sound, true_or, or_true]
  · simp only [option, true_or, or_true]

theorem Entry.line_eq (e : Entry) :
    ∃ rest, e.line = "  " ++ ", ".intercalate e.words ++ " " ++ rest := by
  let usage := ", ".intercalate e.words ++ " " ++ e.value
  refine ⟨e.value ++ (String.ofList (List.replicate (27 - usage.length) ' ') ++ e.purpose), ?_⟩
  simp only [Entry.line, usage, String.append_assoc]

/-- There is a line of help for every flag. -/
theorem help_explains {word : String} (h : IsFlag word) : Explains help word := by
  obtain ⟨e, listed, mem, flags⟩ := h.exists_entry
  obtain ⟨before, after, split⟩ := List.append_of_mem (line_mem listed)
  obtain ⟨text, rest, joined⟩ := join_split "Usage:" e.line before after
  obtain ⟨tail, line⟩ := e.line_eq
  refine ⟨text, e.words, tail ++ rest, flags, mem, ?_⟩
  calc help
    _ = text ++ "\n" ++ e.line ++ rest := by
      rw [← joined, ← split]
      rfl
    _ = text ++ "\n  " ++ ", ".intercalate e.words ++ " " ++ (tail ++ rest) := by
      have indent : "\n  " = "\n" ++ "  " := rfl
      simp only [line, indent, String.append_assoc]

end Explained

theorem respond_of_help (files : Files) (help : (Options.read args).help = true) :
    respond files args = (opening args).complain Cli.help := by
  simp only [respond, opening, help, if_true]

theorem neededConfig_of_help {o : Options} (help : o.help = true) : o.neededConfig = none := by
  rw [Options.neededConfig, help]
  rfl

/-- The arguments fall into phrases in one way. There is help if a phrase asks for it or one of them
is malformed, and what is wrong with each is complained about. A malformed phrase changes nothing
else, and without it the others stay as they are. What is set is what the last phrase that sets it
means. With help, nothing is read or written, there is nothing on the standard output, and the
program succeeds. The help that is printed has a line for every flag. -/
theorem bad_arguments_isolated (args : List String) :
    ∃ phrases, (∀ others, Parsed args others ↔ others = phrases) ∧
      ((Options.read args).help = true ↔ ∃ p ∈ phrases, p.Means .help ∨ p.Malformed) ∧
      (∀ complaint, complaint ∈ Options.complaints args ↔
        ∃ p ∈ phrases, p.Means (.malformed complaint)) ∧
      (∀ before p after, phrases = before ++ p :: after → p.Malformed →
        let rest := (before ++ after).flatMap Phrase.args
        Parsed rest (before ++ after) ∧
          Options.read args = { Options.read rest with help := true }) ∧
      (LastOf .sound phrases (Options.read args).sound ∧
        (∃ count, LastOf .repeats phrases count ∧ (Options.read args).repeats = count.getD 1) ∧
        LastOf .config phrases (Options.read args).configPath ∧
        LastOf .exportTo phrases (Options.read args).exportPath) ∧
      ((Options.read args).help = true →
        (Options.read args).neededConfig = none ∧ ∀ files,
          let response := respond files args
          response.code = 0 ∧ response.stdout = "" ∧ response.written = none ∧
            response.stderr = (opening args).stderr ++ help) ∧
      ∀ word, IsFlag word → Explains help word := by
  obtain ⟨phrases, parsed⟩ := Parsed.exists_phrases args
  refine ⟨phrases, ?_, parsed.help_iff, parsed.mem_complaints, ?_, parsed.lastOf, ?_,
    fun word => help_explains⟩
  · intro others
    constructor
    · exact parsed.unique
    · intro same
      exact same ▸ parsed
  · intro before p after split malformed
    rw [split] at parsed
    exact ⟨parsed.without, parsed.read_without malformed⟩
  · intro asked
    refine ⟨neededConfig_of_help asked, fun files => ?_⟩
    rw [respond_of_help files asked]
    exact ⟨rfl, rfl, rfl, rfl⟩

/-- A flag takes what comes next for its value, so the one plea for help is the name of a file. -/
theorem bad_arguments_isolated_hungry :
    let args := ["--repeat", "300", "Nokia", "--config", "--help"]
    let rest := ["Nokia", "--config", "--help"]
    (Options.read rest).help = false ∧ (Options.read rest).configPath = some "--help" ∧
      (∃ text, Table.ringtones.find? "Nokia" = some text ∧
        (Options.read rest).sound = some (.tune text)) ∧
      Options.read args = { Options.read rest with help := true } ∧
      (∀ files, (respond files args).stdout = "" ∧ (respond files args).written = none) ∧
      Explains help "--repeat" := by
  intro args rest
  let tune : List Phrase := [.alone "Nokia", .valued .config "--config" "--help"]
  have parsed : Parsed args (.valued .repeats "--repeat" "300" :: tune) := by
    refine .valued List.mem_cons_self (.alone ?_ (.valued List.mem_cons_self .nil))
    exact ValueFlag.ofText?_eq_none.mp rfl
  have malformed : (Phrase.valued .repeats "--repeat" "300").Malformed :=
    ⟨.badRepeats, means_iff.mpr rfl⟩
  obtain ⟨phrases, unique, -, -, isolated, -, helped, explained⟩ := bad_arguments_isolated args
  obtain ⟨-, same⟩ := isolated [] _ tune ((unique _).mp parsed).symm malformed
  have asked : (Options.read args).help = true := by rw [same]
  obtain ⟨-, responses⟩ := helped asked
  refine ⟨rfl, rfl, ⟨_, rfl, rfl⟩, same, fun files => ?_,
    explained _ (.inr ⟨.repeats, List.mem_cons_self⟩)⟩
  obtain ⟨-, printed, written, -⟩ := responses files
  exact ⟨printed, written⟩

end Piezo.Cli
