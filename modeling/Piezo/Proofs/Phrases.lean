import Piezo.Proofs.Parameters

/-!
Phrases: how the arguments of the command line belong together, and what each phrase means.

A flag that takes a value makes one phrase with whatever stands after it, even if that looks like a
flag. Every other argument is a phrase by itself. The phrases depend on nothing but the order of the
arguments, so leaving one out leaves the others as they were.
-/

namespace Piezo.Cli

open Text Text.Decimal

/-- The words for a flag that takes a value. -/
def ValueFlag.words : ValueFlag → List String
  | .melody => ["--melody", "-m"]
  | .repeats => ["--repeat", "-r"]
  | .config => ["--config", "-c"]
  | .exportTo => ["--export", "-o"]
  | .sound flag => [flag.text]

/-- What is wrong with a flag without its value. -/
def ValueFlag.lacking : ValueFlag → Complaint
  | .melody => .noName
  | .repeats => .badRepeats
  | .config => .noConfigPath
  | .exportTo => .noExportPath
  | .sound flag => .badParameters flag

/-- The words that say something without a value. -/
def switches : List String := ["--help", "-h", "--list", "-l", "--dry-run", "-n", "--sample"]

/-- Arguments that belong together. -/
inductive Phrase where
  | alone (arg : String)
  | valued (flag : ValueFlag) (word value : String)
  /-- A flag after which there is nothing left for a value. -/
  | unfinished (flag : ValueFlag) (word : String)

/-- The arguments fall into these phrases, from left to right. -/
inductive Parsed : List String → List Phrase → Prop
  | nil : Parsed [] []
  | alone {arg : String} {rest : List String} {phrases : List Phrase}
      (plain : ∀ flag : ValueFlag, arg ∉ flag.words) (parsed : Parsed rest phrases) :
      Parsed (arg :: rest) (.alone arg :: phrases)
  | valued {flag : ValueFlag} {word value : String} {rest : List String} {phrases : List Phrase}
      (named : word ∈ flag.words) (parsed : Parsed rest phrases) :
      Parsed (word :: value :: rest) (.valued flag word value :: phrases)
  | unfinished {flag : ValueFlag} {word : String} (named : word ∈ flag.words) :
      Parsed [word] [.unfinished flag word]

namespace Phrase

def args : Phrase → List String
  | .alone arg => [arg]
  | .valued _ word value => [word, value]
  | .unfinished _ word => [word]

/-- What a phrase means, and what is wrong with it if it means nothing. -/
inductive Means : Phrase → Item → Prop
  | help {arg : String} (named : arg ∈ ["--help", "-h"]) : Means (.alone arg) .help
  | list {arg : String} (named : arg ∈ ["--list", "-l"]) : Means (.alone arg) .list
  | dryRun {arg : String} (named : arg ∈ ["--dry-run", "-n"]) : Means (.alone arg) .dryRun
  | sample : Means (.alone "--sample") (.sound .sample)
  | unknownFlag {arg : String} (unknown : arg ∉ switches) (hyphen : arg.toList.head? = some '-') :
      Means (.alone arg) (.malformed (.unknownFlag arg))
  | ringtone {arg text : String} (plain : arg.toList.head? ≠ some '-')
      (listed : Table.ringtones.find? arg = some text) : Means (.alone arg) (.sound (.tune text))
  | tune {arg : String} (plain : arg.toList.head? ≠ some '-')
      (unlisted : Table.ringtones.find? arg = none) : Means (.alone arg) (.sound (.tune arg))
  | melody {word name text : String} (listed : Table.ringtones.find? name = some text) :
      Means (.valued .melody word name) (.sound (.tune text))
  | unknownMelody {word name : String} (unlisted : Table.ringtones.find? name = none) :
      Means (.valued .melody word name) (.malformed (.unknownMelody name))
  | repeats {word value : String} {n : UInt8} (numeral : Numeral false value.toList n.toNat) :
      Means (.valued .repeats word value) (.repeats n)
  | badRepeats {word value : String} (bad : ∀ n : UInt8, ¬ Numeral false value.toList n.toNat) :
      Means (.valued .repeats word value) (.malformed .badRepeats)
  | config {word path : String} : Means (.valued .config word path) (.config path)
  | exportTo {word path : String} : Means (.valued .exportTo word path) (.exportTo path)
  | sound {flag : SoundFlag} {word value : String} {sound : Sound} {numbers : List Int}
      (spells : flag.Spells value numbers) (parameters : Sound.Parameters flag sound numbers) :
      Means (.valued (.sound flag) word value) (.sound sound)
  | badParameters {flag : SoundFlag} {word value : String}
      (bad : ∀ numbers, flag.Spells value numbers → ¬ flag.Takes numbers) :
      Means (.valued (.sound flag) word value) (.malformed (.badParameters flag))
  | noValue {flag : ValueFlag} {word : String} :
      Means (.unfinished flag word) (.malformed flag.lacking)

/-- There is something wrong with the phrase. -/
def Malformed (p : Phrase) : Prop := ∃ complaint, p.Means (.malformed complaint)

/-- A phrase as an item. -/
def item : Phrase → Item
  | .alone arg => .ofSingle arg
  | .valued flag _ value => .ofFlag flag (some value)
  | .unfinished flag _ => .ofFlag flag none

end Phrase

variable {args : List String} {phrases : List Phrase} {p : Phrase}

theorem ValueFlag.ofText?_eq_some {arg : String} {flag : ValueFlag} :
    ofText? arg = some flag ↔ arg ∈ flag.words := by
  constructor
  · intro h
    unfold ofText? at h
    split_ifs at h with melody repeats config exportTo tone beep sweep siren
    · cases h
      rcases melody with rfl | rfl <;> simp [words]
    · cases h
      rcases repeats with rfl | rfl <;> simp [words]
    · cases h
      rcases config with rfl | rfl <;> simp [words]
    · cases h
      rcases exportTo with rfl | rfl <;> simp [words]
    all_goals
      cases h
      subst arg
      exact List.mem_singleton_self _
  · intro h
    rcases flag with _ | _ | _ | _ | flag
    · rcases List.mem_pair.mp h with rfl | rfl <;> rfl
    · rcases List.mem_pair.mp h with rfl | rfl <;> rfl
    · rcases List.mem_pair.mp h with rfl | rfl <;> rfl
    · rcases List.mem_pair.mp h with rfl | rfl <;> rfl
    · obtain rfl := List.mem_singleton.mp h
      cases flag <;> rfl

theorem ValueFlag.ofText?_eq_none {arg : String} :
    ofText? arg = none ↔ ∀ flag : ValueFlag, arg ∉ flag.words := by
  rw [Option.eq_none_iff_forall_ne_some]
  exact forall_congr' fun flag => not_congr ofText?_eq_some

namespace Parsed

/-- Arguments are read phrase by phrase. -/
theorem readAll_eq (h : Parsed args phrases) : Item.readAll args = phrases.map Phrase.item := by
  induction h with
  | nil => rfl
  | alone plain _ ih =>
    rw [Item.readAll, ValueFlag.ofText?_eq_none.mpr plain, List.map_cons, ← ih]
    rfl
  | valued named _ ih =>
    rw [Item.readAll, ValueFlag.ofText?_eq_some.mpr named, List.map_cons, ← ih]
    rfl
  | unfinished named =>
    rw [Item.readAll, ValueFlag.ofText?_eq_some.mpr named]
    rfl

theorem exists_phrases (args : List String) : ∃ phrases, Parsed args phrases := by
  induction args using Item.readAll.induct with
  | case1 => exact ⟨[], .nil⟩
  | case2 arg rest plain ih =>
    obtain ⟨phrases, parsed⟩ := ih
    exact ⟨_, .alone (ValueFlag.ofText?_eq_none.mp plain) parsed⟩
  | case3 word flag named => exact ⟨_, .unfinished (ValueFlag.ofText?_eq_some.mp named)⟩
  | case4 word flag named value rest ih =>
    obtain ⟨phrases, parsed⟩ := ih
    exact ⟨_, .valued (ValueFlag.ofText?_eq_some.mp named) parsed⟩

theorem flag_eq {word : String} {flag other : ValueFlag} (h : word ∈ flag.words)
    (k : word ∈ other.words) : flag = other :=
  Option.some.inj
    ((ValueFlag.ofText?_eq_some.mpr h).symm.trans (ValueFlag.ofText?_eq_some.mpr k))

/-- There is only one way to read the arguments. -/
theorem unique {others : List Phrase} (h : Parsed args phrases) (k : Parsed args others) :
    others = phrases := by
  induction h generalizing others with
  | nil =>
    cases k
    rfl
  | alone plain _ ih =>
    cases k with
    | alone _ parsed => rw [ih parsed]
    | valued named _ => exact absurd named (plain _)
    | unfinished named => exact absurd named (plain _)
  | valued named _ ih =>
    cases k with
    | alone plain _ => exact absurd named (plain _)
    | valued other parsed => rw [ih parsed, flag_eq named other]
  | unfinished named =>
    cases k with
    | alone plain _ => exact absurd named (plain _)
    | unfinished other => rw [flag_eq named other]

theorem args_eq (h : Parsed args phrases) : phrases.flatMap Phrase.args = args := by
  induction h with
  | nil => rfl
  | alone _ _ ih => rw [List.flatMap_cons, ih]; rfl
  | valued _ _ ih => rw [List.flatMap_cons, ih]; rfl
  | unfinished _ => rfl

/-- Without one of the phrases, the arguments fall into the others. -/
theorem without {before after : List Phrase} (h : Parsed args (before ++ p :: after)) :
    Parsed ((before ++ after).flatMap Phrase.args) (before ++ after) := by
  induction before generalizing args with
  | nil =>
    rw [List.nil_append] at h ⊢
    cases h with
    | alone _ parsed => rwa [parsed.args_eq]
    | valued _ parsed => rwa [parsed.args_eq]
    | unfinished _ => exact .nil
  | cons first before ih =>
    rw [List.cons_append] at h ⊢
    rw [List.flatMap_cons]
    generalize split : before ++ p :: after = rest at h
    cases h with
    | alone plain parsed => exact .alone plain (ih (split ▸ parsed))
    | valued named parsed => exact .valued named (ih (split ▸ parsed))
    | unfinished _ => simp at split

end Parsed

namespace Phrase

theorem means_alone (arg : String) : (Phrase.alone arg).Means (.ofSingle arg) := by
  unfold Item.ofSingle
  split_ifs with help list dryRun sample hyphen
  · exact .help (by simpa using help)
  · exact .list (by simpa using list)
  · exact .dryRun (by simpa using dryRun)
  · subst sample
    exact .sample
  · refine .unknownFlag ?_ hyphen
    simp only [switches, List.mem_cons, List.not_mem_nil, or_false]
    tauto
  · cases listed : Table.ringtones.find? arg with
    | none => exact .tune hyphen listed
    | some text => exact .ringtone hyphen listed

theorem count_eq_some {value : String} {n : UInt8} :
    Decimal.atMost 255 value.toList = some n.toNat ↔ Numeral false value.toList n.toNat := by
  rw [atMost_eq_some]
  exact and_iff_left (Nat.le_of_lt_succ n.toNat_lt)

theorem count_eq_none {value : String} :
    Decimal.atMost 255 value.toList = none ↔
      ∀ n : UInt8, ¬ Numeral false value.toList n.toNat := by
  rw [Option.eq_none_iff_forall_ne_some]
  constructor
  · intro h n numeral
    exact h n.toNat (count_eq_some.mpr numeral)
  · intro h n count
    obtain ⟨numeral, bound⟩ := atMost_eq_some.mp count
    apply h (UInt8.ofNat n)
    rwa [UInt8.toNat_ofNat_of_lt' (Nat.lt_succ_of_le bound)]

theorem means_valued (flag : ValueFlag) (word value : String) :
    (Phrase.valued flag word value).Means (.ofFlag flag (some value)) := by
  cases flag with
  | melody =>
    cases listed : Table.ringtones.find? value with
    | none =>
      simp only [Item.ofFlag, listed]
      exact .unknownMelody listed
    | some text =>
      simp only [Item.ofFlag, listed]
      exact .melody listed
  | repeats =>
    cases count : Decimal.atMost 255 value.toList with
    | none =>
      simp only [Item.ofFlag, Option.bind_some, count]
      exact .badRepeats (count_eq_none.mp count)
    | some n =>
      simp only [Item.ofFlag, Option.bind_some, count]
      have bound := (atMost_eq_some.mp count).2
      refine .repeats (count_eq_some.mp ?_)
      rw [count, UInt8.toNat_ofNat_of_lt' (Nat.lt_succ_of_le bound)]
  | config => exact .config
  | exportTo => exact .exportTo
  | sound flag =>
    cases made : Sound.ofParameters? flag value with
    | none =>
      simp only [Item.ofFlag, Option.bind_some, made]
      exact .badParameters (Sound.ofParameters?_eq_none.mp made)
    | some sound =>
      simp only [Item.ofFlag, Option.bind_some, made]
      obtain ⟨numbers, parameters, spells⟩ := Sound.ofParameters?_eq_some.mp made
      exact .sound spells parameters

/-- Every phrase means something, be it that something is wrong. -/
theorem means_item (p : Phrase) : p.Means p.item := by
  cases p with
  | alone arg => exact means_alone arg
  | valued flag word value => exact means_valued flag word value
  | unfinished flag word =>
    cases flag <;> exact .noValue

/-- No switch is without a hyphen. -/
theorem ofSingle_plain {arg : String} (plain : arg.toList.head? ≠ some '-') :
    Item.ofSingle arg = .sound (.tune ((Table.ringtones.find? arg).getD arg)) := by
  have unlike : ∀ word ∈ switches, arg ≠ word := by
    intro word hw same
    subst same
    revert plain
    simp only [switches, List.mem_cons, List.not_mem_nil, or_false] at hw
    rcases hw with rfl | rfl | rfl | rfl | rfl | rfl | rfl <;> decide
  simp only [switches, List.forall_mem_cons] at unlike
  obtain ⟨help, h, list, l, dryRun, n, sample, -⟩ := unlike
  simp only [Item.ofSingle, help, h, list, l, dryRun, n, sample, plain, or_self, if_false]

theorem Means.item_eq {i : Item} (h : p.Means i) : p.item = i := by
  cases h with
  | help named =>
    rcases List.mem_pair.mp named with rfl | rfl <;> rfl
  | list named =>
    rcases List.mem_pair.mp named with rfl | rfl <;> rfl
  | dryRun named =>
    rcases List.mem_pair.mp named with rfl | rfl <;> rfl
  | sample => rfl
  | unknownFlag unknown hyphen =>
    simp only [switches, List.mem_cons, List.not_mem_nil, or_false, not_or] at unknown
    obtain ⟨help, h, list, l, dryRun, n, sample⟩ := unknown
    simp only [item, Item.ofSingle, help, h, list, l, dryRun, n, sample, hyphen, or_self, if_true,
      if_false]
  | ringtone plain listed => rw [item, ofSingle_plain plain, listed, Option.getD_some]
  | tune plain unlisted => rw [item, ofSingle_plain plain, unlisted, Option.getD_none]
  | melody listed => simp only [item, Item.ofFlag, listed]
  | unknownMelody unlisted => simp only [item, Item.ofFlag, unlisted]
  | repeats numeral =>
    simp only [item, Item.ofFlag, Option.bind_some, count_eq_some.mpr numeral, UInt8.ofNat_toNat]
  | badRepeats bad => simp only [item, Item.ofFlag, Option.bind_some, count_eq_none.mpr bad]
  | config => rfl
  | exportTo => rfl
  | sound spells parameters =>
    simp only [item, Item.ofFlag, Option.bind_some,
      Sound.ofParameters?_eq_some.mpr ⟨_, parameters, spells⟩]
  | badParameters bad =>
    simp only [item, Item.ofFlag, Option.bind_some, Sound.ofParameters?_eq_none.mpr bad]
  | @noValue flag _ => cases flag <;> rfl

/-- What a phrase means is its item, and nothing else. -/
theorem means_iff {i : Item} : p.Means i ↔ p.item = i := by
  constructor
  · exact Means.item_eq
  · intro h
    exact h ▸ means_item p

end Phrase

end Piezo.Cli
