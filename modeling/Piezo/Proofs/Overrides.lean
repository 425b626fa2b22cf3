import Mathlib.Data.List.Perm.Basic
import Piezo.Proofs.SettingsText

/-!
Overrides: settings read from a text that gives only a part of them. What it gives replaces the
defaults, field by field at both levels. Nothing else matters: not the order of the members, not
what other members there are, and not the layout of the text.
-/

namespace Piezo

namespace Json

/-- The members that give fields their values, in the order of the fields. -/
def given (fields : List (String × Option Json)) : List (Option String × Json) :=
  fields.filterMap fun (name, value) => value.map (some name, ·)

/-- Members that give fields exactly these values, in any order, among members of other names. A
name must be a text at least; a string with half a surrogate pair is none. -/
def Gives (fields : List (String × Option Json)) (members : List (Option String × Json)) : Prop :=
  ∃ others, members.Perm (given fields ++ others) ∧
    ∀ m ∈ others, ∃ name, m.1 = some name ∧ name ∉ fields.map Prod.fst

section Members

variable {fields : List (String × Option Json)} {members others : List (Option String × Json)}
  {name : String} {value : Option Json}

theorem named_append (members others : List (Option String × Json)) (name : String) :
    named (members ++ others) name = named members name ++ named others name := by
  rw [named, List.filter_append, List.map_append, named, named]

theorem named_eq_nil (h : ∀ m ∈ members, ∃ other, m.1 = some other ∧ other ≠ name) :
    named members name = [] := by
  rw [named, List.map_eq_nil_iff, List.filter_eq_nil_iff]
  intro m hm
  obtain ⟨other, ho, different⟩ := h m hm
  simp [ho, different]

theorem mem_given {m : Option String × Json} (h : m ∈ given fields) :
    ∃ name ∈ fields.map Prod.fst, m.1 = some name := by
  obtain ⟨⟨name, value⟩, field, hv⟩ := List.mem_filterMap.mp h
  obtain ⟨v, -, rfl⟩ := Option.map_eq_some_iff.mp hv
  exact ⟨name, List.mem_map_of_mem field, rfl⟩

theorem named_given_of_notMem (h : name ∉ fields.map Prod.fst) : named (given fields) name = [] :=
  named_eq_nil fun _ hm =>
    let ⟨other, field, ho⟩ := mem_given hm
    ⟨other, ho, fun same => h (same ▸ field)⟩

/-- If no two fields have one name, the members of a field's name hold its value and nothing
else. -/
theorem named_given (nodup : (fields.map Prod.fst).Nodup) (h : (name, value) ∈ fields) :
    named (given fields) name = value.toList := by
  induction fields with
  | nil => cases h
  | cons first rest ih =>
    obtain ⟨once, nodup⟩ := List.nodup_cons.mp nodup
    have split : given (first :: rest) = given [first] ++ given rest := by
      rw [given, given, given, ← List.filterMap_append]
      rfl
    rw [split, named_append]
    rcases List.mem_cons.mp h with rfl | field
    · rw [named_given_of_notMem once, List.append_nil]
      cases value <;> simp [given, named]
    · have different : name ∉ [first].map Prod.fst := fun he => by
        rw [List.map_singleton, List.mem_singleton] at he
        exact once (he ▸ List.mem_map_of_mem field)
      rw [named_given_of_notMem different, List.nil_append]
      exact ih nodup field

/-- A look at a field finds its value in any order of the members. -/
theorem Gives.named (h : Gives fields members) (nodup : (fields.map Prod.fst).Nodup)
    (field : (name, value) ∈ fields) : named members name = value.toList := by
  obtain ⟨others, perm, unknown⟩ := h
  have unnamed : Json.named others name = [] := named_eq_nil fun m hm =>
    let ⟨other, ho, absent⟩ := unknown m hm
    ⟨other, ho, fun same => absent (same ▸ List.mem_map_of_mem field)⟩
  have found : (Json.named members name).Perm value.toList := by
    rw [← named_given nodup field, ← List.append_nil (Json.named (given fields) name), ← unnamed,
      ← named_append]
    exact (perm.filter _).map _
  -- There is at most one member of the name, and so no order among them.
  cases value with
  | none => exact List.perm_nil.mp found
  | some v => exact List.perm_singleton.mp found

theorem Gives.text_names (h : Gives fields members) : members.any (·.1.isNone) = false := by
  obtain ⟨others, perm, unknown⟩ := h
  refine List.any_eq_false.mpr fun m hm => ?_
  have named : ∃ name, m.1 = some name := by
    rcases List.mem_append.mp (perm.mem_iff.mp hm) with hm | hm
    · exact (mem_given hm).imp fun _ => And.right
    · exact (unknown m hm).imp fun _ => And.left
  obtain ⟨name, hname⟩ := named
  simp [hname]

theorem mapM_fields {read : String → Option (Option Json)}
    (each : ∀ field ∈ fields, read field.1 = some field.2) :
    (fields.map Prod.fst).mapM read = some (fields.map Prod.snd) := by
  induction fields with
  | nil => rfl
  | cons field rest ih =>
    obtain ⟨hfield, hrest⟩ := List.forall_mem_cons.mp each
    rw [List.map_cons, List.mapM_cons, hfield, ih hrest]
    rfl

/-- A record of members that give its fields their values has these values. -/
theorem Gives.record? (h : Gives fields members) (nodup : (fields.map Prod.fst).Nodup) :
    record? (fields.map Prod.fst) (.object members) = some (fields.map Prod.snd) := by
  rw [Json.record?, if_neg (by simp [h.text_names])]
  refine mapM_fields fun given field => ?_
  obtain ⟨name, value⟩ := given
  rw [h.named nodup field]
  cases value <;> rfl

end Members

section Defaults

variable {α β : Type}

/-- A field that is given replaces its default. -/
theorem orElse_map {write : α → Json} {read : Json → Option α}
    (reads : ∀ a, read (write a) = some a) (part : Option α) (default : α) :
    orElse (part.map write) default read = some (part.getD default) := by
  cases part with
  | none => rfl
  | some a => exact reads a

/-- A field of which a part is given replaces that part of its default. -/
theorem orElse_rel {R : β → Json → Prop} {part : Option β} {value : Option Json}
    (h : Option.Rel R part value) {read : Json → Option α} {replace : β → α}
    (reads : ∀ b v, R b v → read v = some (replace b)) (default : α) :
    orElse value default read = some ((part.map replace).getD default) := by
  cases h with
  | none => rfl
  | some h => exact reads _ _ h

end Defaults

end Json

open Json

/-- The part of a frequency range that a text gives. -/
structure RangePart where
  min : Option UInt32 := none
  max : Option UInt32 := none

/-- The part of limits that a text gives. -/
structure LimitsPart where
  notes : Option UInt64 := none
  bytes : Option UInt64 := none

/-- The part of settings that a text gives; of what has fields itself, it may give a part again. -/
structure SettingsPart where
  range : Option RangePart := none
  settleMargin : Option UInt32 := none
  sirenDivisions : Option UInt32 := none
  limits : Option LimitsPart := none

namespace RangePart

/-- A range with exactly the given fields replaced. -/
def onto (p : RangePart) (r : FrequencyRange) : FrequencyRange where
  min := p.min.getD r.min
  max := p.max.getD r.max

/-- Objects that give a part and nothing more, but for members of other names. -/
def WrittenAs (p : RangePart) (v : Json) : Prop :=
  ∃ members, v = .object members ∧
    Gives [("min", p.min.map fun w => .ofNat w.toNat), ("max", p.max.map fun w => .ofNat w.toNat)]
      members

theorem WrittenAs.ofJson? {p : RangePart} {v : Json} (h : p.WrittenAs v) :
    FrequencyRange.ofJson? v = some (p.onto {}) := by
  obtain ⟨members, rfl, gives⟩ := h
  have nodup : FrequencyRange.fields.Nodup := by decide
  have fields : (Json.object members).record? FrequencyRange.fields = _ := gives.record? nodup
  simp only [FrequencyRange.ofJson?, fields, List.map_cons, List.map_nil, orElse_map word32?_ofNat]
  rfl

end RangePart

namespace LimitsPart

/-- Limits with exactly the given fields replaced. -/
def onto (p : LimitsPart) (l : Limits) : Limits where
  notes := p.notes.getD l.notes
  bytes := p.bytes.getD l.bytes

/-- Objects that give a part and nothing more, but for members of other names. -/
def WrittenAs (p : LimitsPart) (v : Json) : Prop :=
  ∃ members, v = .object members ∧
    Gives [("max_notes", p.notes.map fun w => .ofNat w.toNat),
      ("max_source_len", p.bytes.map fun w => .ofNat w.toNat)] members

theorem WrittenAs.ofJson? {p : LimitsPart} {v : Json} (h : p.WrittenAs v) :
    Limits.ofJson? v = some (p.onto {}) := by
  obtain ⟨members, rfl, gives⟩ := h
  have nodup : Limits.fields.Nodup := by decide
  have fields : (Json.object members).record? Limits.fields = _ := gives.record? nodup
  simp only [Limits.ofJson?, fields, List.map_cons, List.map_nil, orElse_map word64?_ofNat]
  rfl

end LimitsPart

namespace SettingsPart

/-- Settings with exactly the given fields replaced. -/
def onto (p : SettingsPart) (s : Settings) : Settings where
  range := (p.range.map (·.onto s.range)).getD s.range
  settleMargin := p.settleMargin.getD s.settleMargin
  sirenDivisions := p.sirenDivisions.getD s.sirenDivisions
  limits := (p.limits.map (·.onto s.limits)).getD s.limits

/-- Objects that give a part and nothing more, but for members of other names, at both levels. -/
def WrittenAs (p : SettingsPart) (v : Json) : Prop :=
  ∃ range limits members, v = .object members ∧
    Option.Rel RangePart.WrittenAs p.range range ∧
    Option.Rel LimitsPart.WrittenAs p.limits limits ∧
    Gives [("frequency_range", range),
      ("settle_margin_ms", p.settleMargin.map fun w => .ofNat w.toNat),
      ("siren_divisions", p.sirenDivisions.map fun w => .ofNat w.toNat),
      ("parser", limits)] members

theorem WrittenAs.ofJson? {p : SettingsPart} {v : Json} (h : p.WrittenAs v) :
    Settings.ofJson? v = some (p.onto {}) := by
  obtain ⟨range, limits, members, rfl, hrange, hlimits, gives⟩ := h
  have nodup : Settings.fields.Nodup := by decide
  have fields : (Json.object members).record? Settings.fields = _ := gives.record? nodup
  simp only [Settings.ofJson?, fields, List.map_cons, List.map_nil, orElse_map word32?_ofNat,
    orElse_rel hrange fun _ _ => RangePart.WrittenAs.ofJson?,
    orElse_rel hlimits fun _ _ => LimitsPart.WrittenAs.ofJson?]
  rfl

end SettingsPart

namespace Settings

/-- Settings of which a text gives a part are the default settings with exactly that part replaced,
or are refused for their fault. The order of the members at either level, members of other names and
the layout of the text make no difference. -/
theorem read_part {p : SettingsPart} {v : Json} {text : String} (written : p.WrittenAs v)
    (spells : Spells text v) : read text = (p.onto {}).validate.map fun _ => p.onto {} := by
  rw [read, spells.read?, Option.bind_some, written.ofJson?]

/-- Members in another order than the fields, among others; and a text with blanks here and there,
an escape in a name, and a range that is empty because its default minimum stays. -/
theorem read_part_in_any_layout :
    let parser : Json := .object [(some "y", .null), (some "max_source_len", .ofNat 64)]
    let other : Json := .array [.number ['1', 'e', '3'], .object [(none, .string none)]]
    let v : Json := .object
      [(some "x", other), (some "parser", parser), (some "siren_divisions", .ofNat 7),
        (some "x", .bool true)]
    let spelled := "\x7b\"y\" :[],\"frequency_range\":\x7b \"\\u006dax\":5\x7d\n\x7d"
    read v.text = .ok { sirenDivisions := 7, limits := { bytes := 64 } } ∧
      read spelled = .error (.settings (.emptyRange 31 5)) := by
  intro parser other v spelled
  constructor
  · have limits : LimitsPart.WrittenAs { bytes := some 64 } parser :=
      ⟨_, rfl, [(some "y", .null)], .swap .., by simp⟩
    have written : SettingsPart.WrittenAs
        { sirenDivisions := some 7, limits := some { bytes := some 64 } } v := by
      refine ⟨none, some parser, _, rfl, .none, .some limits,
        [(some "x", other), (some "x", .bool true)], ?_, by simp⟩
      exact (@List.perm_middle _ _ [_, _] _).trans (.cons _ (.swap ..))
    have strange : Writable other :=
      .array (by simpa using ⟨.number rfl, .object (by simpa using .string none)⟩)
    have known : Writable parser := .object (by simpa using ⟨.null, writable_ofNat 64⟩)
    have writable : v.Writable :=
      .object (by simpa using ⟨strange, known, writable_ofNat 7, .bool true⟩)
    exact read_part written writable.spells_text
  · let range : Json := .object [(some "max", .ofNat 5)]
    let v : Json := .object [(some "y", .array []), (some "frequency_range", range)]
    have given : RangePart.WrittenAs { max := some 5 } range := ⟨_, rfl, [], .refl _, by simp⟩
    have written : SettingsPart.WrittenAs { range := some { max := some 5 } } v :=
      ⟨some range, none, _, rfl, .some given, .none, [(some "y", .array [])], .swap .., by simp⟩
    have writable : v.Writable := .object (by
      simpa using ⟨.array (by simp), .object (by simpa using writable_ofNat 5)⟩)
    have digit : hexDigit? '6' = some 6 ∧ hexDigit? 'd' = some 13 ∧ hexDigit? '0' = some 0 := by
      decide
    have ax : Spelled [.char 'a', .char 'x'] ['a', 'x'] :=
      .plain (by decide) (by decide) (by decide) (.plain (by decide) (by decide) (by decide) .nil)
    have name : Lexeme (.string (some "max")) ['"', '\\', 'u', '0', '0', '6', 'd', 'a', 'x', '"'] :=
      .string (.unit digit.2.2 digit.2.2 digit.1 digit.2.1 ax)
    have five : Lexeme (.number ['5']) ['5'] := .number (by decide)
    have space : isSpace ' ' = true ∧ isSpace '\n' = true := by decide
    have layout := Layout.lexeme .openObject False.elim <| .quote (some "y") <| .blank space.1 <|
      .lexeme .colon False.elim <| .lexeme .openArray False.elim <|
      .lexeme .closeArray False.elim <| .lexeme .comma False.elim <|
      .quote (some "frequency_range") <| .lexeme .colon False.elim <|
      .lexeme .openObject False.elim <| .blank space.1 <| .lexeme name False.elim <|
      .lexeme .colon False.elim <| .lexeme five (fun _ => closes_cons) <|
      .lexeme .closeObject False.elim <| .blank space.2 <| .lexeme .closeObject False.elim .nil
    have spells : Spells spelled v := by
      refine ⟨writable, ?_⟩
      convert layout using 1 <;> decide
    exact read_part written spells

end Settings

end Piezo
