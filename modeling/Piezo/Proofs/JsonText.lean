import Piezo.Proofs.JsonLayout

/-!
JSON values written and read again. Writing a value is writing its tokens with blanks between them,
and its tokens lead a reader past it wherever it stands, so that a value is read as itself however
it is written.
-/

namespace Piezo.Json

mutual

/-- The tokens that a value is written with. -/
def tokens : Json → List Token
  | .null => [.null]
  | .bool b => [.bool b]
  | .number text => [.number text]
  | .string text => [.string text]
  | .array [] => [.openArray, .closeArray]
  | .array (item :: items) =>
    .openArray :: (item.tokens ++ itemTokens items ++ [.closeArray])
  | .object [] => [.openObject, .closeObject]
  | .object ((name, value) :: members) =>
    .openObject :: .string name :: .colon ::
      (value.tokens ++ memberTokens members ++ [.closeObject])

def itemTokens : List Json → List Token
  | [] => []
  | item :: items => .comma :: (item.tokens ++ itemTokens items)

def memberTokens : List (Option String × Json) → List Token
  | [] => []
  | (name, value) :: members =>
    .comma :: .string name :: .colon :: (value.tokens ++ memberTokens members)

end

/-- A value that can be written: each of its numbers is a numeral. -/
inductive Writable : Json → Prop where
  | null : Writable .null
  | bool (value : Bool) : Writable (.bool value)
  | number {text : List Char} (numeral : isNumeral text = true) : Writable (.number text)
  | string (text : Option String) : Writable (.string text)
  | array {items : List Json} (each : ∀ item ∈ items, Writable item) : Writable (.array items)
  | object {members : List (Option String × Json)} (each : ∀ m ∈ members, Writable m.2) :
    Writable (.object members)

section Strings

open Piece Token

/-- A piece that stands for one character, whatever pieces follow it. -/
def Piece.StandsFor (p : Piece) (c : Char) : Prop :=
  ∀ more, decode (p :: more) = (decode more).map (c :: ·)

theorem standsFor_char (c : Char) : (Piece.char c).StandsFor c := fun _ => rfl

theorem standsFor_control {c : Char} (h : c.toNat < 0x20) : (Piece.unit c.toNat).StandsFor c := by
  intro more
  have high : isHighHalf c.toNat = false := by
    simp only [isHighHalf, Bool.and_eq_false_iff, decide_eq_false_iff_not]
    omega
  have low : isLowHalf c.toNat = false := by
    simp only [isLowHalf, Bool.and_eq_false_iff, decide_eq_false_iff_not]
    omega
  rw [decode.eq_def]
  simp [high, low]

/-- A control character is spelled with four digits, which say its number. -/
theorem spelled_hex {n : Nat} (h : n < 0x20) {pieces : List Piece} {cs : List Char}
    (more : Spelled pieces cs) :
    Spelled (.unit n :: pieces) (['\\', 'u'] ++ (Text.Quoted.hex 4 n).toList ++ cs) := by
  have written : ∀ n < 0x20, (Text.Quoted.hex 4 n).toList =
      ['0', '0', (n / 16).digitChar, (n % 16).digitChar] := by decide
  have digit : ∀ d < 16, hexDigit? d.digitChar = some d := by decide
  have value : ((0 * 16 + 0) * 16 + n / 16) * 16 + n % 16 = n := by omega
  have zero : hexDigit? '0' = some 0 := rfl
  have spelled :=
    Spelled.unit zero zero (digit (n / 16) (by omega)) (digit (n % 16) (by omega)) more
  rw [value] at spelled
  rw [written n h]
  exact spelled

/-- What is written for a character spells a piece that stands for it. -/
theorem exists_spelled_escape (c : Char) :
    ∃ p : Piece, p.StandsFor c ∧
      ∀ {pieces cs}, Spelled pieces cs → Spelled (p :: pieces) (escape c ++ cs) := by
  -- Some control characters have a letter of their own, and are not written with their number.
  by_cases control : c.toNat < 0x20 ∧ escape c = ['\\', 'u'] ++ (Text.Quoted.hex 4 c.toNat).toList
  · refine ⟨_, standsFor_control control.1, fun more => ?_⟩
    rw [control.2]
    exact spelled_hex control.1 more
  · refine ⟨_, standsFor_char c, fun more => ?_⟩
    unfold escape at control ⊢
    split at control
    case h_8 noQuote noBackslash _ _ _ _ _ =>
      have visible : ¬ c.toNat < 0x20 := fun h => control ⟨h, if_pos h⟩
      rw [if_neg visible]
      exact .plain noQuote noBackslash (Nat.le_of_not_lt visible) more
    all_goals exact .short rfl more

theorem exists_spelled_escapes (cs : List Char) :
    ∃ pieces, decode pieces = some cs ∧ Spelled pieces (cs.flatMap escape) := by
  induction cs with
  | nil => exact ⟨[], rfl, .nil⟩
  | cons c cs ih =>
    obtain ⟨p, stands, spells⟩ := exists_spelled_escape c
    obtain ⟨pieces, decoded, spelled⟩ := ih
    refine ⟨p :: pieces, ?_, spells spelled⟩
    rw [stands, decoded, Option.map_some]

/-- A quoted string is written as itself, and so is the one that stands for no text. -/
theorem lexeme_quote (text : Option String) : Lexeme (.string text) (quote text) := by
  cases text with
  | none =>
    have digit : hexDigit? 'd' = some 13 ∧ hexDigit? '8' = some 8 ∧ hexDigit? '0' = some 0 := by
      decide
    have half := Spelled.unit digit.1 digit.2.1 digit.2.2 digit.2.2 .nil
    exact .string half
  | some text =>
    obtain ⟨pieces, decoded, spelled⟩ := exists_spelled_escapes text.toList
    have quoted := Lexeme.string spelled
    rwa [decoded, Option.map_some, String.ofList_toList] at quoted

end Strings

section Values

open Token

variable {rest : List Char} {tokens : List Token} {v : Json}

theorem Layout.newLine (depth : Nat) (h : Layout rest tokens) :
    Layout (newLine depth ++ rest) tokens := by
  refine .blank rfl ?_
  induction 2 * depth with
  | zero => exact h
  | succ n ih => exact .blank rfl ih

/-- What a value is written as is made of its tokens. -/
def LaidOut (v : Json) : Prop :=
  ∀ depth rest tokens, Closes rest → Layout rest tokens →
    Layout (v.write depth ++ rest) (v.tokens ++ tokens)

theorem closes_writeItems (depth : Nat) (items : List Json) (ends : Closes rest) :
    Closes (writeItems depth items ++ rest) := by
  cases items with
  | nil => simpa [writeItems] using ends
  | cons item items => exact closes_cons

theorem closes_writeMembers (depth : Nat) (members : List (Option String × Json))
    (ends : Closes rest) : Closes (writeMembers depth members ++ rest) := by
  cases members with
  | nil => simpa [writeMembers] using ends
  | cons member members => exact closes_cons

theorem Layout.quote (name : Option String) (h : Layout rest tokens) :
    Layout (quote name ++ rest) (.string name :: tokens) :=
  .lexeme (lexeme_quote name) False.elim h

/-- A value after its name and a colon. -/
theorem LaidOut.member (h : v.LaidOut) (name : Option String) (depth : Nat) (ends : Closes rest)
    (more : Layout rest tokens) :
    Layout (Json.quote name ++ (':' :: ' ' :: (v.write depth ++ rest)))
      (.string name :: .colon :: (v.tokens ++ tokens)) :=
  .quote name (.lexeme .colon False.elim (.blank rfl (h depth rest tokens ends more)))

theorem layout_writeItems {items : List Json} (each : ∀ item ∈ items, item.LaidOut) (depth : Nat)
    (ends : Closes rest) (more : Layout rest tokens) :
    Layout (writeItems depth items ++ rest) (itemTokens items ++ tokens) := by
  induction items with
  | nil => exact more
  | cons item items ih =>
    obtain ⟨hitem, hitems⟩ := List.forall_mem_cons.mp each
    simp only [writeItems, itemTokens, List.cons_append, List.append_assoc]
    exact .lexeme .comma False.elim
      (.newLine depth (hitem _ _ _ (closes_writeItems depth items ends) (ih hitems)))

theorem layout_writeMembers {members : List (Option String × Json)}
    (each : ∀ m ∈ members, m.2.LaidOut) (depth : Nat) (ends : Closes rest)
    (more : Layout rest tokens) :
    Layout (writeMembers depth members ++ rest) (memberTokens members ++ tokens) := by
  induction members with
  | nil => exact more
  | cons member members ih =>
    obtain ⟨name, value⟩ := member
    obtain ⟨hvalue, hmembers⟩ := List.forall_mem_cons.mp each
    simp only [writeMembers, memberTokens, List.cons_append, List.append_assoc, List.nil_append]
    exact .lexeme .comma False.elim (.newLine depth
      (hvalue.member name depth (closes_writeMembers depth members ends) (ih hmembers)))

theorem laidOut_array {items : List Json} (each : ∀ item ∈ items, item.LaidOut) :
    (Json.array items).LaidOut := by
  intro depth rest tokens ends more
  have closing : Layout (']' :: rest) (.closeArray :: tokens) :=
    .lexeme .closeArray False.elim more
  cases items with
  | nil =>
    simp only [write, Json.tokens, List.cons_append, List.nil_append]
    exact .lexeme .openArray False.elim closing
  | cons item items =>
    obtain ⟨hitem, hitems⟩ := List.forall_mem_cons.mp each
    have closes := closes_newLine depth (']' :: rest)
    have others := layout_writeItems hitems (depth + 1) closes (closing.newLine depth)
    simp only [write, Json.tokens, List.cons_append, List.append_assoc, List.nil_append]
    exact .lexeme .openArray False.elim
      (.newLine _ (hitem _ _ _ (closes_writeItems (depth + 1) items closes) others))

theorem laidOut_object {members : List (Option String × Json)}
    (each : ∀ m ∈ members, m.2.LaidOut) : (Json.object members).LaidOut := by
  intro depth rest tokens ends more
  have closing : Layout ('}' :: rest) (.closeObject :: tokens) :=
    .lexeme .closeObject False.elim more
  cases members with
  | nil =>
    simp only [write, Json.tokens, List.cons_append, List.nil_append]
    exact .lexeme .openObject False.elim closing
  | cons member members =>
    obtain ⟨name, value⟩ := member
    obtain ⟨hvalue, hmembers⟩ := List.forall_mem_cons.mp each
    have closes := closes_newLine depth ('}' :: rest)
    have others := layout_writeMembers hmembers (depth + 1) closes (closing.newLine depth)
    simp only [write, Json.tokens, List.cons_append, List.append_assoc, List.nil_append]
    exact .lexeme .openObject False.elim (.newLine _
      (hvalue.member name (depth + 1) (closes_writeMembers (depth + 1) members closes) others))

theorem Writable.laidOut (h : Writable v) : v.LaidOut := by
  induction h with
  | null => exact fun _ _ _ ends more => .lexeme .null (fun _ => ends) more
  | bool value =>
    intro _ _ _ ends more
    cases value with
    | true => exact .lexeme .yes (fun _ => ends) more
    | false => exact .lexeme .no (fun _ => ends) more
  | number numeral => exact fun _ _ _ ends more => .lexeme (.number numeral) (fun _ => ends) more
  | string text => exact fun _ _ _ _ more => more.quote text
  | array each ih => exact laidOut_array ih
  | object each ih => exact laidOut_object ih

end Values

section Building

open Reader

variable {v : Json} {items : List Json} {members : List (Option String × Json)}

/-- Where a reader is led by tokens. -/
def lead? (reader : Reader) (tokens : List Token) : Option Reader := tokens.foldlM step? reader

theorem lead?_cons (reader : Reader) (token : Token) (tokens : List Token) :
    lead? reader (token :: tokens) = (step? reader token).bind (lead? · tokens) :=
  List.foldlM_cons

theorem lead?_append (reader : Reader) (tokens more : List Token) :
    lead? reader (tokens ++ more) = (lead? reader tokens).bind (lead? · more) :=
  List.foldlM_append

/-- The tokens of a value lead a reader that waits for one past it. -/
def Builds (v : Json) : Prop := ∀ around, lead? (.atValue around) v.tokens = some (.after v around)

/-- A value never begins as an array ends. -/
theorem tokens_cons (v : Json) : ∃ first rest, v.tokens = first :: rest ∧ first ≠ .closeArray := by
  cases v with
  | array items => cases items <;> exact ⟨_, _, by rw [tokens], by simp⟩
  | object members => cases members <;> exact ⟨_, _, by rw [tokens], by simp⟩
  | _ => exact ⟨_, _, by rw [tokens], by simp⟩

/-- Where a first item or the end may come, a value is the first item. -/
theorem lead?_atItems (around : List Open) (v : Json) :
    lead? (.atItems around) v.tokens = lead? (.atValue (.array [] :: around)) v.tokens := by
  obtain ⟨first, rest, ht, hne⟩ := v.tokens_cons
  have enters : step? (.atItems around) first = step? (.atValue (.array [] :: around)) first := by
    cases first
    case closeArray => exact absurd rfl hne
    all_goals rfl
  rw [ht, lead?_cons, lead?_cons, enters]

theorem lead?_itemTokens (each : ∀ item ∈ items, item.Builds) (v : Json) (done : List Json)
    (around : List Open) :
    lead? (.after v (.array done :: around)) (itemTokens items ++ [.closeArray]) =
      some (.after (.array (done.reverse ++ v :: items)) around) := by
  induction items generalizing v done with
  | nil => simp [itemTokens, lead?, step?, separate?]
  | cons item items ih =>
    obtain ⟨hitem, hitems⟩ := List.forall_mem_cons.mp each
    have comma : step? (.after v (.array done :: around)) .comma =
        some (.atValue (.array (v :: done) :: around)) := rfl
    simp only [itemTokens, List.cons_append, List.append_assoc]
    rw [lead?_cons, comma, Option.bind_some, lead?_append, hitem, Option.bind_some, ih hitems]
    simp

theorem lead?_memberTokens (each : ∀ m ∈ members, m.2.Builds) (v : Json)
    (done : List (Option String × Json)) (name : Option String) (around : List Open) :
    lead? (.after v (.object done name :: around)) (memberTokens members ++ [.closeObject]) =
      some (.after (.object (done.reverse ++ (name, v) :: members)) around) := by
  induction members generalizing v done name with
  | nil => simp [memberTokens, lead?, step?, separate?]
  | cons member members ih =>
    obtain ⟨next, value⟩ := member
    obtain ⟨hvalue, hmembers⟩ := List.forall_mem_cons.mp each
    have opening : lead? (.after v (.object done name :: around)) [.comma, .string next, .colon] =
        some (.atValue (.object ((name, v) :: done) next :: around)) := rfl
    have split : memberTokens ((next, value) :: members) ++ [.closeObject] =
        [.comma, .string next, .colon] ++
          (value.tokens ++ (memberTokens members ++ [.closeObject])) := by simp [memberTokens]
    rw [split, lead?_append, opening, Option.bind_some, lead?_append, hvalue, Option.bind_some,
      ih hmembers]
    simp

theorem Writable.builds (h : Writable v) : v.Builds := by
  induction h with
  | null | bool _ | number _ | string _ => exact fun _ => by rw [tokens]; rfl
  | @array items each ih =>
    intro around
    cases items with
    | nil => rw [tokens]; rfl
    | cons item items =>
      obtain ⟨hitem, hitems⟩ := List.forall_mem_cons.mp ih
      have opening : step? (.atValue around) .openArray = some (.atItems around) := rfl
      rw [tokens, lead?_cons, opening, Option.bind_some, List.append_assoc, lead?_append,
        lead?_atItems, hitem, Option.bind_some, lead?_itemTokens hitems]
      rfl
  | @object members each ih =>
    intro around
    cases members with
    | nil => rw [tokens]; rfl
    | cons member members =>
      obtain ⟨name, value⟩ := member
      obtain ⟨hvalue, hmembers⟩ := List.forall_mem_cons.mp ih
      have opening : lead? (.atValue around) [.openObject, .string name, .colon] =
          some (.atValue (.object [] name :: around)) := rfl
      have split : (Json.object ((name, value) :: members)).tokens =
          [.openObject, .string name, .colon] ++
            (value.tokens ++ (memberTokens members ++ [.closeObject])) := by simp [tokens]
      rw [split, lead?_append, opening, Option.bind_some, lead?_append, hvalue, Option.bind_some,
        lead?_memberTokens hmembers]
      rfl

theorem Writable.ofTokens? (h : Writable v) : ofTokens? v.tokens = some v := by
  have := h.builds []
  unfold lead? at this
  rw [Json.ofTokens?, this]

/-- A text that is one way to write a value: it is made of the value's tokens, with any layout. -/
structure Spells (text : String) (v : Json) : Prop where
  writable : Writable v
  layout : Layout text.toList v.tokens

/-- What a value is written as is one way to write it. -/
theorem Writable.spells_text (h : Writable v) : Spells v.text v := by
  refine ⟨h, ?_⟩
  have written := h.laidOut 0 [] [] closes_nil .nil
  rwa [List.append_nil, List.append_nil, ← @String.toList_ofList (v.write 0)] at written

/-- However a value is written, it is read as itself. -/
theorem Spells.read? {text : String} (h : Spells text v) : read? text = some v := by
  rw [Json.read?, h.layout.readAll?]
  exact h.writable.ofTokens?

end Building

end Piezo.Json
