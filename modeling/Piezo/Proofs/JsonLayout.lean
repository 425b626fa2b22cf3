import Piezo.Proofs.JsonTokens

/-!
Layouts of tokens: which texts are made of which tokens, said without a reader. There may be blanks
between tokens, and a string can be spelled in many ways. Whatever its layout, a text is read as the
tokens that it is made of.
-/

namespace Piezo.Json

open Token Piece

/-- How the pieces of a string may be spelled. A character can stand for itself unless it is a
control character, a quotation mark or a backslash; some have an escape of one letter; and four
hexadecimal digits give a unit. -/
inductive Spelled : List Piece → List Char → Prop where
  | nil : Spelled [] []
  | plain {c : Char} {pieces : List Piece} {cs : List Char} (unquoted : c ≠ '"')
    (unescaped : c ≠ '\\') (visible : 0x20 ≤ c.toNat) (more : Spelled pieces cs) :
    Spelled (.char c :: pieces) (c :: cs)
  | short {letter c : Char} {pieces : List Piece} {cs : List Char}
    (escape : ofEscape? letter = some c) (more : Spelled pieces cs) :
    Spelled (.char c :: pieces) ('\\' :: letter :: cs)
  | unit {c₃ c₂ c₁ c₀ : Char} {d₃ d₂ d₁ d₀ : Nat} {pieces : List Piece} {cs : List Char}
    (h₃ : hexDigit? c₃ = some d₃) (h₂ : hexDigit? c₂ = some d₂) (h₁ : hexDigit? c₁ = some d₁)
    (h₀ : hexDigit? c₀ = some d₀) (more : Spelled pieces cs) :
    Spelled (.unit (((d₃ * 16 + d₂) * 16 + d₁) * 16 + d₀) :: pieces)
      ('\\' :: 'u' :: c₃ :: c₂ :: c₁ :: c₀ :: cs)

/-- How a token may be written. -/
inductive Lexeme : Token → List Char → Prop where
  | openArray : Lexeme .openArray ['[']
  | closeArray : Lexeme .closeArray [']']
  | openObject : Lexeme .openObject ['{']
  | closeObject : Lexeme .closeObject ['}']
  | comma : Lexeme .comma [',']
  | colon : Lexeme .colon [':']
  | null : Lexeme .null ['n', 'u', 'l', 'l']
  | yes : Lexeme (.bool true) ['t', 'r', 'u', 'e']
  | no : Lexeme (.bool false) ['f', 'a', 'l', 's', 'e']
  | number {numeral : List Char} (h : isNumeral numeral = true) : Lexeme (.number numeral) numeral
  | string {pieces : List Piece} {cs : List Char} (h : Spelled pieces cs) :
    Lexeme (.string ((decode pieces).map String.ofList)) ('"' :: (cs ++ ['"']))

/-- A word or a numeral, which has no end of its own. -/
def Token.RunsOn : Token → Prop
  | .null | .bool _ | .number _ => True
  | _ => False

/-- Texts that are made of tokens, with blanks between them, before and after. What follows a word
or a numeral must not go on with it. -/
inductive Layout : List Char → List Token → Prop where
  | nil : Layout [] []
  | blank {c : Char} {rest : List Char} {tokens : List Token} (space : isSpace c = true)
    (more : Layout rest tokens) : Layout (c :: rest) tokens
  | lexeme {token : Token} {cs rest : List Char} {tokens : List Token} (h : Lexeme token cs)
    (ends : token.RunsOn → Closes rest) (more : Layout rest tokens) :
    Layout (cs ++ rest) (token :: tokens)

section Reading

variable {pieces : List Piece} {cs rest : List Char} {token : Token} {tokens : List Token}

/-- However its pieces are spelled, a string ends with the next quotation mark and has them all. -/
theorem Spelled.readFrom?_string (h : Spelled pieces cs) (done : List Piece) (rest : List Char) :
    readFrom? (.string done) (cs ++ '"' :: rest) =
      (readFrom? .between rest).map
        (.string ((decode (done.reverse ++ pieces)).map String.ofList) :: ·) := by
  induction h generalizing done with
  | nil => simp [readFrom?, step?]
  | plain unquoted unescaped visible more ih =>
    have plain := Nat.not_lt.mpr visible
    simp [readFrom?, step?, unquoted, unescaped, plain, ih, Function.comp_def]
  | @short letter c pieces cs escape more ih =>
    have noUnit : letter ≠ 'u' := by
      rintro rfl
      cases escape
    simp [readFrom?, step?, noUnit, escape, ih, Function.comp_def]
  | unit h₃ h₂ h₁ h₀ more ih => simp [readFrom?, step?, h₃, h₂, h₁, h₀, ih, Function.comp_def]

theorem Lexeme.readFrom?_between (h : Lexeme token cs) (ends : token.RunsOn → Closes rest) :
    readFrom? .between (cs ++ rest) = (readFrom? .between rest).map (token :: ·) := by
  cases h with
  | openArray | closeArray | openObject | closeObject | comma | colon =>
    exact Json.readFrom?_between (show fresh? _ = some ([_], .between) from rfl)
  | null | yes | no => exact readFrom?_keyword rfl rfl rfl (ends trivial)
  | number numeral => exact readFrom?_numeral numeral (ends trivial)
  | string spelled =>
    have opens : fresh? '"' = some ([], .string []) := rfl
    simp [readFrom?, step?, opens, spelled.readFrom?_string, Function.comp_def]

/-- A text is read as the tokens that it is made of. -/
theorem Layout.readAll? (h : Layout cs tokens) : readAll? cs = some tokens := by
  rw [readAll?_eq]
  induction h with
  | nil => rfl
  | @blank c rest tokens space more ih =>
    have skipped : fresh? c = some ([], .between) := if_pos space
    rw [Json.readFrom?_between skipped, ih]
    rfl
  | lexeme h ends more ih =>
    rw [h.readFrom?_between ends, ih]
    rfl

end Reading

end Piezo.Json
