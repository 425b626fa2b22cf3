/-!
UTF-8: the bytes of a text, and the characters that bytes spell.

Reading takes one byte at a time. A character begun but not finished as its first byte promised is
one bad piece, however many bytes of it were read, and the byte that broke it is read afresh. So
`lossy` writes one replacement character for each bad piece, and `strict?` refuses any.
-/

namespace Piezo.Text.Utf8

def encode (s : String) : List UInt8 := s.toList.flatMap String.utf8EncodeChar

/-- A character of several bytes, begun and not yet finished. -/
structure Begun where
  /-- The bits read so far. -/
  bits : Nat
  /-- How many bytes are still to come after the next one. -/
  after : Nat
  /-- The least value that the next byte may have. -/
  low : UInt8
  /-- The greatest value that the next byte may have. -/
  high : UInt8
deriving DecidableEq, Repr

/-- What the first byte of a longer character promises; no character begins with any other byte
above 0x7F. The bounds on the second byte leave out overlong forms, surrogates and values past the
last character. -/
def begin? (b : UInt8) : Option Begun :=
  if 0xC2 ≤ b ∧ b ≤ 0xDF then some ⟨b.toNat % 32, 0, 0x80, 0xBF⟩
  else if b = 0xE0 then some ⟨0, 1, 0xA0, 0xBF⟩
  else if b = 0xED then some ⟨0xD, 1, 0x80, 0x9F⟩
  else if 0xE1 ≤ b ∧ b ≤ 0xEF then some ⟨b.toNat % 16, 1, 0x80, 0xBF⟩
  else if b = 0xF0 then some ⟨0, 2, 0x90, 0xBF⟩
  else if 0xF1 ≤ b ∧ b ≤ 0xF3 then some ⟨b.toNat % 8, 2, 0x80, 0xBF⟩
  else if b = 0xF4 then some ⟨4, 2, 0x80, 0x8F⟩
  else none

/-- What a byte between characters spells, and the character that it begins. -/
def fresh (b : UInt8) : List (Option Char) × Option Begun :=
  if b < 0x80 then ([some (Char.ofNat b.toNat)], none)
  else
    match begin? b with
    | some begun => ([], some begun)
    | none => ([none], none)

/-- What one byte spells, with `none` for a bad piece, and the character begun after it. -/
def step (begun : Option Begun) (b : UInt8) : List (Option Char) × Option Begun :=
  match begun with
  | none => fresh b
  | some ⟨bits, after, low, high⟩ =>
    if low ≤ b ∧ b ≤ high then
      let bits := bits * 64 + b.toNat % 64
      match after with
      | 0 => ([some (Char.ofNat bits)], none)
      | after + 1 => ([], some ⟨bits, after, 0x80, 0xBF⟩)
    else
      let (spelt, begun) := fresh b
      (none :: spelt, begun)

/-- The characters that bytes spell, with `none` for each bad piece. -/
def scan (begun : Option Begun) : List UInt8 → List (Option Char)
  | [] => if begun.isSome then [none] else []
  | b :: rest =>
    let (spelt, begun) := step begun b
    spelt ++ scan begun rest

/-- The character that stands for a bad piece. -/
def replacement : Char := '\ufffd'

/-- The text that bytes spell, every bad piece replaced. -/
def lossy (bytes : List UInt8) : String :=
  String.ofList ((scan none bytes).map (·.getD replacement))

/-- The text that bytes spell, if none of them is bad. -/
def strict? (bytes : List UInt8) : Option String :=
  ((scan none bytes).mapM id).map String.ofList

end Piezo.Text.Utf8
