import Piezo.Text.Printable

/-!
Quoted text: a text between double quotes, with whatever could be misread written as an escape.
-/

namespace Piezo.Text.Quoted

/-- The digits of a number in base sixteen, lower case, without leading zeros. -/
def hexChars (n : Nat) : List Char := Nat.toDigits 16 n

/-- One character inside quotes. The quote itself, the backslash and the common controls have a
short escape; any other character that is not printed as itself is given by its number. -/
def escape (c : Char) : List Char :=
  match c with
  | '\x00' => ['\\', '0']
  | '\t' => ['\\', 't']
  | '\n' => ['\\', 'n']
  | '\r' => ['\\', 'r']
  | '"' => ['\\', '"']
  | '\\' => ['\\', '\\']
  | c => if isPrintable c then [c] else ['\\', 'u', '{'] ++ hexChars c.toNat ++ ['}']

def text (s : String) : String :=
  String.ofList (['"'] ++ s.toList.flatMap escape ++ ['"'])

/-- A number in base sixteen, filled up with zeros to at least `width` digits. -/
def hex (width n : Nat) : String :=
  String.ofList (List.replicate (width - (hexChars n).length) '0' ++ hexChars n)

end Piezo.Text.Quoted
