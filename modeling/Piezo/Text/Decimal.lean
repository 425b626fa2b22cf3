/-!
Decimal numerals: the text of a number, and the numbers that a text may stand for.

Reading is strict. A numeral is one or more of the digits 0 to 9, leading zeros included, with
nothing around it; where a sign is allowed it stands directly before the digits.
-/

namespace Piezo.Text.Decimal

/-- The digits of a number, most significant first, without leading zeros; zero is one digit. -/
def chars (n : Nat) : List Char := Nat.toDigits 10 n

def text (n : Nat) : String := String.ofList (chars n)

/-- A minus sign stands before the digits of a negative number, and nothing before any other. -/
def signedText : Int → String
  | .ofNat n => text n
  | .negSucc n => "-" ++ text (n + 1)

/-- Spaces in front fill the text up to `width`; a longer number is never cut. -/
def padded (width n : Nat) : String :=
  String.ofList (List.replicate (width - (chars n).length) ' ' ++ chars n)

/-- The value of a numeral without a sign. -/
def digits? (cs : List Char) : Option Nat :=
  if cs ≠ [] ∧ cs.all Char.isDigit then some (Nat.ofDigitChars 10 cs 0) else none

/-- A numeral that may begin with a plus sign. -/
def natural? : List Char → Option Nat
  | '+' :: cs => digits? cs
  | cs => digits? cs

/-- A numeral that may begin with either sign; minus zero is zero. -/
def integer? : List Char → Option Int
  | '-' :: cs => (digits? cs).map fun n => -(n : Int)
  | cs => (natural? cs).map fun n => (n : Int)

/-- The numeral's value, if it is at most `bound`. -/
def atMost (bound : Nat) (cs : List Char) : Option Nat :=
  (natural? cs).filter (· ≤ bound)

theorem chars_ne_nil (n : Nat) : chars n ≠ [] := by
  simp [chars]

theorem digits?_chars (n : Nat) : digits? (chars n) = some n := by
  have h : (chars n).all Char.isDigit := by
    simp only [List.all_eq_true]
    intro c hc
    exact Nat.isDigit_of_mem_toDigits (by decide) (by decide) hc
  have value : Nat.ofDigitChars 10 (chars n) 0 = n := Nat.ofDigitChars_ten_toDigits
  simp [digits?, chars_ne_nil, h, value]

end Piezo.Text.Decimal
