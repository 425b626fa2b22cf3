/-!
The grammar of tune texts, over bytes, so that a text cut anywhere can still be read.

    tune   := name ":" header ":" notes
    header := field ("," field)*
    field  := letter "=" digits
    notes  := note ("," note)*
    note   := [digits] letter ["#"] ["."] [digit] ["."]

Whatever follows a complete field or note within its commas is ignored.
-/

namespace Piezo.Tune

def comma : UInt8 := 44
def dot : UInt8 := 46
def colon : UInt8 := 58
def equals : UInt8 := 61
def sharp : UInt8 := 35

/-- A space or a tab. -/
def isGap (b : UInt8) : Bool := b = 32 || b = 9

/-- ASCII white space: a gap, a line feed, a form feed or a carriage return. -/
def isSpace (b : UInt8) : Bool := isGap b || b = 10 || b = 12 || b = 13

def isDigit (b : UInt8) : Bool := 48 ≤ b && b ≤ 57

def isUpper (b : UInt8) : Bool := 65 ≤ b && b ≤ 90

def isLetter (b : UInt8) : Bool := isUpper b || (97 ≤ b && b ≤ 122)

/-- The lower case of an ASCII letter; any other byte is left as it is. -/
def lower (b : UInt8) : UInt8 := if isUpper b then b + 32 else b

structure Parts where
  name : List UInt8
  header : List UInt8
  notes : List UInt8
deriving DecidableEq, Repr

/-- The bytes before the first colon and those after it, if there is a colon. -/
def atColon? (bytes : List UInt8) : Option (List UInt8 × List UInt8) :=
  match bytes.dropWhile (· ≠ colon) with
  | [] => none
  | _ :: rest => some (bytes.takeWhile (· ≠ colon), rest)

/-- The greatest number that a text can give; a longer numeral means the same. -/
def greatestNumber : Nat := UInt32.size - 1

/-- The number that digits mean, at most the greatest one. -/
def number (digits : List UInt8) : UInt32 :=
  UInt32.ofNat (digits.foldl (fun n d => min (n * 10 + (d.toNat - 48)) greatestNumber) 0)

/-- A number at the front, if there is a digit, and the rest. -/
def number? (bytes : List UInt8) : Option UInt32 × List UInt8 :=
  match bytes.takeWhile isDigit with
  | [] => (none, bytes)
  | digits => (some (number digits), bytes.dropWhile isDigit)

/-- Whether a byte stands at the front, and the rest after it. -/
def accept (expected : UInt8) : List UInt8 → Bool × List UInt8
  | b :: rest => if b = expected then (true, rest) else (false, b :: rest)
  | [] => (false, [])

/-- One digit at the front, if there is one, and the rest. -/
def digit? : List UInt8 → Option UInt8 × List UInt8
  | b :: rest => if isDigit b then (some (b - 48), rest) else (none, b :: rest)
  | [] => (none, [])

/-- A field of the header; its key in lower case. -/
structure Field where
  key : UInt8
  value : UInt32
deriving DecidableEq, Repr

/-- A note as written, before the header fills in what it leaves out. -/
structure Token where
  divisor : Option UInt32
  /-- The letter, in lower case. -/
  letter : UInt8
  sharp : Bool
  octave : Option UInt8
  dotted : Bool
deriving DecidableEq, Repr

namespace Field

def read? (bytes : List UInt8) : Option Field :=
  match bytes.dropWhile isGap with
  | [] => none
  | key :: rest =>
    match rest.dropWhile isGap with
    | [] => none
    | sign :: rest =>
      if isLetter key ∧ sign = equals then
        (number? (rest.dropWhile isGap)).1.map fun value => ⟨lower key, value⟩
      else none

end Field

namespace Token

/-- A note. Its dot may stand on either side of the octave. -/
def read? (bytes : List UInt8) : Option Token :=
  let (divisor, rest) := number? (bytes.dropWhile isGap)
  match rest with
  | [] => none
  | letter :: rest =>
    if isLetter letter then
      let (sharp, rest) := accept Tune.sharp rest
      let (before, rest) := accept dot rest
      let (octave, rest) := digit? rest
      let (after, _) := accept dot rest
      some ⟨divisor, lower letter, sharp, octave, before || after⟩
    else none

end Token

end Piezo.Tune
