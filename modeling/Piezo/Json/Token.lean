/-!
The tokens of JSON texts.

A text is read character by character. Numbers stay as they are written. A string in which an
escape names half of a surrogate pair stands for no text, but it is a token all the same.
-/

namespace Piezo.Json

inductive Token where
  | openArray
  | closeArray
  | openObject
  | closeObject
  | comma
  | colon
  | null
  | bool (value : Bool)
  | number (text : List Char)
  /-- A string, and its text if it stands for one. -/
  | string (text : Option String)
deriving DecidableEq, Repr

/-- What a string is written with: characters, and UTF-16 units given by their numbers. -/
inductive Piece where
  | char (c : Char)
  | unit (value : Nat)
deriving DecidableEq, Repr

namespace Piece

def isHighHalf (u : Nat) : Bool := 0xD800 ≤ u && u < 0xDC00

def isLowHalf (u : Nat) : Bool := 0xDC00 ≤ u && u < 0xE000

/-- The character that two halves make. -/
def join (high low : Nat) : Char := Char.ofNat (0x10000 + (high - 0xD800) * 0x400 + (low - 0xDC00))

/-- The characters that pieces stand for; a half without its other half stands for none. -/
def decode : List Piece → Option (List Char)
  | [] => some []
  | .char c :: rest => (decode rest).map (c :: ·)
  | .unit u :: rest =>
    if isHighHalf u then
      match rest with
      | .unit v :: rest => if isLowHalf v then (decode rest).map (join u v :: ·) else none
      | _ => none
    else if isLowHalf u then none
    else (decode rest).map (Char.ofNat u :: ·)

end Piece

/-- Where a reader of tokens stands. What it has read of a token is kept last first. -/
inductive Mode where
  | between
  | word (done : List Char)
  | number (done : List Char)
  | string (done : List Piece)
  | escape (done : List Piece)
  | unit (done : List Piece) (digitsLeft : Nat) (value : Nat)

def isSpace (c : Char) : Bool := c = ' ' || c = '\t' || c = '\n' || c = '\r'

def isNumeralChar (c : Char) : Bool :=
  c.isDigit || c = '-' || c = '+' || c = '.' || c = 'e' || c = 'E'

/-- One digit or more, and what follows them. -/
def skipDigits? (cs : List Char) : Option (List Char) :=
  if cs.takeWhile Char.isDigit = [] then none else some (cs.dropWhile Char.isDigit)

/-- What follows the whole part of a numeral, which has no needless zero in front. -/
def skipWhole? : List Char → Option (List Char)
  | '0' :: rest => some rest
  | cs => skipDigits? cs

/-- What follows the fraction, if there is one. -/
def skipFraction? : List Char → Option (List Char)
  | '.' :: rest => skipDigits? rest
  | cs => some cs

/-- What follows the exponent, if there is one. -/
def skipExponent? : List Char → Option (List Char)
  | [] => some []
  | c :: rest =>
    if c = 'e' ∨ c = 'E' then
      match rest with
      | '+' :: rest => skipDigits? rest
      | '-' :: rest => skipDigits? rest
      | rest => skipDigits? rest
    else some (c :: rest)

def isNumeral (cs : List Char) : Bool :=
  let unsigned :=
    match cs with
    | '-' :: rest => rest
    | cs => cs
  ((skipWhole? unsigned).bind skipFraction?).bind skipExponent? = some []

def hexDigit? (c : Char) : Option Nat :=
  if c.isDigit then some (c.toNat - 48)
  else if 'a' ≤ c ∧ c ≤ 'f' then some (c.toNat - 87)
  else if 'A' ≤ c ∧ c ≤ 'F' then some (c.toNat - 55)
  else none

namespace Token

def ofWord? (word : List Char) : Option Token :=
  if word = ['t', 'r', 'u', 'e'] then some (.bool true)
  else if word = ['f', 'a', 'l', 's', 'e'] then some (.bool false)
  else if word = ['n', 'u', 'l', 'l'] then some .null
  else none

def ofNumeral? (numeral : List Char) : Option Token :=
  if isNumeral numeral then some (.number numeral) else none

/-- The character that a letter after a backslash stands for. -/
def ofEscape? (c : Char) : Option Char :=
  match c with
  | '"' => some '"'
  | '\\' => some '\\'
  | '/' => some '/'
  | 'b' => some '\x08'
  | 'f' => some '\x0c'
  | 'n' => some '\n'
  | 'r' => some '\r'
  | 't' => some '\t'
  | _ => none

/-- What a character between tokens yields, and where it leads. -/
def fresh? (c : Char) : Option (List Token × Mode) :=
  if isSpace c then some ([], .between)
  else
    match c with
    | '[' => some ([.openArray], .between)
    | ']' => some ([.closeArray], .between)
    | '{' => some ([.openObject], .between)
    | '}' => some ([.closeObject], .between)
    | ',' => some ([.comma], .between)
    | ':' => some ([.colon], .between)
    | '"' => some ([], .string [])
    | c =>
      if c.isAlpha then some ([], .word [c])
      else if isNumeralChar c then some ([], .number [c])
      else none

/-- A token that ends before a character, and then that character. -/
def endBefore? (token : Option Token) (c : Char) : Option (List Token × Mode) := do
  let token ← token
  let (tokens, mode) ← fresh? c
  return (token :: tokens, mode)

/-- What one character yields, and where it leads. -/
def step? (mode : Mode) (c : Char) : Option (List Token × Mode) :=
  match mode with
  | .between => fresh? c
  | .word done =>
    if c.isAlpha then some ([], .word (c :: done)) else endBefore? (ofWord? done.reverse) c
  | .number done =>
    if isNumeralChar c then some ([], .number (c :: done))
    else endBefore? (ofNumeral? done.reverse) c
  | .string done =>
    if c = '"' then some ([.string ((Piece.decode done.reverse).map String.ofList)], .between)
    else if c = '\\' then some ([], .escape done)
    else if c.toNat < 0x20 then none
    else some ([], .string (.char c :: done))
  | .escape done =>
    if c = 'u' then some ([], .unit done 4 0)
    else (ofEscape? c).map fun c => ([], .string (.char c :: done))
  | .unit done digitsLeft value =>
    (hexDigit? c).map fun digit =>
      let value := value * 16 + digit
      if digitsLeft = 1 then ([], .string (.unit value :: done))
      else ([], .unit done (digitsLeft - 1) value)

/-- The token that the end of the text completes. -/
def atEnd? : Mode → Option (List Token)
  | .between => some []
  | .word done => (ofWord? done.reverse).map ([·])
  | .number done => (ofNumeral? done.reverse).map ([·])
  | _ => none

/-- What has been read of a text: where the reader stands, and the tokens so far, last first. -/
structure Progress where
  mode : Mode
  tokens : List Token

def Progress.read? (p : Progress) (c : Char) : Option Progress :=
  (step? p.mode c).map fun (tokens, mode) => ⟨mode, tokens.reverse ++ p.tokens⟩

def readAll? (text : List Char) : Option (List Token) := do
  let p ← text.foldlM Progress.read? ⟨.between, []⟩
  let last ← atEnd? p.mode
  return p.tokens.reverse ++ last

end Token

end Piezo.Json
