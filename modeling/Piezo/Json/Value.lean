import Piezo.Json.Token
import Piezo.Text.Decimal
import Piezo.Text.Quoted

/-!
JSON values, read from a text and written as one.

Values are read with a stack of what is still open, so they may be nested as deeply as they like.
They are written over several lines, each level two spaces further in.
-/

namespace Piezo

inductive Json where
  | null
  | bool (value : Bool)
  | number (text : List Char)
  | string (text : Option String)
  | array (items : List Json)
  | object (members : List (Option String × Json))

namespace Json

/-- An array or object whose end has not been read; what it holds is kept last first. -/
inductive Open where
  | array (items : List Json)
  /-- The members before the current one, and the name of that. -/
  | object (members : List (Option String × Json)) (name : Option String)

/-- Where a reader of values stands, and what is open around it. -/
inductive Reader where
  | atValue (around : List Open)
  /-- Either a first item or the end of an array must come. -/
  | atItems (around : List Open)
  /-- Either a first name or the end of an object must come. -/
  | atMembers (around : List Open)
  /-- After these members the name of another must come. -/
  | atName (members : List (Option String × Json)) (around : List Open)
  | atColon (members : List (Option String × Json)) (name : Option String) (around : List Open)
  | after (value : Json) (around : List Open)

namespace Reader

def enter? (token : Token) (around : List Open) : Option Reader :=
  match token with
  | .openArray => some (.atItems around)
  | .openObject => some (.atMembers around)
  | .null => some (.after .null around)
  | .bool b => some (.after (.bool b) around)
  | .number text => some (.after (.number text) around)
  | .string text => some (.after (.string text) around)
  | _ => none

/-- Goes on after a value; only what is open around it says how. -/
def separate? (token : Token) (value : Json) (around : List Open) : Option Reader :=
  match around, token with
  | .array items :: around, .comma => some (.atValue (.array (value :: items) :: around))
  | .array items :: around, .closeArray =>
    some (.after (.array (value :: items).reverse) around)
  | .object members name :: around, .comma => some (.atName ((name, value) :: members) around)
  | .object members name :: around, .closeObject =>
    some (.after (.object ((name, value) :: members).reverse) around)
  | _, _ => none

def step? (reader : Reader) (token : Token) : Option Reader :=
  match reader, token with
  | .atValue around, token => enter? token around
  | .atItems around, .closeArray => some (.after (.array []) around)
  | .atItems around, token => enter? token (.array [] :: around)
  | .atMembers around, .closeObject => some (.after (.object []) around)
  | .atMembers around, .string name => some (.atColon [] name around)
  | .atName members around, .string name => some (.atColon members name around)
  | .atColon members name around, .colon => some (.atValue (.object members name :: around))
  | .after value around, token => separate? token value around
  | _, _ => none

end Reader

/-- The value that tokens make, if they make exactly one. -/
def ofTokens? (tokens : List Token) : Option Json :=
  match tokens.foldlM Reader.step? (.atValue []) with
  | some (.after value []) => some value
  | _ => none

def read? (text : String) : Option Json := (Token.readAll? text.toList).bind ofTokens?

def escape (c : Char) : List Char :=
  match c with
  | '"' => ['\\', '"']
  | '\\' => ['\\', '\\']
  | '\x08' => ['\\', 'b']
  | '\x0c' => ['\\', 'f']
  | '\n' => ['\\', 'n']
  | '\r' => ['\\', 'r']
  | '\t' => ['\\', 't']
  | c => if c.toNat < 0x20 then ['\\', 'u'] ++ (Text.Quoted.hex 4 c.toNat).toList else [c]

/-- A string; one that stands for no text is written as half a surrogate pair. -/
def quote : Option String → List Char
  | some text => '"' :: text.toList.flatMap escape ++ ['"']
  | none => ['"', '\\', 'u', 'd', '8', '0', '0', '"']

def newLine (depth : Nat) : List Char := '\n' :: List.replicate (2 * depth) ' '

mutual

/-- A value whose first line is indented already. -/
def write (depth : Nat) : Json → List Char
  | .null => ['n', 'u', 'l', 'l']
  | .bool true => ['t', 'r', 'u', 'e']
  | .bool false => ['f', 'a', 'l', 's', 'e']
  | .number text => text
  | .string text => quote text
  | .array [] => ['[', ']']
  | .array (item :: items) =>
    '[' :: (newLine (depth + 1) ++ write (depth + 1) item ++ writeItems (depth + 1) items ++
      newLine depth ++ [']'])
  | .object [] => ['{', '}']
  | .object ((name, value) :: members) =>
    '{' :: (newLine (depth + 1) ++ quote name ++ [':', ' '] ++ write (depth + 1) value ++
      writeMembers (depth + 1) members ++ newLine depth ++ ['}'])

def writeItems (depth : Nat) : List Json → List Char
  | [] => []
  | item :: items => ',' :: (newLine depth ++ write depth item ++ writeItems depth items)

def writeMembers (depth : Nat) : List (Option String × Json) → List Char
  | [] => []
  | (name, value) :: members =>
    ',' :: (newLine depth ++ quote name ++ [':', ' '] ++ write depth value ++
      writeMembers depth members)

end

def text (v : Json) : String := String.ofList (v.write 0)

def ofNat (n : Nat) : Json := .number (Text.Decimal.chars n)

/-- A number written with digits alone, if it is at most `bound`. -/
def natUpTo? (bound : Nat) : Json → Option Nat
  | .number text => (Text.Decimal.digits? text).filter (· ≤ bound)
  | _ => none

def named (members : List (Option String × Json)) (name : String) : List Json :=
  (members.filter (·.1 = some name)).map Prod.snd

/-- The values of a record's fields. A record is written as an object or as an array of the fields
in order. Either may leave fields out, an array only the last ones. An object may have members of
other names, but none whose name is no text, and no field twice. -/
def record? (fields : List String) : Json → Option (List (Option Json))
  | .object members =>
    if members.any (·.1.isNone) then none
    else fields.mapM fun field =>
      match named members field with
      | [] => some none
      | [value] => some (some value)
      | _ => none
  | .array items =>
    if items.length ≤ fields.length then
      some (items.map some ++ List.replicate (fields.length - items.length) none)
    else none
  | _ => none

end Json

end Piezo
