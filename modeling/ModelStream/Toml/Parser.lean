/-
Reading TOML 1.1. Every problem counts the same, so a text either gives a document or nothing. Lists
and tables in braces may lie inside each other up to a fixed depth, and lines may end anywhere
between their parts, though not inside a key.
-/
import ModelStream.Decimal
import ModelStream.Toml.Basic

namespace ModelStream.Toml

open Text Text.Scan

/-! ## Blanks and line ends -/

def skipSpaces : Scan Unit := do let _ ← takeWhile fun c => c == ' ' || c == '\t'

/-- A line end, as it is written. -/
def lineEnd : Scan (List Char) :=
  (do literal "\n"; return ['\n']) <|> do
    literal "\r\n"
    return ['\r', '\n']

def newline : Scan Unit := do let _ ← lineEnd

/-- No control character but the tab. -/
def isText (c : Char) : Bool := c == '\t' || (0x20 ≤ c.toNat && c.toNat != 0x7F)

def comment : Scan Unit := do
  literal "#"
  let _ ← takeWhile isText

/-- Spaces, comments and line ends. -/
def skipLines : Scan Unit := do
  skipSpaces
  let _ ← many do
    let _ ← attempt comment
    newline
    skipSpaces

/-! ## Strings -/

/-- The character with a code point of `width` hexadecimal digits. -/
def codePoint (width : Nat) : Scan Char := do
  let found := (← get).take width
  guard (found.length == width && found.all fun c => (hexDigit? c).isSome)
  let n := valueOf 16 found
  guard (decide n.isValidChar)
  modify (·.drop width)
  return Char.ofNat n

/-- An escape after its reverse solidus. -/
def escape : Scan Char := do
  match ← get with
  | c :: rest =>
    set rest
    match c with
    | 'b' => return '\x08'
    | 't' => return '\t'
    | 'n' => return '\n'
    | 'f' => return '\x0c'
    | 'r' => return '\r'
    | 'e' => return '\x1b'
    | '"' => return '"'
    | '\\' => return '\\'
    | 'x' => codePoint 2
    | 'u' => codePoint 4
    | 'U' => codePoint 8
    | _ => failure
  | [] => failure

/-- A piece of a string on one line in double quotes. -/
def basicPiece : Scan (List Char) := do
  match ← peek? with
  | some '\\' => do
    literal "\\"
    return [← escape]
  | _ => do
    let found ← takeWhile fun c => isText c && c != '"' && c != '\\'
    guard (! found.isEmpty)
    return found

def basicString : Scan String := do
  literal "\""
  let pieces ← many basicPiece
  literal "\""
  return String.ofList pieces.flatten

def literalString : Scan String := do
  literal "'"
  let found ← takeWhile fun c => isText c && c != '\''
  literal "'"
  return String.ofList found

/-- The quotes at the front, up to five; the last three end a string over several lines. -/
def closingQuotes (quote : Char) : Scan (List Char) := do
  let found := ((← get).take 5).takeWhile (· == quote)
  guard (3 ≤ found.length)
  modify (·.drop found.length)
  return found.drop 3

/-- One or two quotes inside a string over several lines. -/
def innerQuotes (quote : Char) : Scan (List Char) := do
  let found := ((← get).take 3).takeWhile (· == quote)
  guard (0 < found.length && found.length < 3)
  modify (·.drop found.length)
  return found

/-- A reverse solidus at the end of a line, with all blanks up to the next text. -/
def joinedLine : Scan (List Char) := do
  literal "\\"
  skipSpaces
  newline
  let _ ← many (newline <|> do guard (! (← takeWhile fun c => c == ' ' || c == '\t').isEmpty))
  return []

def longBasicString : Scan String := do
  literal "\"\"\""
  let _ ← attempt newline
  let pieces ← many (joinedLine <|> basicPiece <|> lineEnd <|> innerQuotes '"')
  let last ← closingQuotes '"'
  return String.ofList (pieces.flatten ++ last)

def longLiteralString : Scan String := do
  literal "'''"
  let _ ← attempt newline
  let piece : Scan (List Char) := do
    let found ← takeWhile fun c => isText c && c != '\''
    guard (! found.isEmpty)
    return found
  let pieces ← many (piece <|> lineEnd <|> innerQuotes '\'')
  let last ← closingQuotes '\''
  return String.ofList (pieces.flatten ++ last)

def string : Scan String := longBasicString <|> longLiteralString <|> basicString <|> literalString

/-! ## Keys -/

/-- How many parts a key may have, and how deep lists and tables in braces may lie inside each
other. -/
def maxDepth : Nat := 80

def isBare (c : Char) : Bool :=
  ('a' ≤ c && c ≤ 'z') || ('A' ≤ c && c ≤ 'Z') || ('0' ≤ c && c ≤ '9') || c == '_' || c == '-'

def simpleKey : Scan String := do
  match ← peek? with
  | some '"' => basicString
  | some '\'' => literalString
  | _ => do
    let found ← takeWhile isBare
    guard (! found.isEmpty)
    return String.ofList found

/-- The last part of a key, and the parts before it. -/
def key : Scan (List String × String) := do
  let first ← simpleKey
  let more ← many do
    skipSpaces
    literal "."
    skipSpaces
    simpleKey
  let parts := first :: more
  guard (parts.length ≤ maxDepth)
  return (parts.dropLast, parts.getLast (by simp [parts]))

/-! ## Numbers and moments -/

/-- Digits of which `p` tells, with single underscores between them. -/
def isDigits (p : Char → Bool) : List Char → Bool
  | [] => false
  | [c] => p c
  | c :: '_' :: rest => p c && isDigits p rest
  | c :: rest => p c && isDigits p rest

def withoutSign : List Char → List Char
  | '+' :: rest | '-' :: rest => rest
  | cs => cs

/-- Decimal digits without needless zeros in front. -/
def isWhole (cs : List Char) : Bool :=
  isDigits Char.isDigit cs && (cs.head? != some '0' || cs.length == 1)

def fits (bits n : Nat) : Bool := n < Nat.pow 2 bits

/-- An integer of at most 128 bits. -/
def isInteger (cs : List Char) : Bool :=
  match cs with
  | '0' :: 'x' :: ds => isDigits (fun c => (hexDigit? c).isSome) ds && fits 128 (valueOf 16 ds)
  | '0' :: 'o' :: ds => isDigits (fun c => '0' ≤ c && c ≤ '7') ds && fits 128 (valueOf 8 ds)
  | '0' :: 'b' :: ds => isDigits (fun c => c == '0' || c == '1') ds && fits 128 (valueOf 2 ds)
  | '-' :: ds => isWhole ds && valueOf 10 ds ≤ Nat.pow 2 127
  | _ => isWhole (withoutSign cs) && fits 128 (valueOf 10 (withoutSign cs))

/-- A float that is finite unless it is written as infinite. -/
def isFloat (cs : List Char) : Bool :=
  let body := withoutSign cs
  if body == "inf".toList || body == "nan".toList then true
  else
    let isMark (c : Char) : Bool := c == 'e' || c == 'E'
    let mantissa := body.takeWhile (! isMark ·)
    let power := body.dropWhile (! isMark ·)
    let whole := mantissa.takeWhile (· != '.')
    let fraction := mantissa.dropWhile (· != '.')
    let digits (cs : List Char) : List Char := cs.filter Char.isDigit
    let exponent : Int := match power.drop 1 with
      | '-' :: ds => -(valueOf 10 ds : Int)
      | ds => valueOf 10 ds
    isWhole whole && (fraction.isEmpty || isDigits Char.isDigit (fraction.drop 1)) &&
      (power.isEmpty || isDigits Char.isDigit (withoutSign (power.drop 1))) &&
      ! (fraction.isEmpty && power.isEmpty) &&
      ! (Decimal.toFloat (valueOf 10 (digits (whole ++ fraction))) (exponent - (digits fraction).length)).isInf

def isPlain (c : Char) : Bool := isBare c || c == '+' || c == '.' || c == ':'

/-- A value that is no string, list or table. -/
def plain : Scan Toml := do
  let first ← takeWhile isPlain
  let word ← match ← get with
    | ' ' :: c :: rest =>
      if Moment.isDate first && c.isDigit then do
        set (c :: rest)
        let more ← takeWhile isPlain
        pure (first ++ ' ' :: more)
      else pure first
    | _ => pure first
  if word == "true".toList then return .flag true
  else if word == "false".toList then return .flag false
  else match Moment.ofText? word with
    | some m => return .moment m
    | none => do
      guard (isInteger word || isFloat word)
      return .number

/-! ## Values and statements -/

/-- Items with commas between them, and perhaps one after the last; lines may end between them. -/
def separated {α : Type} (item : Scan α) : Scan (List α) := do
  skipLines
  match ← attempt item with
  | none => return []
  | some first => do
    skipLines
    let more ← many do
      literal ","
      skipLines
      let x ← item
      skipLines
      return x
    let _ ← attempt (literal ",")
    skipLines
    return first :: more

mutual

/-- A value with at most `depth` lists and tables inside each other. -/
def value (depth : Nat) : Scan Toml := do
  match ← peek? with
  | some '"' | some '\'' => return .text (← string)
  | some '[' =>
    match depth with
    | 0 => failure
    | depth + 1 => do
      literal "["
      let items ← separated (value depth)
      literal "]"
      return .list items
  | some '\x7b' =>
    match depth with
    | 0 => failure
    | depth + 1 => do
      literal "\x7b"
      let pairs ← separated (keyValue skipLines depth)
      literal "\x7d"
      let (_, entries) ← pairs.foldlM (fun (form, entries) (path, key, v) => add path key v form entries)
        (Form.headed, [])
      return .table .closed entries
  | _ => plain
termination_by (depth, 0)

/-- A key and its value, with what `blanks` skips around the sign between them. -/
def keyValue (blanks : Scan Unit) (depth : Nat) : Scan (List String × String × Toml) := do
  let (path, k) ← key
  blanks
  literal "="
  blanks
  return (path, k, ← value depth)
termination_by (depth, 1)

end

inductive Statement
  | table (path : List String) (key : String)
  | next (path : List String) (key : String)
  | entry (path : List String) (key : String) (value : Toml)

/-- A key in brackets. -/
def header (opening closing : String) : Scan (List String × String) := do
  literal opening
  skipSpaces
  let k ← key
  skipSpaces
  literal closing
  return k

def statement : Scan Statement :=
  (do let (path, k) ← header "[[" "]]"; return .next path k) <|>
  (do let (path, k) ← header "[" "]"; return .table path k) <|>
  (do let (path, k, v) ← keyValue skipSpaces maxDepth; return .entry path k v)

/-- What stands on a line, if anything does. -/
def line : Scan (Option Statement) := do
  skipSpaces
  let s ← attempt statement
  skipSpaces
  let _ ← attempt comment
  return s

def document : Scan (List Statement) := do
  let _ ← attempt (literal "\uFEFF")
  let lines ← many do
    let s ← line
    newline
    return s
  let last ← line
  eof
  return (lines ++ [last]).filterMap id

/-! ## The document -/

/-- A document part way through: the header that is open, and the top table. -/
structure Draft where
  header : List String := []
  entries : Entries := []

def Draft.step (d : Draft) (s : Statement) : Option Draft := do
  match s with
  | .table path key =>
    let (_, entries) ← openTable path key .headed d.entries
    return { header := path ++ [key], entries }
  | .next path key =>
    let (_, entries) ← openNext path key .headed d.entries
    return { header := path ++ [key], entries }
  | .entry path key v =>
    let (_, entries) ← addBelow d.header path key v .headed d.entries
    return { d with entries }

/-- The top table of a document. -/
def parse? (text : String) : Option Entries := do
  let (statements, _) ← document text.toList
  let d ← statements.foldlM Draft.step {}
  return d.entries

end ModelStream.Toml
