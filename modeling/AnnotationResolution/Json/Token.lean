import AnnotationResolution.Json.Number

/-!
# Tokens of a JSON text

`Lexeme.split` cuts a text at blanks, marks and quotes; it looks only at where a string ends, not at
what it says.  `Token.ofLexeme?` reads a single lexeme: a string, a number, one of the three words.
It fails for what is not well-formed.  A string that names half of a surrogate pair, and a number
too large for a double, are well-formed and have no value.
-/

namespace AnnotationResolution.Json

inductive Lexeme where
  | mark (c : Char)
  /-- The text between two quotes, its escapes not yet read. -/
  | quoted (body : List Char)
  | word (cs : List Char)
deriving Repr, DecidableEq

namespace Lexeme

/-- Where the scanner stands, with the characters read so far, last one first. -/
inductive Place where
  | between
  | inWord (read : List Char)
  | inQuotes (escaped : Bool) (read : List Char)

def isMark (c : Char) : Bool := ['[', ']', '\x7b', '\x7d', ',', ':'].contains c

def isSpace (c : Char) : Bool := [' ', '\t', '\n', '\r'].contains c

/-- Fails when a string is not closed. -/
def splitAt : Place → List Char → Option (List Lexeme)
  | .between, [] => some []
  | .inWord read, [] => some [word read.reverse]
  | .inQuotes _ _, [] => none
  | .between, c :: cs =>
    if isSpace c then splitAt .between cs
    else if isMark c then (splitAt .between cs).map (mark c :: ·)
    else if c = '"' then splitAt (.inQuotes false []) cs
    else splitAt (.inWord [c]) cs
  | .inWord read, c :: cs =>
    if isSpace c then (splitAt .between cs).map (word read.reverse :: ·)
    else if isMark c then (splitAt .between cs).map fun rest => word read.reverse :: mark c :: rest
    else if c = '"' then (splitAt (.inQuotes false []) cs).map (word read.reverse :: ·)
    else splitAt (.inWord (c :: read)) cs
  | .inQuotes true read, c :: cs => splitAt (.inQuotes false (c :: read)) cs
  | .inQuotes false read, c :: cs =>
    if c = '"' then (splitAt .between cs).map (quoted read.reverse :: ·)
    else splitAt (.inQuotes (c = '\\') (c :: read)) cs

def split (cs : List Char) : Option (List Lexeme) := splitAt .between cs

end Lexeme

inductive Token where
  | mark (c : Char)
  /-- A string, if it has a value. -/
  | text (value : Option String)
  | scalar (value : Json)
deriving BEq, Repr

namespace Token

def hexValue? (c : Char) : Option Nat :=
  if '0' ≤ c ∧ c ≤ '9' then some (c.toNat - '0'.toNat)
  else if 'a' ≤ c ∧ c ≤ 'f' then some (c.toNat - 'a'.toNat + 10)
  else if 'A' ≤ c ∧ c ≤ 'F' then some (c.toNat - 'A'.toNat + 10)
  else none

def hex4? (a b c d : Char) : Option Nat := do
  return ((← hexValue? a) * 16 + (← hexValue? b)) * 256 + (← hexValue? c) * 16 + (← hexValue? d)

/-- The character that two halves of a surrogate pair stand for. -/
def pair? (high low : Nat) : Option Char :=
  if 0xD800 ≤ high ∧ high < 0xDC00 ∧ 0xDC00 ≤ low ∧ low < 0xE000 then
    some (Char.ofNat (0x10000 + (high - 0xD800) * 0x400 + (low - 0xDC00)))
  else none

def single? (code : Nat) : Option Char :=
  if 0xD800 ≤ code ∧ code < 0xE000 then none else some (Char.ofNat code)

def shortEscape? : Char → Option Char
  | '"' => some '"'
  | '\\' => some '\\'
  | '/' => some '/'
  | 'b' => some '\x08'
  | 'f' => some '\x0c'
  | 'n' => some '\n'
  | 'r' => some '\r'
  | 't' => some '\t'
  | _ => none

/-- Whether a string is well-formed: control characters are escaped, and every escape is one of the
short ones or has its four digits. -/
def isWellFormed : List Char → Bool
  | [] => true
  | '\\' :: 'u' :: a :: b :: c :: d :: rest => (hex4? a b c d).isSome && isWellFormed rest
  | '\\' :: c :: rest => (shortEscape? c).isSome && isWellFormed rest
  | c :: rest => c ≠ '\\' && 0x20 ≤ c.toNat && isWellFormed rest

/-- The text that the body of a well-formed string stands for.  A surrogate must be half of a
pair. -/
def unescape? : List Char → Option (List Char)
  | [] => some []
  | '\\' :: 'u' :: a :: b :: c :: d :: '\\' :: 'u' :: a' :: b' :: c' :: d' :: rest => do
    let code ← hex4? a b c d
    match single? code with
    | some char => return char :: (← unescape? ('\\' :: 'u' :: a' :: b' :: c' :: d' :: rest))
    | none => return (← pair? code (← hex4? a' b' c' d')) :: (← unescape? rest)
  | '\\' :: 'u' :: a :: b :: c :: d :: rest => do
    return (← single? (← hex4? a b c d)) :: (← unescape? rest)
  | '\\' :: c :: rest => do return (← shortEscape? c) :: (← unescape? rest)
  | c :: rest => (unescape? rest).map (c :: ·)

def ofLexeme? : Lexeme → Option Token
  | .mark c => some (mark c)
  | .quoted body =>
    if isWellFormed body then some (text ((unescape? body).map String.ofList)) else none
  | .word cs =>
    if cs = "null".toList then some (scalar .null)
    else if cs = "true".toList then some (scalar (.bool true))
    else if cs = "false".toList then some (scalar (.bool false))
    else (NumberText.ofChars? cs).map fun n => scalar (n.value?.getD .unreadable)

def ofChars? (cs : List Char) : Option (List Token) := (Lexeme.split cs).bind (·.mapM ofLexeme?)

end Token

end AnnotationResolution.Json
