import AnnotationResolution.Json.Basic

/-!
# JSON numbers

A number is an optional minus, digits without a superfluous leading zero, an optional fraction and
an optional exponent.  `NumberText.ofChars?` cuts a word into these parts and `NumberText.value?`
gives its value.

The digits are gathered into a significand of 64 bits.  A digit that no longer fits is not looked
at again: before the point it raises the decimal exponent by one, behind it it counts for nothing.
The double is the significand times or divided by the power of ten, with one rounding for the
significand and one for each step of scaling (`scale?`).  A number too large for a double has no
value.
-/

namespace AnnotationResolution.Json

structure NumberText where
  negative : Bool
  whole : List Char
  fraction : Option (List Char)
  /-- Sign (true for minus) and digits. -/
  exponent : Option (Bool × List Char)
deriving Repr, DecidableEq

namespace NumberText

def digitValue (c : Char) : Nat := c.toNat - '0'.toNat

/-- The digits at the front, of which there must be one, and what follows them. -/
def digits? (cs : List Char) : Option (List Char × List Char) :=
  match cs.takeWhile Char.isDigit with
  | [] => none
  | digits => some (digits, cs.dropWhile Char.isDigit)

def exponent? : List Char → Option (Option (Bool × List Char))
  | [] => some none
  | e :: cs =>
    if e = 'e' ∨ e = 'E' then do
      let (negative, cs) := match cs with
        | '-' :: rest => (true, rest)
        | '+' :: rest => (false, rest)
        | _ => (false, cs)
      let (digits, rest) ← digits? cs
      if rest = [] then some (some (negative, digits)) else none
    else none

def ofChars? (cs : List Char) : Option NumberText := do
  let (negative, cs) := match cs with
    | '-' :: rest => (true, rest)
    | _ => (false, cs)
  let (whole, rest) ← digits? cs
  if whole.head? = some '0' ∧ whole.length ≠ 1 then none
  else
    match rest with
    | '.' :: rest => do
      let (fraction, rest) ← digits? rest
      return ⟨negative, whole, some fraction, ← exponent? rest⟩
    | _ => return ⟨negative, whole, none, ← exponent? rest⟩

/-- The significand after as many digits as fit into 64 bits, and how many do not. -/
def absorb (significand : Nat) : List Char → Nat × Nat
  | [] => (significand, 0)
  | c :: rest =>
    let next := significand * 10 + digitValue c
    if next < UInt64.size then absorb next rest else (significand, rest.length + 1)

def tenTo (n : Nat) : Float := Float.ofScientific 1 false n

def divideByTenTo (x : Float) (n : Nat) : Float :=
  if n ≤ 308 then x / tenTo n
  else if x == 0 then x
  else divideByTenTo (x / tenTo 308) (n - 308)
termination_by n

/-- `x` times `10^exponent`, if that is a finite double. -/
def scale? (x : Float) (exponent : Int) : Option Float :=
  if exponent < 0 then some (divideByTenTo x exponent.natAbs)
  else if exponent ≤ 308 then
    let scaled := x * tenTo exponent.natAbs
    if scaled.isInf then none else some scaled
  else if x == 0 then some x
  else none

def magnitude? (n : NumberText) : Option Float :=
  let (significand, beyond) := absorb 0 n.whole
  let (significand, exponent) : Nat × Int :=
    match n.fraction with
    | none => (significand, beyond)
    | some fraction =>
      let (significand, dropped) := absorb significand fraction
      (significand, beyond - (fraction.length - dropped : Int))
  let written : Int :=
    match n.exponent with
    | none => 0
    | some (negative, digits) =>
      let magnitude : Int := (digits.foldl (fun e c => e * 10 + digitValue c) 0 : Nat)
      if negative then -magnitude else magnitude
  scale? (Float.ofNat significand) (exponent + written)

def isWhole (n : NumberText) : Bool := n.fraction.isNone && n.exponent.isNone

/-- An integer that is out of range, and minus zero, are doubles. -/
def value? (n : NumberText) : Option Json :=
  let (significand, beyond) := absorb 0 n.whole
  if n.isWhole && beyond == 0 && !n.negative then some (.int significand)
  else if n.isWhole && beyond == 0 && 0 < significand
      && Int64.minValue.toInt ≤ -(significand : Int) then
    some (.int (-significand))
  else n.magnitude?.map fun x => .float (if n.negative then -x else x)

end NumberText

end AnnotationResolution.Json
