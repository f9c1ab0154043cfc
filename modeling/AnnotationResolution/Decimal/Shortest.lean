/-!
# The shortest decimal of a double

A finite double is `m · 2^q`.  All reals closer to it than to its neighbours round to it, the ends
of that interval included when `m` is even.  Among the decimals in the interval,
`Binary.shortest` takes one on the coarsest grid `10^k` that has a point there, and of two points
on that grid the nearer.  `Style` says how the digits are written.

Comparisons are made in natural numbers: on the grid `10^k`, the point `c · 10^k` and a multiple of
a quarter unit, `x · 2^(q-2)`, compare as `c * gridUnit` and `x * quarterUnit`.
-/

namespace AnnotationResolution.Decimal

/-- The magnitude `mantissa · 2^exponent` of a finite double. -/
structure Binary where
  mantissa : Nat
  exponent : Int
deriving Repr, DecidableEq

/-- The least mantissa of a normal double: 52 bits follow the leading one. -/
def leadingBit : Nat := 0x10000000000000

/-- The sign (true for minus) and the magnitude, if the double is finite. -/
def Binary.ofFloat? (x : Float) : Option (Bool × Binary) :=
  let bits : Nat := x.toBits.toNat
  let negative := decide (0x8000000000000000 ≤ bits)
  let exponent : Nat := bits / leadingBit % 2048
  let fraction : Nat := bits % leadingBit
  if exponent = 2047 then none
  else if exponent = 0 then some (negative, ⟨fraction, -1074⟩)
  else some (negative, ⟨fraction + leadingBit, (exponent : Int) - 1075⟩)

/-- Which of two equally near decimals is taken. -/
inductive Ties where
  | up
  | even
deriving Repr, DecidableEq

/-- A decimal `digits · 10^scale`. -/
structure Digits where
  digits : Nat
  scale : Int
deriving Repr, DecidableEq

namespace Binary

def gridUnit (b : Binary) (k : Int) : Nat :=
  Nat.pow 10 k.toNat * Nat.pow 2 (2 - b.exponent).toNat

def quarterUnit (b : Binary) (k : Int) : Nat :=
  Nat.pow 2 (b.exponent - 2).toNat * Nat.pow 10 (-k).toNat

/-- The lower end in quarter units: below a power of two the neighbours are half as far apart. -/
def lowerQuarters (b : Binary) : Nat :=
  if b.mantissa = leadingBit ∧ -1074 < b.exponent then 4 * b.mantissa - 1 else 4 * b.mantissa - 2

def upperQuarters (b : Binary) : Nat := 4 * b.mantissa + 2

/-- Whether `c · 10^k` reads back as `b`. -/
def readsBack (b : Binary) (k : Int) (c : Nat) : Bool :=
  let point := c * b.gridUnit k
  let low := b.lowerQuarters * b.quarterUnit k
  let high := b.upperQuarters * b.quarterUnit k
  0 < c && if b.mantissa % 2 = 0 then low ≤ point && point ≤ high else low < point && point < high

/-- The nearest point of the grid `10^k` that reads back as `b`. -/
def onGrid (ties : Ties) (b : Binary) (k : Int) : Option Nat :=
  let value := 4 * b.mantissa * b.quarterUnit k
  let below := value / b.gridUnit k
  let above := below + 1
  let excess := 2 * (value % b.gridUnit k)
  match b.readsBack k below, b.readsBack k above with
  | false, false => none
  | true, false => some below
  | false, true => some above
  | true, true =>
    if excess < b.gridUnit k then some below
    else if b.gridUnit k < excess then some above
    else
      match ties with
      | .up => some above
      | .even => some (if below % 2 = 0 then below else above)

/-- The scales a double can need, coarsest first. -/
def scales : List Int := (List.range 634).map fun (i : Nat) => 309 - (i : Int)

def shortest (ties : Ties) (b : Binary) : Digits :=
  if b.mantissa = 0 then ⟨0, 0⟩
  else (scales.findSome? fun k => (b.onGrid ties k).map fun c => ⟨c, k⟩).getD ⟨0, 0⟩

end Binary

/-- How the digits of a number are laid out: whether it is written without an exponent is decided
by the decimal exponent of its leading digit. -/
structure Style where
  ties : Ties
  positional : Int → Bool
  /-- Whole numbers end in `.0`. -/
  pointZero : Bool

namespace Style

def zeros (n : Nat) : String := String.ofList (List.replicate n '0')

def positionalText (style : Style) (digits : List Char) (scale : Int) : String :=
  let places := (digits.length : Int) + scale
  if 0 ≤ scale then
    String.ofList digits ++ zeros scale.toNat ++ (if style.pointZero then ".0" else "")
  else if 0 < places then
    String.ofList (digits.take places.toNat) ++ "." ++ String.ofList (digits.drop places.toNat)
  else "0." ++ zeros (-places).toNat ++ String.ofList digits

/-- The exponent always has a sign. -/
def exponentText (exponent : Int) : String :=
  (if exponent < 0 then "-" else "+") ++ toString exponent.natAbs

def scientificText (digits : List Char) (exponent : Int) : String :=
  let mantissa :=
    match digits with
    | lead :: rest@(_ :: _) => String.singleton lead ++ "." ++ String.ofList rest
    | _ => String.ofList digits
  mantissa ++ "e" ++ exponentText exponent

/-- The text of a finite double. -/
def text? (style : Style) (x : Float) : Option String := do
  let (negative, magnitude) ← Binary.ofFloat? x
  let shortest := magnitude.shortest style.ties
  let digits := Nat.toDigits 10 shortest.digits
  let exponent := (digits.length : Int) + shortest.scale - 1
  let unsigned :=
    if style.positional exponent then style.positionalText digits shortest.scale
    else scientificText digits exponent
  return (if negative then "-" else "") ++ unsigned

end Style

end AnnotationResolution.Decimal
