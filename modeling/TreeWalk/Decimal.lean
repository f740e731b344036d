/-!
# Decimal text of numbers

A number is written with the fewest digits that read back as the same number, positionally and
never with an exponent. The search works on exact natural numbers: a finite number is
`mantissa * 2 ^ exponent`, and the decimals that read back as it fill an interval around it.
-/

namespace TreeWalk

/-- A positive finite number `mantissa * 2 ^ exponent`. -/
structure Dyadic where
  mantissa : Nat
  exponent : Int
  /-- The next smaller number is half as far away as the next larger one. -/
  narrowBelow : Bool

/-- The decimal `digits * 10 ^ exponent`. -/
structure Decimal where
  digits : Nat
  exponent : Int

namespace Dyadic

/-- The lower end, the number itself and the upper end of the interval of decimals that read back
as the number, in quarters of `2 ^ exponent`. -/
def quarters (x : Dyadic) : Nat × Nat × Nat :=
  (4 * x.mantissa - (if x.narrowBelow then 1 else 2), 4 * x.mantissa, 4 * x.mantissa + 2)

/-- The ends of the interval read back as the number itself when its mantissa is even. -/
def holds (x : Dyadic) (lower point upper : Nat) : Bool :=
  if x.mantissa % 2 == 0 then lower ≤ point && point ≤ upper else lower < point && point < upper

/-- The multiple of `10 ^ k` that reads back as the number and lies nearest to it, the larger one
of two equally near. -/
def onGrid? (x : Dyadic) (k : Int) : Option Decimal :=
  let (lower, middle, upper) := x.quarters
  let scale := Nat.pow 2 (x.exponent - 2).toNat * Nat.pow 10 (-k).toNat
  let unit := Nat.pow 2 (2 - x.exponent).toNat * Nat.pow 10 k.toNat
  let below := middle * scale / unit
  let fits := fun d => x.holds (lower * scale) (d * unit) (upper * scale)
  let aboveNearer := (below + 1) * unit - middle * scale ≤ middle * scale - below * unit
  if fits (below + 1) && (aboveNearer || !fits below) then some ⟨below + 1, k⟩
  else if fits below then some ⟨below, k⟩
  else none

/-- Tries ever finer grids and stops at the first one that has a decimal reading back as the number. -/
def firstOnGrid (x : Dyadic) : Nat → Int → Decimal
  | 0, k => ⟨0, k⟩
  | steps + 1, k =>
    match x.onGrid? k with
    | some d => d
    | none => firstOnGrid x steps (k - 1)

/-- A power of ten above the number, by `log10 2 ≈ 0.30103`. -/
def coarsest (x : Dyadic) : Int :=
  (x.exponent + x.mantissa.log2 + 1) * 30103 / 100000 + 1

/-- The shortest decimal that reads back as the number. Seventeen digits always do, and the search
starts at most three places above the first of them. -/
def shortest (x : Dyadic) : Decimal := x.firstOnGrid 21 x.coarsest

end Dyadic

/-- The digits with a point and zeros put in where the exponent says. -/
def Decimal.positional (d : Decimal) : String :=
  let digits := Nat.toDigits 10 d.digits
  if 0 ≤ d.exponent then
    String.ofList (digits ++ List.replicate d.exponent.toNat '0')
  else
    let places := (-d.exponent).toNat
    let padded := List.replicate (places + 1 - digits.length) '0' ++ digits
    let whole := padded.length - places
    String.ofList (padded.take whole ++ '.' :: padded.drop whole)

namespace Number

/-- What a number is, apart from its sign. -/
inductive Magnitude where
  | zero
  | finite (x : Dyadic)
  | infinite
  | undefined

def magnitude (x : Float) : Magnitude :=
  let bits := x.toBits.toNat
  let fraction : Nat := bits % Nat.pow 2 52
  let exponent : Nat := bits / Nat.pow 2 52 % Nat.pow 2 11
  if exponent == 2047 then (if fraction == 0 then .infinite else .undefined)
  else if exponent == 0 then
    if fraction == 0 then .zero else .finite ⟨fraction, -1074, false⟩
  else .finite ⟨Nat.pow 2 52 + fraction, (exponent : Int) - 1075, fraction == 0 && 1 < exponent⟩

def isNegative (x : Float) : Bool := Nat.pow 2 63 ≤ x.toBits.toNat

/-- The text of a number: shortest digits, `-` also before zero, `inf`, and `NaN` without a sign. -/
def text (x : Float) : String :=
  let sign := if isNegative x then "-" else ""
  match magnitude x with
  | .zero => sign ++ "0"
  | .finite d => sign ++ d.shortest.positional
  | .infinite => sign ++ "inf"
  | .undefined => "NaN"

/-- The natural number that a number is, if it is one. -/
def toNat? (x : Float) : Option Nat :=
  match magnitude x with
  | .zero => some 0
  | .finite d =>
    if isNegative x then none
    else if 0 ≤ d.exponent then some (d.mantissa * Nat.pow 2 d.exponent.toNat)
    else
      let unit := Nat.pow 2 (-d.exponent).toNat
      if d.mantissa % unit == 0 then some (d.mantissa / unit) else none
  | _ => none

/-- The number nearest to `whole.fraction`, both given as decimal digits. -/
def ofDigits (whole fraction : List Char) : Float :=
  let value := (whole ++ fraction).foldl (fun n c => 10 * n + (c.toNat - '0'.toNat)) 0
  Float.ofScientific value true fraction.length

example : text (0.1 + 0.2) = "0.30000000000000004" := by decide +kernel
example : text (-0.0) = "-0" := by decide +kernel
example : text 1e23 = "100000000000000000000000" := by decide +kernel

end Number

end TreeWalk
