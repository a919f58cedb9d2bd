import Mathlib

/-!
# Double-precision floats, by their bits

A double is its 64 bits.  A finite one has an exact rational `value`; `round` is the other way,
**round to nearest, ties to even**, with gradual underflow and overflow to infinity, and every
operation is the exact one followed by `round`.  Comparisons and casts to integers are exact.
-/

structure F64 where
  bits : UInt64
  deriving DecidableEq

namespace F64

/-- The bits of the positive infinity, one above those of the largest finite magnitude. -/
def infBits : Nat := 0x7ff * 2 ^ 52

def isNegative (f : F64) : Bool := decide (2 ^ 63 ≤ f.bits.toNat)

def magnitude (f : F64) : Nat := f.bits.toNat % 2 ^ 63

def isFinite (f : F64) : Bool := decide (f.magnitude < infBits)

/-- The value of a finite magnitude: quanta of `2 ^ -1074` below the first normal number, and
`2 ^ 52 + fraction` quanta of the exponent's own size from there on. -/
def magnitudeValue (m : Nat) : ℚ :=
  if m / 2 ^ 52 = 0 then (m : ℚ) * (2 : ℚ) ^ (-1074 : ℤ)
  else ((2 ^ 52 + m % 2 ^ 52 : ℕ) : ℚ) * (2 : ℚ) ^ ((m / 2 ^ 52 : ℕ) - 1075 : ℤ)

def value (f : F64) : ℚ :=
  if f.isNegative then -magnitudeValue f.magnitude else magnitudeValue f.magnitude

def roundHalfEven (q : ℚ) : Nat :=
  let n := q.floor.toNat
  let rest := q - n
  if rest < 1 / 2 then n
  else if rest = 1 / 2 then n + n % 2
  else n + 1

def exponent (q : ℚ) : ℤ :=
  let e : ℤ := q.num.toNat.log2 - q.den.log2
  if (2 : ℚ) ^ e ≤ q then e else e - 1

def roundMagnitude (q : ℚ) : Nat :=
  if q = 0 then 0
  else
    let k := max (exponent q - 52) (-1074)
    min (roundHalfEven (q / (2 : ℚ) ^ k) + (k + 1074).toNat * 2 ^ 52) infBits

def round (negative : Bool) (q : ℚ) : F64 :=
  ⟨.ofNat (roundMagnitude |q| + if negative then 2 ^ 63 else 0)⟩

def ofInt (n : ℤ) : F64 := round (decide (n < 0)) n

def mul (f g : F64) : F64 := round (xor f.isNegative g.isNegative) (f.value * g.value)

def trunc (q : ℚ) : ℤ := if q < 0 then -(-q).floor else q.floor

def hasFraction (f : F64) : Bool := decide (f.value ≠ trunc f.value)

def toInt64 (f : F64) : ℤ := max (-2 ^ 63) (min (trunc f.value) (2 ^ 63 - 1))

def natOfDigits (cs : List Char) : Nat := cs.foldl (fun n c => 10 * n + (c.toNat - '0'.toNat)) 0

def exponentOfChars (cs : List Char) : Option ℤ :=
  let signed : ℤ × List Char :=
    match cs with
    | '-' :: ds => (-1, ds)
    | '+' :: ds => (1, ds)
    | ds => (1, ds)
  if signed.2 ≠ [] ∧ signed.2.all Char.isDigit then some (signed.1 * natOfDigits signed.2) else none

/-- A decimal literal without its sign: digits before or after the point, and an exponent. -/
def decimalOfChars (negative : Bool) (cs : List Char) : Option F64 :=
  let whole := cs.takeWhile Char.isDigit
  let rest := cs.dropWhile Char.isDigit
  let fraction := match rest with | '.' :: ds => ds.takeWhile Char.isDigit | _ => []
  let rest := match rest with | '.' :: ds => ds.dropWhile Char.isDigit | ds => ds
  let float (e : ℤ) : F64 :=
    round negative ((natOfDigits (whole ++ fraction) : ℚ) * (10 : ℚ) ^ (e - fraction.length))
  if whole = [] ∧ fraction = [] then none
  else
    match rest with
    | [] => some (float 0)
    | c :: ds => if c = 'e' ∨ c = 'E' then (exponentOfChars ds).map float else none

def ofChars (cs : List Char) : Option F64 :=
  let signed : Bool × List Char :=
    match cs with
    | '-' :: ds => (true, ds)
    | '+' :: ds => (false, ds)
    | ds => (false, ds)
  let sign := if signed.1 then 2 ^ 63 else 0
  let word := signed.2.map Char.toLower
  if word = "inf".toList ∨ word = "infinity".toList then some ⟨.ofNat (infBits + sign)⟩
  else if word = "nan".toList then some ⟨.ofNat (infBits + 2 ^ 51 + sign)⟩
  else decimalOfChars signed.1 signed.2

end F64
