import Z80Asm.Text

/-!
# Numbers with a fraction

A finite number is a whole number times a power of two.  The whole number has at most 53 bits and the
power is at least `2 ^ leastExponent`; results that do not fit are rounded to the nearest number that does,
ties going to the even one.  What is too large becomes infinite.

* `rounded` is the number nearest to a fraction; every operation rounds its exact result once;
* `text` writes a number with the fewest digits that read back as the same number.
-/

namespace Z80Asm.Script

inductive Double where
  /-- `mantissa * 2 ^ exponent`, or its negative. -/
  | finite (negative : Bool) (mantissa : Nat) (exponent : Int)
  | infinite (negative : Bool)
  /-- The result of an operation that has none. -/
  | undefined
  deriving Repr, DecidableEq

namespace Double

def leastExponent : Int := -1074

def greatestExponent : Int := 971

def mantissaBound : Nat := 1 <<< 53

def zero (negative : Bool) : Double := finite negative 0 leastExponent

/-- `n * 2 ^ k`, for `k` not negative, as part of a fraction. -/
def scale (n : Nat) (k : Int) : Nat := n <<< k.toNat

/-- The exponent with which a positive fraction is written: 53 bits before the point, if there are that
many. -/
def exponentOf (num den : Nat) : Int :=
  let e : Int := num.log2 - den.log2 - 52
  let e := if scale num (-e) < scale (den <<< 52) e then e - 1 else e
  max e leastExponent

/-- The nearest number to the fraction `num / den`. -/
def rounded (negative : Bool) (num den : Nat) : Double :=
  if num = 0 then zero negative
  else
    let e := exponentOf num den
    let n := scale num (-e)
    let d := scale den e
    let q := n / d
    let r := n % d
    let q := if 2 * r > d || (2 * r == d && q % 2 == 1) then q + 1 else q
    let (q, e) := if q = mantissaBound then (q / 2, e + 1) else (q, e)
    if e > greatestExponent then infinite negative else finite negative q e

def ofInt (n : Int) : Double := rounded (n < 0) n.natAbs 1

/-- The nearest number to `digits * 10 ^ exponent`. -/
def ofDecimal (negative : Bool) (digits : Nat) (exponent : Int) : Double :=
  rounded negative (digits * Nat.pow 10 exponent.toNat) (Nat.pow 10 (-exponent).toNat)

def isNegative : Double → Bool
  | finite negative m _ => negative && m != 0
  | infinite negative => negative
  | undefined => false

def isZero : Double → Bool
  | finite _ m _ => m == 0
  | _ => false

def isFinite : Double → Bool
  | finite _ _ _ => true
  | _ => false

/-! ## Operations -/

def neg : Double → Double
  | finite negative m e => finite (!negative) m e
  | infinite negative => infinite !negative
  | undefined => undefined

/-- A finite number as an integer over a power of two: `n / 2 ^ k`. -/
def signed (negative : Bool) (m : Nat) (e : Int) (k : Nat) : Int :=
  let n : Int := scale m (e + k)
  if negative then -n else n

def add : Double → Double → Double
  | finite s m e, finite t n f =>
    let k := (-(min e f)).toNat
    let sum := signed s m e k + signed t n f k
    if sum = 0 then zero (s && t) else rounded (sum < 0) sum.natAbs (1 <<< k)
  | undefined, _ => undefined
  | _, undefined => undefined
  | infinite s, infinite t => if s == t then infinite s else undefined
  | infinite s, _ => infinite s
  | _, infinite t => infinite t

def sub (x y : Double) : Double := add x y.neg

def mul : Double → Double → Double
  | finite s m e, finite t n f =>
    if m = 0 || n = 0 then zero (s != t)
    else rounded (s != t) (scale (m * n) (e + f)) (scale 1 (-(e + f)))
  | undefined, _ => undefined
  | _, undefined => undefined
  | infinite s, infinite t => infinite (s != t)
  | infinite s, finite t n _ => if n = 0 then undefined else infinite (s != t)
  | finite s m _, infinite t => if m = 0 then undefined else infinite (s != t)

def div : Double → Double → Double
  | finite s m e, finite t n f =>
    if n = 0 then if m = 0 then undefined else infinite (s != t)
    else if m = 0 then zero (s != t)
    else rounded (s != t) (scale m (e - f)) (scale n (f - e))
  | undefined, _ => undefined
  | _, undefined => undefined
  | infinite _, infinite _ => undefined
  | infinite s, finite t _ _ => infinite (s != t)
  | finite s _ _, infinite t => zero (s != t)

/-- The integer part towards zero of a finite number. -/
def truncate? : Double → Option Int
  | finite negative m e =>
    let n : Int := (scale m e >>> (-e).toNat : Nat)
    some (if negative then -n else n)
  | _ => none

def floor : Double → Double
  | finite negative m e =>
    let k := (-e).toNat
    let n := (signed negative m e k).fdiv (1 <<< k : Nat)
    if n = 0 then zero negative else ofInt n
  | x => x

/-- The remainder of a division that rounds towards zero; it has the sign of the first number. -/
def remainder : Double → Double → Double
  | finite s m e, finite t n f =>
    if n = 0 then undefined
    else
      let k := (-(min e f)).toNat
      let r := (signed s m e k).natAbs % (signed t n f k).natAbs
      if r = 0 then zero s else rounded s r (1 <<< k)
  | finite s m e, infinite _ => finite s m e
  | _, _ => undefined

/-- The remainder of a division that rounds down; it has the sign of the second number. -/
def mod (x y : Double) : Double :=
  let r := remainder x y
  if x.isNegative != y.isNegative && !r.isZero then add r y else r

/-- The order of two numbers; an undefined one is greater than every other. -/
def order : Double → Double → Ordering
  | finite s m e, finite t n f =>
    let k := (-(min e f)).toNat
    compare (signed s m e k) (signed t n f k)
  | undefined, undefined => .eq
  | undefined, _ => .gt
  | _, undefined => .lt
  | infinite s, infinite t => if s == t then .eq else if s then .lt else .gt
  | infinite s, _ => if s then .lt else .gt
  | _, infinite t => if t then .gt else .lt

def orderInt (n : Int) : Double → Ordering
  | finite s m e =>
    let k := (-e).toNat
    compare (n * (1 <<< k : Nat)) (signed s m e k)
  | infinite s => if s then .gt else .lt
  | undefined => .lt

/-! ## Texts -/

/-- `num / den` rounded to a whole number, ties to even. -/
def nearest (num den : Nat) : Nat :=
  let q := num / den
  let r := num % den
  if 2 * r > den || (2 * r == den && q % 2 == 1) then q + 1 else q

def fraction (m : Nat) (e : Int) : Nat × Nat := (scale m e, scale 1 (-e))

/-- The power of ten of the first digit of a positive fraction, found from a guess that is not too high. -/
def leadingPower (num den : Nat) : Int :=
  let guess : Int := ((num.log2 : Int) - den.log2 - 1) * 30103 / 100000 - 1
  let atLeast (p : Int) : Bool := num * Nat.pow 10 (-p).toNat ≥ den * Nat.pow 10 p.toNat
  if atLeast (guess + 2) then guess + 2 else if atLeast (guess + 1) then guess + 1 else guess

/-- A positive fraction to `count` digits: the digits and the power of ten of the first one. -/
def toDigits (num den count : Nat) : Nat × Int :=
  let p := leadingPower num den
  let k := (count : Int) - 1 - p
  let q := nearest (num * Nat.pow 10 k.toNat) (den * Nat.pow 10 (-k).toNat)
  if q = Nat.pow 10 count then (q / 10, p + 1) else (q, p)

/-- The fewest digits, beginning with `count`, that read back as the same number. -/
def shortest (m : Nat) (e : Int) : Nat → Nat → Nat × Int
  | 0, count => toDigits (fraction m e).1 (fraction m e).2 count
  | more + 1, count =>
    let (q, p) := toDigits (fraction m e).1 (fraction m e).2 count
    if ofDecimal false q (p - count + 1) = finite false m e then (q, p) else shortest m e more (count + 1)

def signText (negative : Bool) : Text := if negative then bytes "-" else []

/-- The exponent of a number written with one, `letter` in front: at least two digits. -/
def exponentText (letter : UInt8) (p : Int) : Text :=
  let digits := Text.ofNat p.natAbs
  [letter, if p < 0 then '-'.toUInt8 else '+'.toUInt8]
    ++ (if digits.length < 2 then bytes "0" ++ digits else digits)

/-- Digits with a point after the first `whole` of them. -/
def pointed (digits : Text) (whole : Nat) : Text :=
  let fraction := digits.drop whole
  digits.take whole ++ (if fraction.isEmpty then [] else bytes "." ++ fraction)

def specialText : Double → Text
  | infinite true => bytes "-inf"
  | infinite false => bytes "+inf"
  | _ => bytes "nan"

/-- The number with the fewest digits, with an exponent, after `letter`, if it is very large or small. -/
def shortestText (letter : UInt8) : Double → Text
  | finite negative m e =>
    let (digits, p) := if m = 0 then (bytes "0", 0) else
      let (q, p) := shortest m e 16 1
      ((Text.ofNat q).reverse.dropWhile (· == '0'.toUInt8) |>.reverse, p)
    signText negative ++
      if p < -4 || p ≥ 6 then pointed digits 1 ++ exponentText letter p
      else if p < 0 then bytes "0." ++ List.replicate (-p - 1).toNat '0'.toUInt8 ++ digits
      else
        let whole := p.toNat + 1
        pointed (digits ++ List.replicate (whole - digits.length) '0'.toUInt8) whole
  | x => x.specialText

/-- The number as a literal is written: with a point or an exponent. -/
def text (letter : UInt8) (x : Double) : Text :=
  let t := x.shortestText letter
  if !x.isFinite || t.contains letter || t.contains '.'.toUInt8 then t else t ++ bytes ".0"

def fixedText : Double → Text
  | finite negative m e =>
    let (num, den) := fraction m e
    let digits := Text.ofNat (nearest (num * 1000000) den)
    let digits := List.replicate (7 - digits.length) '0'.toUInt8 ++ digits
    signText negative ++ pointed digits (digits.length - 6)
  | x => x.specialText

/-- The number with one digit before the point, six after it, and an exponent after `letter`. -/
def scientificText (letter : UInt8) : Double → Text
  | finite negative m e =>
    let (q, p) := if m = 0 then (0, 0) else toDigits (fraction m e).1 (fraction m e).2 7
    let digits := Text.ofNat q
    let digits := digits ++ List.replicate (7 - digits.length) '0'.toUInt8
    signText negative ++ pointed digits 1 ++ exponentText letter p
  | x => x.specialText

end Double

end Z80Asm.Script
