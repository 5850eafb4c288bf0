import Z80Asm.Token.Numeral

/-!
# Numbers on the command line

A number is decimal, or has a radix by its start: `0x`, `0o`, `0b`, or `0` for octal.  Underscores may
stand between its digits and after its start.
-/

namespace Z80Asm.Command.Number

inductive Problem where
  | malformed | outOfRange
  deriving Repr, DecidableEq

def Problem.text : Problem → String
  | malformed => "invalid syntax"
  | outOfRange => "value out of range"

def divider : UInt8 := '_'.toUInt8

def split : Text → Nat × Text
  | 0x30 :: letter :: digit :: rest =>
    let letter' := Text.lowerByte letter
    if letter' = 'x'.toUInt8 then (16, digit :: rest)
    else if letter' = 'o'.toUInt8 then (8, digit :: rest)
    else if letter' = 'b'.toUInt8 then (2, digit :: rest)
    else (8, letter :: digit :: rest)
  | 0x30 :: rest => (8, rest)
  | t => (10, t)

/-- The value of digits after a value; underscores are passed over. -/
def value (radix : Nat) : Nat → Text → Except Problem Nat
  | n, [] => .ok n
  | n, b :: rest =>
    if b = divider then value radix n rest
    else match Numeral.digit? b with
      | none => .error .malformed
      | some d =>
        if radix ≤ d then .error .malformed
        else if UInt64.size ≤ n * radix + d then .error .outOfRange
        else value radix (n * radix + d) rest

/-- Every underscore stands after a digit or the start of the number, and before a digit. -/
def dividesDigits (afterDigit : Bool) : Text → Bool
  | [] => true
  | [b] => b != divider
  | b :: e :: rest =>
    if b = divider then afterDigit && e != divider && dividesDigits false (e :: rest)
    else dividesDigits true (e :: rest)

def isDivided (t : Text) : Bool :=
  match t with
  | 0x30 :: letter :: rest =>
    if [0x78, 0x6F, 0x62].contains (Text.lowerByte letter) then dividesDigits true rest
    else dividesDigits false t
  | _ => dividesDigits false t

def magnitude (t : Text) : Except Problem Nat :=
  if t.isEmpty then .error .malformed
  else
    let (radix, digits) := split t
    match value radix 0 digits with
    | .error problem => .error problem
    | .ok n => if isDivided t then .ok n else .error .malformed

/-- Reads a number with or without a sign, as a word of 64 bits. -/
def read (t : Text) : Except Problem Int64 :=
  let negative := t.head? == some '-'.toUInt8
  let isSigned := negative || t.head? == some '+'.toUInt8
  match magnitude (if isSigned then t.drop 1 else t) with
  | .error problem => .error problem
  | .ok n =>
    let value : Int := if negative then -n else n
    if Int64.minValue.toInt ≤ value && value ≤ Int64.maxValue.toInt then .ok (Int64.ofInt value)
    else .error .outOfRange

end Z80Asm.Command.Number
