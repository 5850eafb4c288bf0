import Z80Asm.Text

/-!
# Numerals

The spellings of numbers.  Without a sign in front a number starts with a decimal digit and may have a
radix letter at its end (`1Fh`, `1010b`, `17q`, `17o`, `99d`) or after a leading zero (`0x1F`, `0b10`).
A number is below 2^64 and is read as a 64-bit value.
-/

namespace Z80Asm.Numeral

def digit? (b : UInt8) : Option Nat :=
  if '0'.toUInt8 ≤ b && b ≤ '9'.toUInt8 then some (b.toNat - 48)
  else if 'a'.toUInt8 ≤ b && b ≤ 'z'.toUInt8 then some (b.toNat - 97 + 10)
  else if 'A'.toUInt8 ≤ b && b ≤ 'Z'.toUInt8 then some (b.toNat - 65 + 10)
  else none

def isDigitOf (radix : Nat) (b : UInt8) : Bool :=
  match digit? b with
  | some d => d < radix
  | none => false

def isDigits (radix : Nat) (t : Text) : Bool := !t.isEmpty && t.all (isDigitOf radix)

def ofDigits (radix : Nat) (t : Text) : Nat :=
  t.foldl (fun n b => n * radix + (digit? b).getD 0) 0

/-- The value of digits in a radix, if they are digits and it is below 2^64. -/
def read? (radix : Nat) (t : Text) : Option Int64 :=
  if isDigits radix t && ofDigits radix t < UInt64.size then
    some (UInt64.ofNat (ofDigits radix t)).toInt64
  else none

/-- The letter after a leading zero, in lower case. -/
def radixLetter? : Text → Option UInt8
  | a :: b :: _ => if a = '0'.toUInt8 then some (Text.lowerByte b) else none
  | _ => none

/-- The value of a number that starts with a decimal digit.  The letter at the end decides before the
    one after a leading zero, except that `0b` before binary digits is a radix. -/
def value? (t : Text) : Option Int64 :=
  let last := (t.getLast?.map Text.lowerByte).getD 0
  if last = 'h'.toUInt8 then read? 16 t.dropLast
  else if radixLetter? t = some 'x'.toUInt8 then read? 16 (t.drop 2)
  else if radixLetter? t = some 'b'.toUInt8 && isDigits 2 (t.drop 2) then read? 2 (t.drop 2)
  else if last = 'b'.toUInt8 then read? 2 t.dropLast
  else if last = 'q'.toUInt8 || last = 'o'.toUInt8 then read? 8 t.dropLast
  else if last = 'd'.toUInt8 then read? 10 t.dropLast
  else read? 10 t

/-- The radix and the length of a sign in front of a number.  `%` and `&` are such signs only where an
    operand may start. -/
def signRadix? (operand : Bool) : Text → Option (Nat × Nat)
  | [] => none
  | a :: rest =>
    if a = '$'.toUInt8 || a = '#'.toUInt8 then some (16, 1)
    else if a = '%'.toUInt8 && operand then some (2, 1)
    else if a = '&'.toUInt8 && operand then
      match rest with
      | [] => none
      | b :: _ =>
        let letter := Text.lowerByte b
        if letter = 'h'.toUInt8 then some (16, 2)
        else if letter = 'b'.toUInt8 then some (2, 2)
        else if letter = 'o'.toUInt8 || letter = 'q'.toUInt8 then some (8, 2)
        else none
    else none

end Z80Asm.Numeral
