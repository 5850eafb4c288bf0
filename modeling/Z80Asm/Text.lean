/-!
# Byte strings

Source files, names and messages are sequences of bytes: a source line need not be valid UTF-8, and
what it holds is carried into messages unchanged.  `Text` is such a sequence.  This module has the
operations on it that do not depend on the assembler: number texts, case, joining, padding, lines.

Texts are ordered bytewise (`compare` on lists of bytes), which is the order of every sorted output.
-/

namespace Z80Asm

abbrev Text := List UInt8

def bytes (s : String) : Text := s.toByteArray.data.toList

namespace Text

def ofNat (n : Nat) : Text := (Nat.toDigits 10 n).map Char.toUInt8

def ofInt : Int → Text
  | .ofNat n => ofNat n
  | .negSucc n => '-'.toUInt8 :: ofNat (n + 1)

def hexDigit (d : Nat) : UInt8 :=
  if d < 10 then '0'.toUInt8 + d.toUInt8 else 'A'.toUInt8 + (d - 10).toUInt8

/-- The last `width` upper case hexadecimal digits of a number. -/
def hex : Nat → Nat → Text
  | 0, _ => []
  | width + 1, n => hex width (n / 16) ++ [hexDigit (n % 16)]

def lowerByte (b : UInt8) : UInt8 :=
  if 'A'.toUInt8 ≤ b && b ≤ 'Z'.toUInt8 then b + 32 else b

/-- Lower case, as far as a comparison with ASCII words can tell: ASCII letters, and the two code
    points outside ASCII whose lower case is an ASCII letter (U+0130 and U+212A). -/
def lower : Text → Text
  | 0xC4 :: 0xB0 :: rest => 'i'.toUInt8 :: lower rest
  | 0xE2 :: 0x84 :: 0xAA :: rest => 'k'.toUInt8 :: lower rest
  | b :: rest => lowerByte b :: lower rest
  | [] => []

def join (separator : Text) (parts : List Text) : Text := List.intercalate separator parts

/-- Blanks before a text, up to `width` bytes in all. -/
def padLeft (width : Nat) (t : Text) : Text :=
  List.replicate (width - t.length) ' '.toUInt8 ++ t

/-- Splits at every occurrence of a byte; the parts do not hold it. -/
def splitAtByte (separator : UInt8) : Text → List Text
  | [] => [[]]
  | b :: rest =>
    if b = separator then [] :: splitAtByte separator rest
    else match splitAtByte separator rest with
      | part :: parts => (b :: part) :: parts
      | [] => [[b]]

theorem splitAtByte_of_not_mem {separator : UInt8} {part : Text} (plain : separator ∉ part) :
    splitAtByte separator part = [part] := by
  induction part with
  | nil => rfl
  | cons b rest ih =>
    rw [List.mem_cons, not_or] at plain
    rw [splitAtByte, if_neg (Ne.symm plain.1), ih plain.2]

/-- A carriage return directly before a line feed is dropped. -/
def dropReturns : Text → Text
  | 0x0D :: 0x0A :: rest => 0x0A :: dropReturns rest
  | b :: rest => b :: dropReturns rest
  | [] => []

theorem dropReturns_of_not_mem {t : Text} (plain : 0x0D ∉ t ∨ 0x0A ∉ t) : dropReturns t = t := by
  fun_induction dropReturns t with
  | case1 rest => simp at plain
  | case2 b rest _ ih =>
    rw [ih (plain.imp (mt (List.mem_cons_of_mem b)) (mt (List.mem_cons_of_mem b)))]
  | case3 => rfl

/-- The lines of a file.  Lines end with a line feed or a carriage return and a line feed; the end of
    the last line may be missing. -/
def lines (t : Text) : List Text :=
  let rows := splitAtByte 0x0A (dropReturns t)
  match rows.getLast? with
  | some [] => rows.dropLast
  | _ => rows

/-- The parts before and after the first occurrence of a byte, if there is one. -/
def cut? (separator : UInt8) (t : Text) : Option (Text × Text) :=
  match t.dropWhile (· != separator) with
  | _ :: after => some (t.takeWhile (· != separator), after)
  | [] => none

end Text

end Z80Asm
