import Z80Asm.Text.Printable
import Z80Asm.Text.Utf8

/-!
# Quoted text

How messages and token texts show arbitrary bytes: between quotes, printable code points as
themselves, the usual control characters by a letter after a backslash, all else by number.
`quote` is for strings, `quoteByte` for a single byte, which is shown as the code point of the same
number.
-/

namespace Z80Asm.Text

/-- The last `width` lower case hexadecimal digits of a number. -/
def lowerHex (width n : Nat) : Text := (hex width n).map lowerByte

def quoteMark : UInt8 := 0x22

def apostrophe : UInt8 := 0x27

def backslash : UInt8 := 0x5C

def controlLetter? : Nat → Option UInt8
  | 7 => some 'a'.toUInt8
  | 8 => some 'b'.toUInt8
  | 9 => some 't'.toUInt8
  | 10 => some 'n'.toUInt8
  | 11 => some 'v'.toUInt8
  | 12 => some 'f'.toUInt8
  | 13 => some 'r'.toUInt8
  | _ => none

def escapePoint (mark : UInt8) (p : Nat) : Text :=
  if p = mark.toNat || p = backslash.toNat then [backslash, p.toUInt8]
  else if isPrintable p then ofPoint p
  else match controlLetter? p with
    | some letter => [backslash, letter]
    | none =>
      if p < 0x80 then bytes "\\x" ++ lowerHex 2 p
      else if p < 0x10000 then bytes "\\u" ++ lowerHex 4 p
      else bytes "\\U" ++ lowerHex 8 p

/-- A piece between the quotes `mark`; a stray byte is shown by number. -/
def escapePiece (mark : UInt8) : Piece → Text
  | .point p => escapePoint mark p
  | .stray b => bytes "\\x" ++ lowerHex 2 b.toNat

def quote (t : Text) : Text :=
  [quoteMark] ++ (pieces t).flatMap (escapePiece quoteMark) ++ [quoteMark]

/-- A byte between apostrophes, as the code point of the same number. -/
def quoteByte (b : UInt8) : Text :=
  [apostrophe] ++ escapePoint apostrophe b.toNat ++ [apostrophe]

end Z80Asm.Text
