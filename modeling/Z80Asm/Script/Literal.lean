import Z80Asm.Script.Token
import Z80Asm.Text.Quoted
import Z80Asm.Token.Numeral

/-!
# Literals of scripts

Numbers and strings.  A string stands between single or triple quotes; `r` in front makes a backslash stand
for itself and `b` makes the literal one of bytes.  Outside of bytes an escape stands for a code point, so
that those by number go no further than ASCII.
-/

namespace Z80Asm.Script.Literal

/-! ## Numbers -/

def isDigit (p : Nat) : Bool := 0x30 ≤ p && p ≤ 0x39

def isDigitOf (radix p : Nat) : Bool := p < 0x80 && Numeral.isDigitOf radix p.toUInt8

def ofDigits (radix : Nat) (ps : List Nat) : Nat := Numeral.ofDigits radix (ps.map Nat.toUInt8)

/-- The radix that a letter after a zero stands for, and the name of its literals. -/
def radix? (p : Nat) : Option (Nat × String) :=
  if p = 'x'.toNat || p = 'X'.toNat then some (16, "hex")
  else if p = 'o'.toNat || p = 'O'.toNat then some (8, "octal")
  else if p = 'b'.toNat || p = 'B'.toNat then some (2, "binary")
  else none

def isExponent (p : Nat) : Bool := p = 'e'.toNat || p = 'E'.toNat

def problem {α : Type} (mark : Mark) (text : String) : Except Problem α :=
  .error { mark, text := bytes text }

/-- The number with a fraction that digits, with a point and an exponent perhaps, stand for.  It is
infinite if it is too large. -/
def float? (ps : List Nat) : Option Double :=
  let significand := ps.takeWhile fun p => !isExponent p
  let whole := significand.takeWhile isDigit
  let part := significand.drop (whole.length + 1)
  let power := ps.drop significand.length
  let digits := (power.drop 1).filter isDigit
  if !power.isEmpty && digits.isEmpty then none
  else
    let size : Int := ofDigits 10 digits
    let exponent := if power.contains '-'.toNat then -size else size
    let mantissa := ofDigits 10 (whole ++ part)
    -- A huge exponent decides the result by itself.
    if exponent - part.length + (whole ++ part).length > 400 && mantissa != 0 then
      some (Double.infinite false)
    else if exponent - part.length + (whole ++ part).length < -400 then some (Double.zero false)
    else some (Double.ofDecimal false mantissa (exponent - part.length))

/-- The end of a number with a fraction or an exponent; the whole digits are passed over already. -/
def floatEnd (c : Cursor) : Except Problem Cursor := do
  let c := if c.peek = '.'.toNat then (c.skip 1).skipWhile isDigit else c
  if isExponent c.peek then
    let c := c.skip 1
    if c.peek = '+'.toNat || c.peek = '-'.toNat then
      let c := c.skip 1
      if isDigit c.peek then return c.skipWhile isDigit else problem c.mark "invalid float literal"
    else return c.skipWhile isDigit
  else return c

/-- A number with a fraction or an exponent that starts at `start`; its whole digits go up to `c`. -/
def float (start c : Cursor) : Except Problem (Tok × Cursor) := do
  let after ← floatEnd c
  match (float? (start.upTo after)).filter Double.isFinite with
  | some value => return (.float value, after)
  | none => problem after.mark "invalid float literal"

/-- Integers with a radix of eight or two have to fit in 63 bits. -/
def integerBound : Nat := 1 <<< 63

def withRadix (start : Cursor) (radix : Nat) (name : String) : Except Problem (Tok × Cursor) :=
  let c := start.skip 2
  if !isDigitOf radix c.peek then
    problem (if radix = 16 then start.mark else c.mark) ("invalid " ++ name ++ " literal")
  else
    let after := c.skipWhile (isDigitOf radix)
    let value := ofDigits radix (c.upTo after)
    if radix != 16 && value ≥ integerBound then problem start.mark "invalid int literal"
    else .ok (.int value, after)

/-- A decimal integer or a number with a fraction.  An integer has no zeros in front, unless it is zero. -/
def decimal (start : Cursor) : Except Problem (Tok × Cursor) :=
  let after := start.skipWhile isDigit
  if after.peek = '.'.toNat || isExponent after.peek then float start after
  else
    let digits := start.upTo after
    if start.peek = '0'.toNat && digits.any (· != '0'.toNat) then
      if digits.all (isDigitOf 8) then
        .error {
          mark := after.mark
          text := bytes "obsolete form of octal literal; use 0o" ++ (digits.drop 1).map Nat.toUInt8 }
      else problem start.mark "invalid int literal"
    else .ok (.int (ofDigits 10 digits), after)

def number (start : Cursor) : Except Problem (Tok × Cursor) :=
  if start.peek = '.'.toNat then
    if isDigit (start.skip 1).peek then float start start else .ok (.sign ".", start.skip 1)
  else match if start.peek = '0'.toNat then radix? (start.skip 1).peek else none with
    | some (radix, name) => withRadix start radix name
    | none => decimal start

/-! ## Strings -/

/-- The code points up to the closing quote, and what follows it. -/
def single (quote : Nat) : Mark → List Nat → Except String (List Nat × Cursor)
  | _, [] => .error "unexpected EOF in string"
  | mark, p :: rest =>
    if p = quote then .ok ([], { rest, mark := mark.after p })
    else if p = 0x0A then .error "unexpected newline in string"
    else if p = Text.backslash.toNat then
      match rest with
      | [] => .error "unexpected EOF in string"
      | e :: rest => (single quote ((mark.after p).after e) rest).map fun (ps, c) => (p :: e :: ps, c)
    else (single quote (mark.after p) rest).map fun (ps, c) => (p :: ps, c)

/-- The code points up to the third of three quotes in a row, without it, and what follows it; `seen` is the
number of quotes just before. -/
def triple (quote : Nat) : Nat → Mark → List Nat → Except String (List Nat × Cursor)
  | _, _, [] => .error "unexpected EOF in string"
  | seen, mark, p :: rest =>
    if p = quote then
      if seen = 2 then .ok ([], { rest, mark := mark.after p })
      else (triple quote (seen + 1) (mark.after p) rest).map fun (ps, c) => (p :: ps, c)
    else if p = Text.backslash.toNat then
      match rest with
      | [] => .error "unexpected EOF in string"
      | e :: rest => (triple quote 0 ((mark.after p).after e) rest).map fun (ps, c) => (p :: e :: ps, c)
    else (triple quote 0 (mark.after p) rest).map fun (ps, c) => (p :: ps, c)

def letter? (b : UInt8) : Option UInt8 :=
  if b = Text.backslash || b = Text.apostrophe || b = Text.quoteMark then some b
  else (List.range 14).findSome? fun p => if Text.controlLetter? p == some b then some p.toUInt8 else none

def octalText (n : Nat) : Text := (Nat.toDigits 8 n).map Char.toUInt8

/-- The number of a code point, as it is written after `\u` or `U+`. -/
def pointText (n : Nat) : Text := Text.hex 4 n

def nonAscii (kind : String) (escape : Text) (n : Nat) : Text :=
  bytes "non-ASCII " ++ bytes kind ++ bytes " escape " ++ escape ++ bytes " (use \\u" ++ pointText n
    ++ bytes " for the UTF-8 encoding of U+" ++ pointText n ++ bytes ")"

def octalEscape (isBytes : Bool) (t : Text) : Except Text (Text × Nat) :=
  let digits := (t.take 3).takeWhile (Numeral.isDigitOf 8)
  let n := Numeral.ofDigits 8 digits
  if !isBytes && n > 127 then .error (nonAscii "octal" (bytes "\\" ++ octalText n) n)
  else if n ≥ 256 then .error (bytes "invalid escape sequence \\" ++ octalText n)
  else .ok ([n.toUInt8], digits.length)

def hexEscape (isBytes : Bool) (t : Text) : Except Text (Text × Nat) :=
  let escape := bytes "\\" ++ t.take 3
  let n := Numeral.ofDigits 16 ((t.take 3).drop 1)
  if t.length < 3 then .error (bytes "truncated escape sequence \\" ++ t)
  else if !Numeral.isDigits 16 ((t.take 3).drop 1) then .error (bytes "invalid escape sequence " ++ escape)
  else if !isBytes && n > 127 then .error (nonAscii "hex" escape n)
  else .ok ([n.toUInt8], 3)

/-- An escape of `size` hexadecimal digits after a letter: a code point. -/
def pointEscape (size : Nat) (t : Text) : Except Text (Text × Nat) :=
  let escape := bytes "\\" ++ t.take (size + 1)
  let n := Numeral.ofDigits 16 ((t.take (size + 1)).drop 1)
  if t.length < size + 1 then .error (bytes "truncated escape sequence \\" ++ t)
  else if !Numeral.isDigits 16 ((t.take (size + 1)).drop 1) then
    .error (bytes "invalid escape sequence " ++ escape)
  else if n > 0x10FFFF then
    .error (bytes "code point out of range: " ++ escape ++ bytes " (max \\U" ++ Text.lowerHex 8 n ++ bytes ")")
  else if 0xD800 ≤ n && n < 0xE000 then .error (bytes "invalid Unicode code point U+" ++ pointText n)
  else .ok (Text.ofPoint n, size + 1)

/-- The bytes of an escape and its size, given what follows the backslash. -/
def escape (isBytes : Bool) (t : Text) : Except Text (Text × Nat) :=
  match t with
  | [] => .error (bytes "truncated escape sequence \\")
  | e :: _ =>
    if e = 0x0A then .ok ([], 1)
    else match letter? e with
      | some b => .ok ([b], 1)
      | none =>
        if Numeral.isDigitOf 8 e then octalEscape isBytes t
        else if e = 'x'.toUInt8 then hexEscape isBytes t
        else if e = 'u'.toUInt8 then pointEscape 4 t
        else if e = 'U'.toUInt8 then pointEscape 8 t
        else .error (bytes "invalid escape sequence \\" ++ Text.ofPoint e.toNat)

/-- The bytes that the inside of a literal stands for, after the first `skip` of its bytes. -/
def unescape (isBytes : Bool) : Nat → Text → Except Text Text
  | _, [] => .ok []
  | skip + 1, _ :: rest => unescape isBytes skip rest
  | 0, b :: rest =>
    if b = Text.backslash then do
      let (value, size) ← escape isBytes rest
      return value ++ (← unescape isBytes size rest)
    else (unescape isBytes 0 rest).map (b :: ·)

/-- A string literal with `size` letters in front of its quote. -/
def string (start : Cursor) (size : Nat) : Except Problem (Tok × Cursor) := do
  let letters := start.rest.take size
  let c := start.skip size
  let quote := c.peek
  let isTriple := c.rest.take 3 = [quote, quote, quote]
  let inside := if isTriple then triple quote 0 (c.skip 3).mark (c.skip 3).rest
    else single quote (c.skip 1).mark (c.skip 1).rest
  let (ps, after) ← inside.mapError fun text => { mark := start.mark, text := bytes text : Problem }
  let ps := if isTriple then ps.take (ps.length - 2) else ps
  let t := ps.flatMap Text.ofPoint
  let isBytes := letters.contains 'b'.toNat
  let value ← if letters.contains 'r'.toNat then pure t
    else (unescape isBytes 0 t).mapError fun text => { mark := c.mark, text : Problem }
  return (if isBytes then .octets value else .str value, after)

end Z80Asm.Script.Literal
