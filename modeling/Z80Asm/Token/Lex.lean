import Z80Asm.Fault
import Z80Asm.Token
import Z80Asm.Token.Numeral

/-!
# From lines to tokens

`lex` splits a line into tokens.  It goes through the line byte by byte: where a token starts, its
scanner gives the lexeme and how many further bytes belong to it, and these are passed over.  A
lexical fault does not stop it: the first one is kept next to all tokens.
-/

namespace Z80Asm

namespace Lex

/-! ## Byte classes -/

def isBlank (b : UInt8) : Bool :=
  b == ' '.toUInt8 || b == 0x09 || b == 0x0D || b == 0x0C || b == 0x0B

def isDigit (b : UInt8) : Bool := '0'.toUInt8 ≤ b && b ≤ '9'.toUInt8

def isLetter (b : UInt8) : Bool :=
  ('a'.toUInt8 ≤ b && b ≤ 'z'.toUInt8) || ('A'.toUInt8 ≤ b && b ≤ 'Z'.toUInt8)

def isAlnum (b : UInt8) : Bool := isDigit b || isLetter b

def isWordStart (b : UInt8) : Bool :=
  isLetter b || b == '_'.toUInt8 || b == '.'.toUInt8 || b == '?'.toUInt8 || b == '@'.toUInt8

def isWordByte (b : UInt8) : Bool := isWordStart b || isDigit b

/-! ## Scanners -/

/-- What a scanner finds: a lexeme (none for a byte that starts nothing), the number of bytes after
    the first that belong to it, and what is wrong with it. -/
structure Scanned where
  lexeme : Option Lexeme
  more : Nat
  fault : Option Fault := none

/-- The next run of letters and digits after blanks, if `accept` takes it and no word goes on behind
    it; with the number of bytes up to its end. -/
def group? (accept : Text → Bool) (t : Text) : Option (Text × Nat) :=
  let blanks := t.takeWhile isBlank
  let after := t.dropWhile isBlank
  let word := after.takeWhile isAlnum
  if blanks.isEmpty || word.isEmpty || (after.dropWhile isAlnum).head?.any isWordByte then none
  else if accept word then some (word, blanks.length + word.length)
  else none

/-- The groups that follow, up to one that is the `last`; with the number of bytes up to their end.
    `fuel` bounds their number; the length of the text is enough. -/
def groups (accept last : Text → Bool) : Nat → Text → List Text × Nat
  | 0, _ => ([], 0)
  | fuel + 1, t =>
    match group? accept t with
    | none => ([], 0)
    | some (word, n) =>
      if last word then ([word], n)
      else
        let (words, m) := groups accept last fuel (t.drop n)
        (word :: words, n + m)

def isSuffixed (word : Text) : Bool :=
  (word.getLast?.map Text.lowerByte) == some 'h'.toUInt8 && Numeral.isDigits 16 word.dropLast

/-- Joins the digit groups of a hexadecimal number whose first group is `word`: `0x AA BB`, or
    `0AA BBh`, which ends with its letter.  There is none unless a group follows and the whole is
    hexadecimal. -/
def hexGroups? (word after : Text) : Option (Text × Nat) :=
  let radix := Numeral.radixLetter? word == some 'x'.toUInt8
  let fits :=
    if radix then word.length = 2 || Numeral.isDigits 16 (word.drop 2) else Numeral.isDigits 16 word
  if !fits then none
  else
    let accept := fun w => Numeral.isDigits 16 w || (!radix && isSuffixed w)
    let last := fun w => !Numeral.isDigits 16 w
    let (words, n) := groups accept last after.length after
    if words.isEmpty || (!radix && !words.any last) then none
    else some (word ++ words.flatten, n)

def spacedFault (dialect : Dialect) (spaced : Bool) (span : Text) : Option Fault :=
  if spaced && dialect == .native then some (.about .numberSpace span) else none

/-- A number that starts with a decimal digit.  Digit groups that follow after blanks belong to it. -/
def number (dialect : Dialect) (t : Text) : Scanned :=
  let word := t.takeWhile isAlnum
  let after := t.dropWhile isAlnum
  let (text, n) := match hexGroups? word after with
    | some joined => joined
    | none =>
      let (words, n) := groups (fun w => w.head?.any isDigit) (fun _ => false) after.length after
      (word ++ words.flatten, n)
  let spaced := spacedFault dialect (n != 0) (t.take (word.length + n))
  let more := word.length + n - 1
  match Numeral.value? text with
  | some value => { lexeme := some (.number text value), more, fault := spaced }
  | none =>
    { lexeme := some (.number text 0), more, fault := spaced.or (some (.about .numberInvalid text)) }

/-- The end of a number with a sign in front: `t` starts with the sign, and the digits found so far end
    `size` bytes from there.  Digit groups that follow after blanks belong to it. -/
def signedEnd (dialect : Dialect) (radix : Nat) (t digits : Text) (size : Nat) (spaced : Bool) :
    Scanned :=
  let after := t.drop size
  let (words, n) := groups (Numeral.isDigits radix) (fun _ => false) after.length after
  let digits := digits ++ words.flatten
  let span := t.take (size + n)
  let spaced := spacedFault dialect (spaced || n != 0) span
  let more := size + n - 1
  match Numeral.read? radix digits with
  | some value => { lexeme := some (.number span value), more, fault := spaced }
  | none =>
    { lexeme := some (.number span 0), more, fault := spaced.or (some (.about .numberInvalid digits)) }

/-- A number with a sign of length `size` in front.  `$` and `#` are no such sign unless hexadecimal
    digits follow directly; the others may have blanks before the digits, but no wrong digits. -/
def signedNumber? (dialect : Dialect) (radix size : Nat) (t : Text) : Option Scanned :=
  let hexSign := t.head? == some '$'.toUInt8 || t.head? == some '#'.toUInt8
  let body := t.drop size
  let word := body.takeWhile isAlnum
  if word.isEmpty then
    if hexSign then none
    else match group? (Numeral.isDigits radix) body with
      | some (digits, n) => some (signedEnd dialect radix t digits (size + n) true)
      | none => none
  else if Numeral.isDigits radix word then
    some (signedEnd dialect radix t word (size + word.length) false)
  else if hexSign then none
  else
    let span := t.take (size + word.length)
    some
      { lexeme := some (.number span 0), more := size + word.length - 1
        fault := some (.about .numberInvalid span) }

/-- A word.  The apostrophe of `af'` belongs to it. -/
def word (t : Text) : Scanned :=
  let text := t.takeWhile isWordByte
  let next := (t.dropWhile isWordByte).head?
  let text :=
    if Text.lower text == bytes "af" && next == some Text.apostrophe then
      text ++ [Text.apostrophe]
    else text
  { lexeme := some (.word text (.ofWord text)), more := text.length - 1 }

def escape? (b : UInt8) : Option UInt8 :=
  if b = 'n'.toUInt8 then some 0x0A
  else if b = 'r'.toUInt8 then some 0x0D
  else if b = 't'.toUInt8 then some 0x09
  else if b = '0'.toUInt8 then some 0x00
  else if b = Text.backslash || b = Text.quoteMark || b = Text.apostrophe then some b
  else if b = 'a'.toUInt8 then some 0x07
  else if b = 'b'.toUInt8 then some 0x08
  else if b = 'e'.toUInt8 then some 0x1B
  else if b = 'f'.toUInt8 then some 0x0C
  else if b = 'v'.toUInt8 then some 0x0B
  else none

/-- The inside of a string: its contents, the bytes it takes with its closing quote, and whether that
    is there. -/
structure Inside where
  text : Text
  size : Nat
  closed : Bool

/-- One more byte of contents in front, written with `size` bytes. -/
def Inside.cons (b : UInt8) (size : Nat) (s : Inside) : Inside :=
  { s with text := b :: s.text, size := s.size + size }

/-- The end of a line inside a string. -/
def Inside.open : Inside := { text := [], size := 0, closed := false }

def Inside.close : Inside := { text := [], size := 1, closed := true }

/-- The inside of a string in double quotes.  A backslash that no known letter follows is itself. -/
def quoted : Text → Inside
  | [] => .open
  | [b] => if b = Text.quoteMark then .close else Inside.open.cons b 1
  | b :: e :: rest =>
    if b = Text.quoteMark then .close
    else match if b = Text.backslash then escape? e else none with
      | some v => (quoted rest).cons v 2
      | none => (quoted (e :: rest)).cons b 1

/-- The inside of a string in apostrophes.  A doubled apostrophe stands for one. -/
def apostrophed : Text → Inside
  | [] => .open
  | [b] => if b = Text.apostrophe then .close else Inside.open.cons b 1
  | b :: e :: rest =>
    if b = Text.apostrophe then
      if e = Text.apostrophe then (apostrophed rest).cons b 2 else .close
    else (apostrophed (e :: rest)).cons b 1

def string (s : Inside) : Scanned :=
  { lexeme := some (.string s.text), more := s.size
    fault := if s.closed then none else some (.plain .stringLonely) }

def sign (t : Text) : Scanned :=
  match Sign.first? t with
  | some s => { lexeme := some (.sign s), more := s.text.length - 1 }
  | none =>
    { lexeme := none, more := 0
      fault := some (.about .character (Text.quoteByte (t.head?.getD 0))) }

/-! ## Where operands start -/

/-- The tokens are an optional label and one name, given last token first. -/
def isMacroHead : List Token → Bool
  | [] => false
  | last :: before =>
    last.isName && match before with
      | [] => true
      | [label] => label.isName && label.col == 1
      | [colon, label] => label.isName && colon.isSign .colon
      | _ => false

/-- A new operand may start after the tokens before it, given last token first, so that `%` and `&` can
    be the sign of a number.  After a name they are so only for the first argument of a macro: after
    blanks and directly before a binary digit. -/
def operandStart (before : List Token) (space : Bool) (next : Option UInt8) : Bool :=
  match before with
  | [] => true
  | last :: _ =>
    match last.lexeme with
    | .sign s => s != .closeParen && s != .closeBracket && s != .dollar
    | .word _ (.mnemonic _) | .word _ (.directive _) => true
    | .word _ .name | .number _ _ | .string _ =>
      space && (next == some '0'.toUInt8 || next == some '1'.toUInt8) && isMacroHead before

/-! ## The line -/

/-- The tokens so far, last token first, whether blanks came after them, and the first fault. -/
structure State where
  before : List Token := []
  space : Bool := false
  fault : Option Fault := none

def State.accept (st : State) (col : Nat) (s : Scanned) : State :=
  let fault := st.fault.or s.fault
  match s.lexeme with
  | some lexeme =>
    { before := { lexeme, col, space := st.space } :: st.before, space := false, fault }
  | none => { st with fault }

/-- The scanner of the token that starts with byte `b`, which is neither a blank nor a comment. -/
def scanAt (dialect : Dialect) (st : State) (b : UInt8) (rest : Text) : Scanned :=
  let t := b :: rest
  if isDigit b then number dialect t
  else if isWordStart b then word t
  else if b = Text.quoteMark then string (quoted rest)
  else if b = Text.apostrophe then string (apostrophed rest)
  else
    let found := match Numeral.signRadix? (operandStart st.before st.space rest.head?) t with
      | some (radix, size) => signedNumber? dialect radix size t
      | none => none
    found.getD (sign t)

/-- Goes on at byte `col` of the line, after passing over `skip` bytes.  A semicolon starts a comment
    to the end of the line. -/
def run (dialect : Dialect) (st : State) (col : Nat) : Nat → Text → State
  | _, [] => st
  | skip + 1, _ :: rest => run dialect st (col + 1) skip rest
  | 0, b :: rest =>
    if isBlank b then run dialect { st with space := true } (col + 1) 0 rest
    else if b = ';'.toUInt8 then st
    else
      let s := scanAt dialect st b rest
      run dialect (st.accept col s) (col + 1) s.more rest

structure Lexed where
  tokens : List Token
  fault : Option Fault

end Lex

def lex (dialect : Dialect) (line : Text) : Lex.Lexed :=
  let st := Lex.run dialect {} 1 0 line
  { tokens := st.before.reverse, fault := st.fault }

end Z80Asm
