import Z80Asm.Script.Double

/-!
# Tokens of scripts

Scripts are written in a small language whose blocks are marked by indentation.  Its tokens are words, signs
and literals, and the ends of lines and the changes of indentation between them.  A token knows the place
where it starts and the place after it, by which problems are reported.
-/

namespace Z80Asm.Script

/-- A place in a script: line and column, counted from one in code points. -/
structure Mark where
  line : Nat := 1
  col : Nat := 1
  deriving Repr, DecidableEq

def Mark.after (mark : Mark) (point : Nat) : Mark :=
  if point = 0x0A then { line := mark.line + 1, col := 1 } else { mark with col := mark.col + 1 }

def Mark.skip (mark : Mark) (n : Nat) : Mark := { mark with col := mark.col + n }

def Mark.text (mark : Mark) (file : Text) : Text :=
  file ++ bytes ":" ++ Text.ofNat mark.line ++ bytes ":" ++ Text.ofNat mark.col

structure Problem where
  mark : Mark
  text : Text

def keywords : List String :=
  ["and", "break", "continue", "def", "elif", "else", "for", "if", "in", "lambda", "load", "not", "or",
   "pass", "return", "while"]

/-- The words that are kept free: they name nothing. -/
def reserved : List String :=
  ["as", "class", "del", "except", "finally", "from", "global", "import", "is", "nonlocal", "raise", "try",
   "with", "yield"]

/-- The signs of the language, the long ones first. -/
def signs : List String :=
  ["//=", "<<=", ">>=", "**", "//", "<<", ">>", "==", "!=", "<=", ">=", "+=", "-=", "*=", "/=", "%=",
   "&=", "|=", "^=", "+", "-", "*", "/", "%", "&", "|", "^", "~", "<", ">", "=", "(", ")", "[", "]",
   "\x7b", "\x7d", ",", ":", ";", "."]

inductive Tok where
  | newline | indent | outdent | finish
  | name (name : Text)
  | int (value : Nat)
  | float (value : Double)
  | str (text : Text)
  | octets (text : Text)
  | keyword (word : String)
  | sign (sign : String)
  deriving Repr, DecidableEq

def Tok.describe : Tok → Text
  | newline => bytes "newline"
  | indent => bytes "indent"
  | outdent => bytes "outdent"
  | finish => bytes "end of file"
  | name _ => bytes "identifier"
  | int _ => bytes "int literal"
  | float _ => bytes "float literal"
  | str _ => bytes "string literal"
  | octets _ => bytes "bytes literal"
  | keyword word => bytes word
  | sign s => bytes "'" ++ bytes s ++ bytes "'"

structure Placed where
  tok : Tok
  mark : Mark
  after : Mark

/-- What is left of a script, as code points, and its place. -/
structure Cursor where
  rest : List Nat
  mark : Mark := {}

namespace Cursor

/-- The next code point; zero at the end.  A zero in the script is an end as well. -/
def peek (c : Cursor) : Nat := c.rest.headD 0

def step (c : Cursor) : Cursor :=
  match c.rest with
  | [] => c
  | p :: rest => { rest, mark := c.mark.after p }

def skip (c : Cursor) (n : Nat) : Cursor := { rest := c.rest.drop n, mark := c.mark.skip n }

/-- Passes over the code points of one line that satisfy `p`. -/
def skipWhile (c : Cursor) (p : Nat → Bool) : Cursor := c.skip (c.rest.takeWhile p).length

def startsWith (c : Cursor) (s : String) : Bool := (s.toList.map Char.toNat).isPrefixOf c.rest

/-- The code points from here to a later place of the same line. -/
def upTo (c later : Cursor) : List Nat := c.rest.take (later.mark.col - c.mark.col)

end Cursor

end Z80Asm.Script
