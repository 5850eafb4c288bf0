import Z80Asm.Cpu.Mnemonic
import Z80Asm.Text.Quoted

/-!
# Tokens

A source line is a list of tokens: words, numbers, strings and signs.  A word has a role, which it
keeps where a macro carries it to another place: it names an instruction, a directive, or something of
the program.
-/

namespace Z80Asm

inductive Dialect where
  | native
  /-- Compatible with the Compass assembler: `@` words, `macro name`, `cond`, blanks in numbers. -/
  | compass
  deriving Repr, DecidableEq

inductive Width where
  | byte | word | dword
  deriving Repr, DecidableEq

def Width.size : Width → Nat
  | byte => 1
  | word => 2
  | dword => 4

inductive Directive where
  | org | equ | defl
  | data (width : Width)
  | space
  | align | incbin
  | insert
  | finish
  | assert
  | message
  | ifTrue | cond | ifdef | ifndef
  | otherwise
  | endif | endc
  | rept | endr
  | define
  | endm
  | script | endscript
  deriving Repr, DecidableEq

namespace Directive

def words : List (Text × Directive) :=
  [(bytes "org", org), (bytes "equ", equ), (bytes "defl", defl),
   (bytes "db", data .byte), (bytes "defb", data .byte), (bytes "byte", data .byte),
   (bytes "dm", data .byte), (bytes "defm", data .byte),
   (bytes "dw", data .word), (bytes "defw", data .word), (bytes "word", data .word),
   (bytes "dd", data .dword), (bytes "dword", data .dword),
   (bytes "ds", space), (bytes "defs", space), (bytes "block", space),
   (bytes "align", align), (bytes "incbin", incbin), (bytes "include", insert),
   (bytes "end", finish), (bytes "assert", assert), (bytes "error", message),
   (bytes "if", ifTrue), (bytes "cond", cond), (bytes "ifdef", ifdef), (bytes "ifndef", ifndef),
   (bytes "else", otherwise), (bytes "endif", endif), (bytes "endc", endc),
   (bytes "rept", rept), (bytes "dup", rept), (bytes "endr", endr), (bytes "edup", endr),
   (bytes "macro", define), (bytes "endm", endm),
   (bytes "script", script), (bytes "endscript", endscript)]

def ofWord? (word : Text) : Option Directive := words.lookup (Text.lower word)

def name (d : Directive) : Text :=
  match words.find? (·.2 == d) with
  | some (word, _) => word
  | none => []

end Directive

inductive Sign where
  | orOr | andAnd | eqEq | bangEq | ltGt | ltEq | gtEq | ltLt | gtGt
  | bar | caret | amp | eq | lt | gt | plus | minus | star | slash | percent | tilde | bang
  | openParen | closeParen | openBracket | closeBracket | comma | colon | dollar
  deriving Repr, DecidableEq

namespace Sign

/-- All signs, the long ones first: the first that fits is the longest. -/
def all : List Sign :=
  [orOr, andAnd, eqEq, bangEq, ltGt, ltEq, gtEq, ltLt, gtGt,
   bar, caret, amp, eq, lt, gt, plus, minus, star, slash, percent, tilde, bang,
   openParen, closeParen, openBracket, closeBracket, comma, colon, dollar]

def text : Sign → Text
  | orOr => bytes "||"
  | andAnd => bytes "&&"
  | eqEq => bytes "=="
  | bangEq => bytes "!="
  | ltGt => bytes "<>"
  | ltEq => bytes "<="
  | gtEq => bytes ">="
  | ltLt => bytes "<<"
  | gtGt => bytes ">>"
  | bar => bytes "|"
  | caret => bytes "^"
  | amp => bytes "&"
  | eq => bytes "="
  | lt => bytes "<"
  | gt => bytes ">"
  | plus => bytes "+"
  | minus => bytes "-"
  | star => bytes "*"
  | slash => bytes "/"
  | percent => bytes "%"
  | tilde => bytes "~"
  | bang => bytes "!"
  | openParen => bytes "("
  | closeParen => bytes ")"
  | openBracket => bytes "["
  | closeBracket => bytes "]"
  | comma => bytes ","
  | colon => bytes ":"
  | dollar => bytes "$"

def first? (t : Text) : Option Sign := all.find? (·.text.isPrefixOf t)

def isOpen : Sign → Bool
  | openParen | openBracket => true
  | _ => false

def isClose : Sign → Bool
  | closeParen | closeBracket => true
  | _ => false

def closer? : Sign → Option Sign
  | openParen => some closeParen
  | openBracket => some closeBracket
  | _ => none

end Sign

inductive Role where
  /-- Something of the program: a label, a macro, a register. -/
  | name
  | mnemonic (mnemonic : Cpu.Mnemonic)
  | directive (directive : Directive)
  deriving Repr, DecidableEq

def Role.ofWord (word : Text) : Role :=
  match Cpu.Mnemonic.ofWord? word with
  | some m => .mnemonic m
  | none =>
    match Directive.ofWord? word with
    | some d => .directive d
    | none => .name

inductive Lexeme where
  | word (text : Text) (role : Role)
  | number (text : Text) (value : Int64)
  /-- The contents of a string, without quotes and escapes. -/
  | string (text : Text)
  | sign (sign : Sign)
  deriving Repr, DecidableEq

structure Token where
  lexeme : Lexeme
  /-- The place of its first byte in the line, counted from one. -/
  col : Nat
  space : Bool
  deriving Repr, DecidableEq

namespace Token

def kindNames : List String := ["ident", "mnemonic", "directive", "number", "string", "operator"]

def kind (tok : Token) : String :=
  match tok.lexeme with
  | .word _ .name => "ident"
  | .word _ (.mnemonic _) => "mnemonic"
  | .word _ (.directive _) => "directive"
  | .number _ _ => "number"
  | .string _ => "string"
  | .sign _ => "operator"

def text (tok : Token) : Text :=
  match tok.lexeme with
  | .word text _ | .number text _ | .string text => text
  | .sign s => s.text

/-- The value of a number; zero for other tokens. -/
def value (tok : Token) : Int64 :=
  match tok.lexeme with
  | .number _ value => value
  | _ => 0

/-- A token in source form: numbers in decimal, strings in quotes. -/
def render (tok : Token) : Text :=
  match tok.lexeme with
  | .word text _ => text
  | .number _ value => Text.ofInt value.toInt
  | .string text => Text.quote text
  | .sign s => s.text

def word? (tok : Token) : Option Text :=
  match tok.lexeme with
  | .word text _ => some text
  | _ => none

def isWord (tok : Token) : Bool := tok.word?.isSome

def isName (tok : Token) : Bool :=
  match tok.lexeme with
  | .word _ .name => true
  | _ => false

def isDirective (tok : Token) (d : Directive) : Bool :=
  match tok.lexeme with
  | .word _ (.directive d') => d' == d
  | _ => false

def isSign (tok : Token) (s : Sign) : Bool := tok.lexeme == .sign s

def string? (tok : Token) : Option Text :=
  match tok.lexeme with
  | .string text => some text
  | _ => none

def isOpen (tok : Token) : Bool :=
  match tok.lexeme with
  | .sign s => s.isOpen
  | _ => false

def isClose (tok : Token) : Bool :=
  match tok.lexeme with
  | .sign s => s.isClose
  | _ => false

/-- Tokens in source form after others: a blank where blanks were. -/
def renderRest : List Token → Text
  | [] => []
  | tok :: rest => (if tok.space then bytes " " else []) ++ tok.render ++ renderRest rest

def renderAll : List Token → Text
  | [] => []
  | tok :: rest => tok.render ++ renderRest rest

end Token

end Z80Asm
