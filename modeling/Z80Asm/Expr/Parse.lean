import Z80Asm.Expr
import Z80Asm.Token

/-!
# From tokens to expressions

Binary operations have ten levels of precedence, all of them associating to the left; a level is a
chain of operands of the next one.  Below them are signs in front of an operand, brackets of either
kind, numbers, short strings, words and `$`.

A failure keeps what had been read as a whole before it (`Failure.read`): the head of a conditional
block goes on with it.
-/

namespace Z80Asm

/-- A failure to read an expression, with the expression read so far. -/
structure Failure where
  fault : Fault
  read : Option Expr := none

namespace Parse

/-- A reader of expressions: what it read and the tokens after it. -/
abbrev Reader := List Token → Except Failure (Expr × List Token)

def levels : List (List (Sign × BinaryOp)) :=
  [[(.orOr, .or)],
   [(.andAnd, .and)],
   [(.bar, .bitOr)],
   [(.caret, .bitXor)],
   [(.amp, .bitAnd)],
   [(.eqEq, .eq), (.eq, .eq), (.bangEq, .ne), (.ltGt, .ne)],
   [(.lt, .lt), (.gt, .gt), (.ltEq, .le), (.gtEq, .ge)],
   [(.ltLt, .shl), (.gtGt, .shr)],
   [(.plus, .add), (.minus, .sub)],
   [(.star, .mul), (.slash, .div), (.percent, .mod)]]

def operation? (level : List (Sign × BinaryOp)) (tok : Token) : Option BinaryOp :=
  match tok.lexeme with
  | .sign s => level.lookup s
  | _ => none

def signOperation? : Sign → Option UnaryOp
  | .minus => some .neg
  | .plus => some .plus
  | .tilde => some .bitNot
  | .bang => some .not
  | _ => none

/-- The rest of a chain after its operand `e`.  `fuel` bounds its length; the number of tokens is
    enough. -/
def chainRest (level : List (Sign × BinaryOp)) (operand : Reader) :
    Nat → Expr → List Token → Except Failure (Expr × List Token)
  | 0, e, toks => .ok (e, toks)
  | fuel + 1, e, toks =>
    match toks with
    | [] => .ok (e, [])
    | tok :: rest =>
      match operation? level tok with
      | none => .ok (e, tok :: rest)
      | some op =>
        match operand rest with
        | .error failure => .error { failure with read := some e }
        | .ok (y, rest) => chainRest level operand fuel (.binary op e y) rest

def chain (level : List (Sign × BinaryOp)) (operand : Reader) : Reader := fun toks =>
  match operand toks with
  | .error failure => .error failure
  | .ok (e, rest) => chainRest level operand rest.length e rest

def chains (operand : Reader) : Reader := levels.foldr chain operand

/-- The value of a string: its bytes, the first one highest.  It has at most four, and none only in the
    Compass dialect. -/
def stringValue (dialect : Dialect) (text : Text) : Except Fault Int64 :=
  if text.isEmpty && dialect == .native then .error (.plain .stringEmpty)
  else if text.length > 4 then .error (.about .stringLong (Text.quote text))
  else .ok (text.foldl (fun v b => v <<< 8 ||| b.toUInt64.toInt64) 0)

/-- An operand with at most `depth` signs and brackets around it. -/
def operand (dialect : Dialect) : Nat → Reader
  | _, [] => .error { fault := .plain .expression }
  | depth, tok :: rest =>
    match tok.lexeme with
    | .number _ value => .ok (.num value, rest)
    | .string text =>
      match stringValue dialect text with
      | .ok value => .ok (.num value, rest)
      | .error fault => .error { fault, read := some (.num 0) }
    | .word name _ => .ok (.sym name, rest)
    | .sign s =>
      if s = .dollar then .ok (.pc, rest)
      else match depth, signOperation? s, s.closer? with
        | depth + 1, some op, _ =>
          match operand dialect depth rest with
          | .error failure => .error { failure with read := none }
          | .ok (x, rest) => .ok (.unary op x, rest)
        | depth + 1, none, some closer =>
          match chains (operand dialect depth) rest with
          | .error failure => .error failure
          | .ok (e, closing :: rest) =>
            if closing.isSign closer then .ok (e, rest)
            else .error { fault := .plain .parenthesis, read := some e }
          | .ok (e, []) => .error { fault := .plain .parenthesis, read := some e }
        | _, _, _ => .error { fault := .about .expression s.text }

end Parse

def Expr.parse (dialect : Dialect) (toks : List Token) : Except Failure Expr :=
  if toks.isEmpty then .error { fault := .plain .operandsMissing }
  else match Parse.chains (Parse.operand dialect toks.length) toks with
    | .error failure => .error failure
    | .ok (e, []) => .ok e
    | .ok (_, rest) => .error { fault := .about .expression (Token.renderAll rest) }

end Z80Asm
