import Z80Asm.Fault

/-!
# Expressions

Expressions over 64-bit integers that wrap around.  They are evaluated anew in each pass: `Expr.value`
always has a value, with zero for a missing symbol and for a division by zero, and `Expr.fault?` is the
first such failure, the operands of an operation before the operation itself.  True is `-1`, and both
sides of `&&` and `||` are evaluated.
-/

namespace Z80Asm

inductive UnaryOp where
  | neg | plus | bitNot | not
  deriving Repr, DecidableEq

inductive BinaryOp where
  | or | and | bitOr | bitXor | bitAnd
  | eq | ne | lt | gt | le | ge
  | shl | shr | add | sub | mul | div | mod
  deriving Repr, DecidableEq

inductive Expr where
  | num (value : Int64)
  | sym (name : Text)
  | pc
  | unary (op : UnaryOp) (x : Expr)
  | binary (op : BinaryOp) (x y : Expr)
  deriving Repr, DecidableEq

def truth (b : Bool) : Int64 := if b then -1 else 0

def UnaryOp.apply : UnaryOp → Int64 → Int64
  | neg, x => -x
  | plus, x => x
  | bitNot, x => ~~~x
  | not, x => truth (x == 0)

def BinaryOp.divides : BinaryOp → Bool
  | div | mod => true
  | _ => false

/-- The value of an operation on two values.  Division goes toward zero, and by zero gives zero; shifts
    take the low six bits of their amount. -/
def BinaryOp.apply : BinaryOp → Int64 → Int64 → Int64
  | or, x, y => truth (x != 0 || y != 0)
  | and, x, y => truth (x != 0 && y != 0)
  | bitOr, x, y => x ||| y
  | bitXor, x, y => x ^^^ y
  | bitAnd, x, y => x &&& y
  | eq, x, y => truth (x == y)
  | ne, x, y => truth (x != y)
  | lt, x, y => truth (x < y)
  | gt, x, y => truth (y < x)
  | le, x, y => truth (x ≤ y)
  | ge, x, y => truth (y ≤ x)
  | shl, x, y => x <<< (y &&& 63)
  | shr, x, y => x >>> (y &&& 63)
  | add, x, y => x + y
  | sub, x, y => x - y
  | mul, x, y => x * y
  | div, x, y => if y = 0 then 0 else x / y
  | mod, x, y => if y = 0 then 0 else x % y

structure Env where
  lookup : Text → Option Int64
  pc : Int64

namespace Expr

def value (env : Env) : Expr → Int64
  | num v => v
  | sym name => (env.lookup name).getD 0
  | pc => env.pc
  | unary op x => op.apply (x.value env)
  | binary op x y => op.apply (x.value env) (y.value env)

/-- The first failure in an expression: a missing symbol or a division by zero. -/
def fault? (env : Env) : Expr → Option Fault
  | num _ | pc => none
  | sym name => if (env.lookup name).isSome then none else some (.labelMissing name)
  | unary _ x => x.fault? env
  | binary op x y =>
    ((x.fault? env).or (y.fault? env)).or
      (if op.divides && y.value env == 0 then some (.plain .divideByZero) else none)

/-- The names in an expression, in order, with repetitions. -/
def names : Expr → List Text
  | num _ | pc => []
  | sym name => [name]
  | unary _ x => x.names
  | binary _ x y => x.names ++ y.names

end Expr

end Z80Asm
