import Z80Asm.Script.Token

/-!
# Syntax of scripts

The trees that scripts are read into.  Whatever a problem may be reported of carries its place.
-/

namespace Z80Asm.Script

inductive Unary where
  | neg | plus | invert | not
  deriving Repr, DecidableEq

inductive Binary where
  | add | sub | mul | div | floorDiv | mod | shl | shr | bitAnd | bitOr | bitXor
  | eq | ne | lt | le | gt | ge | isIn | notIn
  deriving Repr, DecidableEq

def Binary.text : Binary → String
  | add => "+"
  | sub => "-"
  | mul => "*"
  | div => "/"
  | floorDiv => "//"
  | mod => "%"
  | shl => "<<"
  | shr => ">>"
  | bitAnd => "&"
  | bitOr => "|"
  | bitXor => "^"
  | eq => "=="
  | ne => "!="
  | lt => "<"
  | le => "<="
  | gt => ">"
  | ge => ">="
  | isIn => "in"
  | notIn => "not in"

def Unary.text : Unary → String
  | neg => "-"
  | plus => "+"
  | invert => "~"
  | not => "not"

inductive Constant where
  | int (value : Nat)
  | float (value : Double)
  | str (text : Text)
  | octets (text : Text)
  deriving Repr, DecidableEq

structure Ident where
  name : Text
  mark : Mark
  deriving Repr, DecidableEq

mutual

inductive Term where
  | constant (value : Constant) (mark : Mark)
  | name (id : Ident)
  | paren (mark : Mark) (x : Term)
  /-- A tuple; only the empty one has parentheses of its own. -/
  | tuple (mark : Mark) (items : List Term)
  | list (mark : Mark) (items : List Term)
  | dict (mark : Mark) (entries : List Entry)
  | madeList (mark : Mark) (body : Term) (clauses : List Clause)
  | madeDict (mark : Mark) (body : Entry) (clauses : List Clause)
  | unary (op : Unary) (mark : Mark) (x : Term)
  | binary (op : Binary) (x y : Term)
  | and (x y : Term)
  | or (x y : Term)
  | ifElse (condition yes no : Term)
  | dot (x : Term) (field : Text)
  | index (x i : Term)
  | slice (x : Term) (low high step : Option Term)
  | call (f : Term) (args : List Argument)
  | lambda (mark : Mark) (params : List Param) (body : Term)

inductive Entry where
  | mk (key value : Term)

inductive Argument where
  | plain (value : Term)
  | named (id : Ident) (value : Term)
  | spread (mark : Mark) (value : Term)
  | spreadNamed (mark : Mark) (value : Term)

inductive Clause where
  | loop (target source : Term)
  | filter (condition : Term)

inductive Param where
  | required (id : Ident)
  /-- A parameter with a default; `mark` is the place of its sign. -/
  | optional (id : Ident) (mark : Mark) (value : Term)
  | rest (mark : Mark) (id : Option Ident)
  | restNamed (mark : Mark) (id : Ident)

end

inductive Stmt where
  | value (value : Term)
  | assign (target value : Term)
  | change (op : Binary) (target value : Term)
  | define (id : Ident) (params : List Param) (body : List Stmt)
  | give (mark : Mark) (value : Option Term)
  | loop (mark : Mark) (target source : Term) (body : List Stmt)
  | again (mark : Mark) (condition : Term) (body : List Stmt)
  | choose (mark : Mark) (condition : Term) (yes no : List Stmt)
  | pass
  | leave (mark : Mark)
  | next (mark : Mark)
  /-- Names taken from another module: how each is called here and there. -/
  | load (mark : Mark) (names : List (Ident × Ident))

def Term.start : Term → Mark
  | constant _ mark => mark
  | name id => id.mark
  | paren mark _ => mark
  | tuple mark _ => mark
  | list mark _ => mark
  | dict mark _ => mark
  | madeList mark _ _ => mark
  | madeDict mark _ _ => mark
  | unary _ mark _ => mark
  | binary _ x _ => x.start
  | and x _ => x.start
  | or x _ => x.start
  | ifElse _ yes _ => yes.start
  | dot x _ => x.start
  | index x _ => x.start
  | slice x _ _ _ => x.start
  | call f _ => f.start
  | lambda mark _ _ => mark

/-- What an expression is called as a target of an assignment that is none. -/
def Term.noun : Term → String
  | constant _ _ => "literal"
  | name _ => "ident"
  | paren _ _ => "parenexpr"
  | tuple _ _ => "tupleexpr"
  | list _ _ => "listexpr"
  | dict _ _ => "dictexpr"
  | madeList _ _ _ => "comprehension"
  | madeDict _ _ _ => "comprehension"
  | unary _ _ _ => "unaryexpr"
  | binary _ _ _ => "binaryexpr"
  | and _ _ => "binaryexpr"
  | or _ _ => "binaryexpr"
  | ifElse _ _ _ => "condexpr"
  | dot _ _ => "dotexpr"
  | index _ _ => "indexexpr"
  | slice _ _ _ _ => "sliceexpr"
  | call _ _ => "callexpr"
  | lambda _ _ _ => "lambdaexpr"

end Z80Asm.Script
