import Z80Asm.Script.Tree

/-!
# Scripts with settled names

What is left of a script once its names are settled.  A name is a slot of the function that is running or of
one around it, a global, or known beforehand.  A function has one slot for every name that is bound in it,
those of the lists made in it included.
-/

namespace Z80Asm.Script

inductive Variable where
  /-- A slot of the function `up` functions outwards. -/
  | slot (up index : Nat) (name : Text)
  | global (index : Nat) (name : Text)
  | known (name : Text)
  deriving Repr, DecidableEq

/-- How a function is called and what its parameters are.  The first slots are those of its plain parameters,
and then those of its surplus arguments. -/
structure Header where
  name : Text
  /-- The place of the function, which tells it from every other. -/
  mark : Mark
  params : List Text
  positional : Nat
  rest : Bool
  restNamed : Bool
  size : Nat
  deriving Repr, DecidableEq

mutual

inductive Code where
  | constant (value : Constant)
  | get (place : Variable)
  | tuple (items : List Code)
  | list (items : List Code)
  | dict (entries : List CodeEntry)
  | madeList (body : Code) (clauses : List CodeClause)
  | madeDict (body : CodeEntry) (clauses : List CodeClause)
  | unary (op : Unary) (x : Code)
  | binary (op : Binary) (x y : Code)
  | and (x y : Code)
  | or (x y : Code)
  | ifElse (condition yes no : Code)
  | dot (x : Code) (field : Text)
  | index (x i : Code)
  | slice (x : Code) (low high step : Option Code)
  /-- A call: the arguments by position and by name, and sequences of more of them. -/
  | call (f : Code) (args : List CodeArgument)
  | function (header : Header) (defaults : List (Option Code)) (body : List Action)

inductive CodeEntry where
  | mk (key value : Code)

inductive CodeArgument where
  | plain (value : Code)
  | named (name : Text) (value : Code)
  | spread (value : Code)
  | spreadNamed (value : Code)

inductive CodeClause where
  | loop (target : Target) (source : Code)
  | filter (condition : Code)

inductive Target where
  | set (place : Variable)
  | index (x i : Code)
  | dot (x : Code) (field : Text)
  | sequence (targets : List Target)

inductive Action where
  | value (value : Code)
  | assign (target : Target) (value : Code)
  | change (op : Binary) (target : Target) (value : Code)
  | give (value : Option Code)
  | loop (target : Target) (source : Code) (body : List Action)
  | choose (condition : Code) (yes no : List Action)
  | leave
  | next
  | load

end

/-- A script with settled names: the names of its globals, the number of slots outside of functions, and its
statements. -/
structure Resolved where
  globals : List Text
  size : Nat
  body : List Action

end Z80Asm.Script
