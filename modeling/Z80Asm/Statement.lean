import Z80Asm.Diagnostic
import Z80Asm.Expr
import Z80Asm.Token

/-!
# Statements

A program is a tree of statements: actions, and blocks that choose between or repeat other statements.
A statement is executed once or more in each pass; its expressions are evaluated each time.
-/

namespace Z80Asm

structure Node where
  /-- The number of the line among all lines. -/
  seq : Nat
  pos : Pos
  text : Text
  label : Option Text := none
  deriving Repr, DecidableEq

/-- An operand of an instruction before its value is known. -/
inductive Arg where
  | reg (reg : Cpu.Reg)
  | ind (reg : Cpu.Reg)
  | cond (cond : Cpu.Cond)
  | imm (value : Expr)
  | mem (address : Expr)
  | idx (reg : Cpu.Reg) (displacement : Expr)
  deriving Repr, DecidableEq

namespace Arg

def expr? : Arg → Option Expr
  | reg _ | ind _ | cond _ => none
  | imm e | mem e | idx _ e => some e

def resolve (value : Expr → Int64) : Arg → Cpu.Operand
  | reg rr => .reg rr
  | ind rr => .ind rr
  | cond cc => .cond cc
  | imm e => .imm (value e)
  | mem e => .mem (value e)
  | idx rr e => .idx rr (value e)

end Arg

inductive Item where
  | bytes (text : Text)
  | value (value : Expr)
  deriving Repr, DecidableEq

/-- What a statement does that is no block. -/
inductive Action where
  | label
  /-- Reports what is wrong with the line, where it is reached. -/
  | bad (fault : Fault)
  | instruction (mnemonic : Cpu.Mnemonic) (args : List Arg)
  | data (width : Width) (items : List Item)
  | space (count : Expr) (fill : Option Expr)
  | align (boundary : Expr) (fill : Option Expr)
  | org (address : Expr)
  /-- A constant, or a variable that may be assigned again. -/
  | equate (name : Text) (value : Expr) (assigned : Bool)
  | incbin (name data : Text) (offset length : Option Expr)
  | assert (condition : Expr)
  | message (text : Text)
  | script (source : Text)
  deriving Repr, DecidableEq

inductive Test where
  | nonzero (value : Expr)
  | defined (name : Text) (negated : Bool)
  deriving Repr, DecidableEq

inductive Statement where
  | act (node : Node) (action : Action)
  | choose (node : Node) (test : Test) (yes no : List Statement)
  | repeated (node : Node) (count : Expr) (body : List Statement)

def Statement.node : Statement → Node
  | act node _ | choose node _ _ _ | repeated node _ _ => node

end Z80Asm
