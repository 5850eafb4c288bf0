import Z80Asm.Cpu.Register

/-!
# Operands

An operand of an instruction with its value known, and its text in source form.
-/

namespace Z80Asm.Cpu

inductive Operand where
  | reg (reg : Reg)
  | imm (value : Int64)
  | mem (address : Int64)
  | ind (reg : Reg)
  /-- The memory at a displacement from an index register. -/
  | idx (reg : Reg) (displacement : Int64)
  | cond (cond : Cond)
  /-- A number that names no addressing mode. -/
  | unnamed (mode : Int64)
  deriving Repr, DecidableEq

namespace Operand

def modeNames : List String := ["reg", "imm", "mem", "ind", "idx", "cond"]

def signed (n : Int) : Text := if n < 0 then Text.ofInt n else bytes "+" ++ Text.ofInt n

def text : Operand → Text
  | reg rr => rr.name
  | imm v => Text.ofInt v.toInt
  | mem v => bytes "(" ++ Text.ofInt v.toInt ++ bytes ")"
  | ind rr => bytes "(" ++ rr.name ++ bytes ")"
  | idx rr d => bytes "(" ++ rr.name ++ signed d.toInt ++ bytes ")"
  | cond cc => cc.name
  | unnamed n => unnamedText "Mode" n.toInt

end Operand

/-- A place that the three-bit field of an eight-bit instruction can name: a register, `(hl)`, or
    `(ix+d)` and `(iy+d)`. -/
structure Place where
  /-- The three-bit field; six is memory. -/
  code : UInt8
  /-- The byte before the opcode that selects an index register, or zero. -/
  index : UInt8 := 0
  displacement : Option Int64 := none
  deriving Repr, DecidableEq

namespace Place

def isHalf (p : Place) : Bool := p.index != 0 && p.displacement.isNone

def isMemory (p : Place) : Bool := p.code == 6

/-- One of the plain registers `h` and `l`, which an index byte would rename. -/
def isPlainHL (p : Place) : Bool := p.index == 0 && (p.code == 4 || p.code == 5)

end Place

def Operand.place? : Operand → Option Place
  | .reg rr => rr.code8?.map fun code => { code, index := rr.indexByte }
  | .ind .hl => some { code := 6 }
  | .idx .ix d => some { code := 6, index := 0xDD, displacement := some d }
  | .idx .iy d => some { code := 6, index := 0xFD, displacement := some d }
  | _ => none

end Z80Asm.Cpu
