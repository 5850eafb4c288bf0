import Z80Asm.Text

/-!
# Mnemonics

The instruction words of the Z80.  They are grouped by the form of their operands: instructions
without operands, eight-bit arithmetic, shifts and rotations, bit instructions, and the rest.
-/

namespace Z80Asm.Cpu

inductive Implied where
  | nop | halt | di | ei | exx | daa | cpl | scf | ccf | rlca | rrca | rla | rra
  | neg | retn | reti | rld | rrd
  | ldi | cpi | ini | outi | ldd | cpd | ind | outd
  | ldir | cpir | inir | otir | lddr | cpdr | indr | otdr
  deriving Repr, DecidableEq

inductive Alu where
  | add | adc | sub | sbc | and | xor | or | cp
  deriving Repr, DecidableEq

/-- A shift or rotation.  `sli` is another word for `sll`. -/
inductive Rot where
  | rlc | rrc | rl | rr | sla | sra | sll | sli | srl
  deriving Repr, DecidableEq

inductive BitOp where
  | test | reset | raise
  deriving Repr, DecidableEq

inductive Mnemonic where
  | implied (op : Implied)
  | alu (op : Alu)
  | rot (op : Rot)
  | bit (op : BitOp)
  | ld | inc | dec | jp | jr | djnz | call | ret | rst | im | ex | push | pop | input | output
  deriving Repr, DecidableEq

namespace Implied

def all : List Implied :=
  [nop, halt, di, ei, exx, daa, cpl, scf, ccf, rlca, rrca, rla, rra, neg, retn, reti, rld, rrd,
   ldi, cpi, ini, outi, ldd, cpd, ind, outd, ldir, cpir, inir, otir, lddr, cpdr, indr, otdr]

def name : Implied → Text
  | nop => bytes "nop"
  | halt => bytes "halt"
  | di => bytes "di"
  | ei => bytes "ei"
  | exx => bytes "exx"
  | daa => bytes "daa"
  | cpl => bytes "cpl"
  | scf => bytes "scf"
  | ccf => bytes "ccf"
  | rlca => bytes "rlca"
  | rrca => bytes "rrca"
  | rla => bytes "rla"
  | rra => bytes "rra"
  | neg => bytes "neg"
  | retn => bytes "retn"
  | reti => bytes "reti"
  | rld => bytes "rld"
  | rrd => bytes "rrd"
  | ldi => bytes "ldi"
  | cpi => bytes "cpi"
  | ini => bytes "ini"
  | outi => bytes "outi"
  | ldd => bytes "ldd"
  | cpd => bytes "cpd"
  | ind => bytes "ind"
  | outd => bytes "outd"
  | ldir => bytes "ldir"
  | cpir => bytes "cpir"
  | inir => bytes "inir"
  | otir => bytes "otir"
  | lddr => bytes "lddr"
  | cpdr => bytes "cpdr"
  | indr => bytes "indr"
  | otdr => bytes "otdr"

def code : Implied → List UInt8
  | nop => [0x00]
  | halt => [0x76]
  | di => [0xF3]
  | ei => [0xFB]
  | exx => [0xD9]
  | daa => [0x27]
  | cpl => [0x2F]
  | scf => [0x37]
  | ccf => [0x3F]
  | rlca => [0x07]
  | rrca => [0x0F]
  | rla => [0x17]
  | rra => [0x1F]
  | neg => [0xED, 0x44]
  | retn => [0xED, 0x45]
  | reti => [0xED, 0x4D]
  | rld => [0xED, 0x6F]
  | rrd => [0xED, 0x67]
  | ldi => [0xED, 0xA0]
  | cpi => [0xED, 0xA1]
  | ini => [0xED, 0xA2]
  | outi => [0xED, 0xA3]
  | ldd => [0xED, 0xA8]
  | cpd => [0xED, 0xA9]
  | ind => [0xED, 0xAA]
  | outd => [0xED, 0xAB]
  | ldir => [0xED, 0xB0]
  | cpir => [0xED, 0xB1]
  | inir => [0xED, 0xB2]
  | otir => [0xED, 0xB3]
  | lddr => [0xED, 0xB8]
  | cpdr => [0xED, 0xB9]
  | indr => [0xED, 0xBA]
  | otdr => [0xED, 0xBB]

end Implied

namespace Alu

/-- All arithmetic operations, in the order of their fields. -/
def all : List Alu := [add, adc, sub, sbc, and, xor, or, cp]

def name : Alu → Text
  | add => bytes "add"
  | adc => bytes "adc"
  | sub => bytes "sub"
  | sbc => bytes "sbc"
  | and => bytes "and"
  | xor => bytes "xor"
  | or => bytes "or"
  | cp => bytes "cp"

def code : Alu → UInt8
  | add => 0
  | adc => 1
  | sub => 2
  | sbc => 3
  | and => 4
  | xor => 5
  | or => 6
  | cp => 7

end Alu

namespace Rot

def all : List Rot := [rlc, rrc, rl, rr, sla, sra, sll, sli, srl]

def name : Rot → Text
  | rlc => bytes "rlc"
  | rrc => bytes "rrc"
  | rl => bytes "rl"
  | rr => bytes "rr"
  | sla => bytes "sla"
  | sra => bytes "sra"
  | sll => bytes "sll"
  | sli => bytes "sli"
  | srl => bytes "srl"

def code : Rot → UInt8
  | rlc => 0
  | rrc => 1
  | rl => 2
  | rr => 3
  | sla => 4
  | sra => 5
  | sll | sli => 6
  | srl => 7

end Rot

namespace BitOp

def all : List BitOp := [test, reset, raise]

def name : BitOp → Text
  | test => bytes "bit"
  | reset => bytes "res"
  | raise => bytes "set"

/-- The opcode for bit zero of the first register. -/
def code : BitOp → UInt8
  | test => 0x40
  | reset => 0x80
  | raise => 0xC0

end BitOp

namespace Mnemonic

def all : List Mnemonic :=
  [ld, inc, dec, jp, jr, djnz, call, ret, rst, im, ex, push, pop, input, output]
    ++ Alu.all.map alu ++ Rot.all.map rot ++ BitOp.all.map bit ++ Implied.all.map implied

def name : Mnemonic → Text
  | implied op => op.name
  | alu op => op.name
  | rot op => op.name
  | bit op => op.name
  | ld => bytes "ld"
  | inc => bytes "inc"
  | dec => bytes "dec"
  | jp => bytes "jp"
  | jr => bytes "jr"
  | djnz => bytes "djnz"
  | call => bytes "call"
  | ret => bytes "ret"
  | rst => bytes "rst"
  | im => bytes "im"
  | ex => bytes "ex"
  | push => bytes "push"
  | pop => bytes "pop"
  | input => bytes "in"
  | output => bytes "out"

def words : List (Text × Mnemonic) := all.map fun m => (m.name, m)

def ofWord? (word : Text) : Option Mnemonic := words.lookup (Text.lower word)

end Mnemonic

end Z80Asm.Cpu
