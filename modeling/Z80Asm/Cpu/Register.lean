import Z80Asm.Numbered

/-!
# Registers and conditions

The registers of the Z80 and the conditions of its jumps, their names in source text, and the fields
by which instructions encode them.  A register or condition given by a number that names none
(`unnamed`) fits no instruction field that asks for a particular register.
-/

namespace Z80Asm.Cpu

inductive Reg where
  | b | c | d | e | h | l | a | i | r
  | ixh | ixl | iyh | iyl
  | bc | de | hl | sp | af
  /-- The alternate accumulator and flags. -/
  | afx
  | ix | iy | f
  | unnamed (number : Int64)
  deriving Repr, DecidableEq

inductive Cond where
  | nz | z | nc | c | po | pe | p | m
  | unnamed (number : Int64)
  deriving Repr, DecidableEq

namespace Reg

def named : List Reg :=
  [b, c, d, e, h, l, a, i, r, ixh, ixl, iyh, iyl, bc, de, hl, sp, af, afx, ix, iy, f]

def ofNumber (number : Int64) : Reg := (numbered? named number.toInt).getD (unnamed number)

def number : Reg → Int
  | unnamed n => n.toInt
  | reg => named.idxOf reg

def name : Reg → Text
  | b => bytes "b"
  | c => bytes "c"
  | d => bytes "d"
  | e => bytes "e"
  | h => bytes "h"
  | l => bytes "l"
  | a => bytes "a"
  | i => bytes "i"
  | r => bytes "r"
  | ixh => bytes "ixh"
  | ixl => bytes "ixl"
  | iyh => bytes "iyh"
  | iyl => bytes "iyl"
  | bc => bytes "bc"
  | de => bytes "de"
  | hl => bytes "hl"
  | sp => bytes "sp"
  | af => bytes "af"
  | afx => bytes "af'"
  | ix => bytes "ix"
  | iy => bytes "iy"
  | f => bytes "f"
  | unnamed n => unnamedText "Reg" n.toInt

/-- Further spellings of the halves of the index registers. -/
def otherNames : List (Text × Reg) :=
  [(bytes "xh", ixh), (bytes "xl", ixl), (bytes "yh", iyh), (bytes "yl", iyl),
   (bytes "hx", ixh), (bytes "lx", ixl), (bytes "hy", iyh), (bytes "ly", iyl)]

def spellings : List (Text × Reg) := named.map (fun reg => (reg.name, reg)) ++ otherNames

/-- The register that a word names, in any letter case. -/
def ofWord? (word : Text) : Option Reg := spellings.lookup (Text.lower word)

/-- An eight-bit register; numbers below all registers count as one. -/
def is8Bit : Reg → Bool
  | b | c | d | e | h | l | a | ixh | ixl | iyh | iyl => true
  | unnamed n => n < 0
  | _ => false

def is16Bit : Reg → Bool
  | bc | de | hl | sp | af | afx | ix | iy => true
  | _ => false

def isIndex : Reg → Bool
  | ix | iy => true
  | _ => false

/-- The byte that turns an instruction on `hl`, `h` or `l` into one on an index register; zero for the
    registers that need none. -/
def indexByte : Reg → UInt8
  | ix | ixh | ixl => 0xDD
  | iy | iyh | iyl => 0xFD
  | _ => 0

def code8? : Reg → Option UInt8
  | b => some 0
  | c => some 1
  | d => some 2
  | e => some 3
  | h | ixh | iyh => some 4
  | l | ixl | iyl => some 5
  | a => some 7
  | _ => none

def halves? : Reg → Option (Reg × Reg)
  | bc => some (b, c)
  | de => some (d, e)
  | hl => some (h, l)
  | _ => none

/-- The two-bit field of a pair where the fourth is `sp`. -/
def pairCode? : Reg → Option UInt8
  | bc => some 0
  | de => some 1
  | hl | ix | iy => some 2
  | sp => some 3
  | _ => none

/-- The two-bit field of a pair where the fourth is `af`. -/
def stackCode? : Reg → Option UInt8
  | bc => some 0
  | de => some 1
  | hl | ix | iy => some 2
  | af => some 3
  | _ => none

end Reg

namespace Cond

def named : List Cond := [nz, z, nc, c, po, pe, p, m]

def ofNumber (number : Int64) : Cond := (numbered? named number.toInt).getD (unnamed number)

def number : Cond → Int64
  | nz => 0
  | z => 1
  | nc => 2
  | c => 3
  | po => 4
  | pe => 5
  | p => 6
  | m => 7
  | unnamed n => n

def name : Cond → Text
  | nz => bytes "nz"
  | z => bytes "z"
  | nc => bytes "nc"
  | c => bytes "c"
  | po => bytes "po"
  | pe => bytes "pe"
  | p => bytes "p"
  | m => bytes "m"
  | unnamed n => unnamedText "Cond" n.toInt

/-- The condition that a word names, in any letter case. -/
def ofWord? (word : Text) : Option Cond :=
  (named.map fun cond => (cond.name, cond)).lookup (Text.lower word)

/-- The condition in bits three and up of an opcode; of a large number the low bits. -/
def field (cond : Cond) : UInt8 := cond.number.toUInt64.toUInt8 <<< 3

end Cond

end Z80Asm.Cpu
