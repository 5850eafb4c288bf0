import Z80Asm.Cpu.Mnemonic
import Z80Asm.Cpu.Operand

/-!
# Instruction encoding

An instruction is laid out as a list of fields (`layout`): opcode bytes, immediates, displacements and
relative targets.  `layout` alone decides which operands a mnemonic takes; the bytes of an instruction
and the values that do not fit follow field by field (`Field.code`, `Field.misfit?`).  A value that does
not fit is cut to its field, so that `encode` gives bytes together with the first such value.
-/

namespace Z80Asm.Cpu

inductive OperandCause where
  | invalid
  | missing
  | extra
  deriving Repr, DecidableEq

/-- A value outside the range of its field.  A strict one makes the instruction wrong; otherwise only
    high bits are lost. -/
structure Misfit where
  value : Int64
  min : Int64
  max : Int64
  strict : Bool := false
  deriving Repr, DecidableEq

inductive Field where
  | opcode (byte : UInt8)
  | imm8 (value : Int64)
  /-- A sixteen-bit value, low byte first. -/
  | imm16 (value : Int64)
  | displacement (value : Int64)
  /-- The target of a relative jump, whose offset byte is the second and last byte. -/
  | relative (target : Int64)
  /-- A bit number, which is part of the opcode and takes no byte of its own. -/
  | bitNumber (value : Int64)
  deriving Repr, DecidableEq

def lowByte (value : Int64) : UInt8 := value.toUInt64.toUInt8

/-- The distance from the end of a two-byte instruction at `pc` to a target. -/
def relativeOffset (pc target : Int64) : Int64 := target - (pc + 2)

def misfit? (value min max : Int64) (strict : Bool) : Option Misfit :=
  if value < min || max < value then some { value, min, max, strict } else none

namespace Field

def code (pc : Int64) : Field → List UInt8
  | opcode byte => [byte]
  | imm8 value => [lowByte value]
  | imm16 value => [lowByte value, lowByte (value >>> 8)]
  | displacement value => [lowByte value]
  | relative target => [lowByte (relativeOffset pc target)]
  | bitNumber _ => []

def misfit? (pc : Int64) : Field → Option Misfit
  | opcode _ => none
  | imm8 value => Cpu.misfit? value (-128) 255 false
  | imm16 value => Cpu.misfit? value (-32768) 65535 false
  | displacement value => Cpu.misfit? value (-128) 127 true
  | relative target => Cpu.misfit? (relativeOffset pc target) (-128) 127 true
  | bitNumber value => Cpu.misfit? value 0 7 true

end Field

abbrev Layout := Except OperandCause (List Field)

def atBit3 (code : UInt8) : UInt8 := code <<< 3

def atBit4 (code : UInt8) : UInt8 := code <<< 4

def opcodes (bytes : List UInt8) : List Field := bytes.map .opcode

/-- Fixed bytes after the byte of an index register, if there is one. -/
def indexed (index : UInt8) (bytes : List UInt8) : List Field :=
  opcodes (if index = 0 then bytes else index :: bytes)

/-- An opcode on a place: the byte of the index register, the opcode, the displacement. -/
def onPlace (p : Place) (opcode : UInt8) : List Field :=
  indexed p.index [opcode] ++ (p.displacement.toList.map .displacement)

/-- `ld` between two places.  There is no load from memory to memory, and halves of an index register
    go neither with memory, nor with plain `h` and `l`, nor with halves of the other one. -/
def loadPlace (dst src : Place) : Layout :=
  if dst.isMemory && src.isMemory then .error .invalid
  else if (dst.isHalf || src.isHalf) && (dst.isMemory || src.isMemory) then .error .invalid
  else if (dst.isHalf && src.isPlainHL) || (src.isHalf && dst.isPlainHL) then .error .invalid
  else if dst.isHalf && src.isHalf && dst.index != src.index then .error .invalid
  else
    .ok (onPlace
      { code := 0
        index := if src.index = 0 then dst.index else src.index
        displacement := src.displacement.or dst.displacement }
      (0x40 ||| atBit3 dst.code ||| src.code))

/-- `ld` into a register pair.  Between two of `bc`, `de` and `hl` it is two eight-bit loads. -/
def loadPair (dst : Reg) (src : Operand) : Layout :=
  match dst.pairCode? with
  | none => .error .invalid
  | some p =>
    match src with
    | .imm v => .ok (indexed dst.indexByte [0x01 ||| atBit4 p] ++ [.imm16 v])
    | .mem v =>
      if p = 2 then .ok (indexed dst.indexByte [0x2A] ++ [.imm16 v])
      else .ok (opcodes [0xED, 0x4B ||| atBit4 p] ++ [.imm16 v])
    | .reg rr =>
      if dst = .sp then
        match rr with
        | .hl | .ix | .iy => .ok (indexed rr.indexByte [0xF9])
        | _ => .error .invalid
      else match dst.halves?, rr.halves? with
        | some (dh, dl), some (sh, sl) =>
          match dh.code8?, dl.code8?, sh.code8?, sl.code8? with
          | some dh, some dl, some sh, some sl =>
            .ok (opcodes [0x40 ||| atBit3 dh ||| sh, 0x40 ||| atBit3 dl ||| sl])
          | _, _, _, _ => .error .invalid
        | _, _ => .error .invalid
    | _ => .error .invalid

/-- `ld` into the accumulator from what is no place. -/
def loadAccumulator : Operand → Layout
  | .ind .bc => .ok (opcodes [0x0A])
  | .ind .de => .ok (opcodes [0x1A])
  | .mem v => .ok (opcodes [0x3A] ++ [.imm16 v])
  | .reg .i => .ok (opcodes [0xED, 0x57])
  | .reg .r => .ok (opcodes [0xED, 0x5F])
  | _ => .error .invalid

/-- `ld` from the accumulator to what is no place. -/
def storeAccumulator : Operand → Layout
  | .ind .bc => .ok (opcodes [0x02])
  | .ind .de => .ok (opcodes [0x12])
  | .mem v => .ok (opcodes [0x32] ++ [.imm16 v])
  | .reg .i => .ok (opcodes [0xED, 0x47])
  | .reg .r => .ok (opcodes [0xED, 0x4F])
  | _ => .error .invalid

def storePair (address : Int64) (src : Reg) : Layout :=
  match src with
  | .hl | .ix | .iy => .ok (indexed src.indexByte [0x22] ++ [.imm16 address])
  | .bc => .ok (opcodes [0xED, 0x43] ++ [.imm16 address])
  | .de => .ok (opcodes [0xED, 0x53] ++ [.imm16 address])
  | .sp => .ok (opcodes [0xED, 0x73] ++ [.imm16 address])
  | _ => .error .invalid

/-- `ld` where not both operands are places and no place takes an immediate. -/
def loadOther (dst src : Operand) : Layout :=
  if dst = .reg .a then loadAccumulator src
  else if src = .reg .a then storeAccumulator dst
  else match dst, src with
    | .reg rr, _ => if rr.is16Bit then loadPair rr src else .error .invalid
    | .mem v, .reg rr => storePair v rr
    | _, _ => .error .invalid

def load (dst src : Operand) : Layout :=
  match dst.place?, src.place? with
  | some d, some s => loadPlace d s
  | some d, none =>
    match src with
    | .imm v => .ok (onPlace d (0x06 ||| atBit3 d.code) ++ [.imm8 v])
    | _ => loadOther dst src
  | none, _ => loadOther dst src

/-- `inc` (`down = 0`) and `dec` (`down = 1`). -/
def step (down : UInt8) (op : Operand) : Layout :=
  match op.place?, op with
  | some p, _ => .ok (onPlace p (0x04 ||| atBit3 p.code ||| down))
  | none, .reg rr =>
    match rr.pairCode? with
    | some p => .ok (indexed rr.indexByte [0x03 ||| atBit4 p ||| atBit3 down])
    | none => .error .invalid
  | none, _ => .error .invalid

def arithmetic (op : Alu) (src : Operand) : Layout :=
  match src.place?, src with
  | some p, _ => .ok (onPlace p (0x80 ||| atBit3 op.code ||| p.code))
  | none, .imm v => .ok (opcodes [0xC6 ||| atBit3 op.code] ++ [.imm8 v])
  | none, _ => .error .invalid

/-- The field of the second operand of sixteen-bit arithmetic: `bc`, `de`, `sp`, or the first operand
    itself. -/
def pairOperand? (dst src : Reg) : Option UInt8 :=
  match src with
  | .bc => some 0
  | .de => some 1
  | .sp => some 3
  | _ => if src = dst then some 2 else none

def pairArithmetic (op : Alu) (dst : Reg) (src : Operand) : Layout :=
  match src with
  | .reg rr =>
    match pairOperand? dst rr with
    | none => .error .invalid
    | some p =>
      match op, dst with
      | .add, .hl | .add, .ix | .add, .iy => .ok (indexed dst.indexByte [0x09 ||| atBit4 p])
      | .adc, .hl => .ok (opcodes [0xED, 0x4A ||| atBit4 p])
      | .sbc, .hl => .ok (opcodes [0xED, 0x42 ||| atBit4 p])
      | _, _ => .error .invalid
  | _ => .error .invalid

/-- An opcode of the `CB` page on a place; halves of index registers have none. -/
def onBitPage (p : Place) (opcode : UInt8) : Layout :=
  match p.displacement with
  | some d => .ok (opcodes [p.index, 0xCB] ++ [.displacement d] ++ opcodes [opcode ||| 6])
  | none => if p.isHalf then .error .invalid else .ok (opcodes [0xCB, opcode ||| p.code])

def shift (op : Rot) (src : Operand) : Layout :=
  match src.place? with
  | some p => onBitPage p (atBit3 op.code)
  | none => .error .invalid

/-- A bit instruction.  The low three bits of the bit number are part of the opcode. -/
def bitAccess (op : BitOp) (bit src : Operand) : Layout :=
  match bit, src.place? with
  | .imm n, some p =>
    (onBitPage p (op.code ||| atBit3 (lowByte (n &&& 7)))).map (.bitNumber n :: ·)
  | _, _ => .error .invalid

def jump : Operand → Layout
  | .imm v => .ok (opcodes [0xC3] ++ [.imm16 v])
  | .ind .hl | .reg .hl => .ok (opcodes [0xE9])
  | .reg .ix => .ok (opcodes [0xDD, 0xE9])
  | .reg .iy => .ok (opcodes [0xFD, 0xE9])
  | .idx rr d =>
    if rr.isIndex && d == 0 then .ok (opcodes [rr.indexByte, 0xE9]) else .error .invalid
  | _ => .error .invalid

/-- `jr` with a condition: only the first four have an opcode. -/
def jumpRelative (cond : Cond) (target : Int64) : Layout :=
  if cond.number ≤ 3 then .ok [.opcode (0x20 ||| cond.field), .relative target] else .error .invalid

/-- `rst`: the eight vectors are the multiples of eight up to 38h. -/
def restart (vector : Int64) : Layout :=
  if 0 ≤ vector && vector ≤ 0x38 && vector &&& 7 == 0 then .ok (opcodes [0xC7 ||| lowByte vector])
  else .error .invalid

def interruptMode (mode : Int64) : Layout :=
  if mode = 0 then .ok (opcodes [0xED, 0x46])
  else if mode = 1 then .ok (opcodes [0xED, 0x56])
  else if mode = 2 then .ok (opcodes [0xED, 0x5E])
  else .error .invalid

def exchange (x y : Operand) : Layout :=
  match x, y with
  | .reg .de, .reg .hl | .reg .hl, .reg .de => .ok (opcodes [0xEB])
  | .reg .af, .reg .afx | .reg .af, .reg .af => .ok (opcodes [0x08])
  | .ind .sp, .reg .hl => .ok (opcodes [0xE3])
  | .ind .sp, .reg .ix => .ok (opcodes [0xDD, 0xE3])
  | .ind .sp, .reg .iy => .ok (opcodes [0xFD, 0xE3])
  | _, _ => .error .invalid

/-- `push` and `pop`, by the opcode for `bc`. -/
def stack (base : UInt8) : Operand → Layout
  | .reg rr =>
    match rr.stackCode? with
    | some p => .ok (indexed rr.indexByte [base ||| atBit4 p])
    | none => .error .invalid
  | _ => .error .invalid

/-- The three-bit field of a register that is no half of an index register. -/
def plainCode? (rr : Reg) : Option UInt8 := if rr.indexByte = 0 then rr.code8? else none

/-- `in` with two operands. -/
def portIn (dst src : Operand) : Layout :=
  match dst, src with
  | .reg .a, .mem v => .ok (opcodes [0xDB] ++ [.imm8 v])
  | .reg .f, .ind .c => .ok (opcodes [0xED, 0x70])
  | .reg rr, .ind .c =>
    match plainCode? rr with
    | some code => .ok (opcodes [0xED, 0x40 ||| atBit3 code])
    | none => .error .invalid
  | _, _ => .error .invalid

def portOut (dst src : Operand) : Layout :=
  match dst, src with
  | .mem v, .reg .a => .ok (opcodes [0xD3] ++ [.imm8 v])
  | .ind .c, .imm v => if v = 0 then .ok (opcodes [0xED, 0x71]) else .error .invalid
  | .ind .c, .reg rr =>
    match plainCode? rr with
    | some code => .ok (opcodes [0xED, 0x41 ||| atBit3 code])
    | none => .error .invalid
  | _, _ => .error .invalid

def oneOperand (f : Operand → Layout) : List Operand → Layout
  | [] => .error .missing
  | [x] => f x
  | _ => .error .extra

def twoOperands (f : Operand → Operand → Layout) : List Operand → Layout
  | [] | [_] => .error .missing
  | [x, y] => f x y
  | _ => .error .extra

def oneOrTwo (f : Operand → Layout) (g : Operand → Operand → Layout) : List Operand → Layout
  | [] => .error .missing
  | [x] => f x
  | [x, y] => g x y
  | _ => .error .extra

def onValue (f : Int64 → Layout) : Operand → Layout
  | .imm v => f v
  | _ => .error .invalid

def onCondition (f : Cond → Int64 → Layout) : Operand → Operand → Layout
  | .cond cc, .imm v => f cc v
  | _, _ => .error .invalid

def layout : Mnemonic → List Operand → Layout
  | .implied op, ops => if ops.isEmpty then .ok (opcodes op.code) else .error .extra
  | .alu op, ops =>
    oneOrTwo (arithmetic op)
      (fun dst src => match dst with
        | .reg rr =>
          if rr.is16Bit then pairArithmetic op rr src
          else if rr = .a then arithmetic op src
          else .error .invalid
        | _ => .error .invalid) ops
  | .rot op, ops => oneOperand (shift op) ops
  | .bit op, ops => twoOperands (bitAccess op) ops
  | .ld, ops => twoOperands load ops
  | .inc, ops => oneOperand (step 0) ops
  | .dec, ops => oneOperand (step 1) ops
  | .jp, ops =>
    oneOrTwo jump (onCondition fun cc v => .ok [.opcode (0xC2 ||| cc.field), .imm16 v]) ops
  | .jr, ops =>
    oneOrTwo (onValue fun v => .ok [.opcode 0x18, .relative v]) (onCondition jumpRelative) ops
  | .djnz, ops => oneOperand (onValue fun v => .ok [.opcode 0x10, .relative v]) ops
  | .call, ops =>
    oneOrTwo (onValue fun v => .ok [.opcode 0xCD, .imm16 v])
      (onCondition fun cc v => .ok [.opcode (0xC4 ||| cc.field), .imm16 v]) ops
  | .ret, [] => .ok (opcodes [0xC9])
  | .ret, [.cond cc] => .ok (opcodes [0xC0 ||| cc.field])
  | .ret, [_] => .error .invalid
  | .ret, _ => .error .extra
  | .rst, ops => oneOperand (onValue restart) ops
  | .im, ops => oneOperand (onValue interruptMode) ops
  | .ex, ops => twoOperands exchange ops
  | .push, ops => oneOperand (stack 0xC5) ops
  | .pop, ops => oneOperand (stack 0xC1) ops
  | .input, ops =>
    oneOrTwo (fun op => if op = .ind .c then .ok (opcodes [0xED, 0x70]) else .error .invalid)
      portIn ops
  | .output, ops => twoOperands portOut ops

/-- An encoded instruction: its bytes, and the first value that was cut to fit. -/
structure Encoded where
  code : List UInt8
  misfit : Option Misfit
  deriving Repr, DecidableEq

def assembleFields (pc : Int64) (fields : List Field) : Encoded :=
  { code := fields.flatMap (Field.code pc)
    misfit := fields.findSome? (Field.misfit? pc) }

def encode (m : Mnemonic) (pc : Int64) (ops : List Operand) : Except OperandCause Encoded :=
  (layout m ops).map (assembleFields pc)

end Z80Asm.Cpu
