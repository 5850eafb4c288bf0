import Z80Asm.Cpu.Encoding

/-!
# Instruction decoding

A decoder for the bytes of instructions.  The opcode, with the bytes `CB`, `DD`, `ED` and `FD` before it,
selects a form (`select`): a mnemonic and a slot for each operand.  The slots that the opcode leaves open
are then filled from the bytes behind it (`readAll`).  An opcode is taken apart into its octal digits.

Some instructions have several spellings with the same bytes; `canonical` picks the one that the decoder
gives.
-/

namespace Z80Asm.Cpu

open List

variable {ops : List Operand} {slots : List Slot} {m : Mnemonic} {values : List Field} {bytes : List UInt8}
  {opcode : UInt8} {base : Reg}

abbrev Instruction := Mnemonic × List Operand

/-! ## Slots -/

/-- An operand as far as the opcode gives it. -/
inductive Slot where
  | fixed (op : Operand)
  | byte
  | word
  | port
  | memory
  /-- Memory at a displacement from an index register. -/
  | indexed (rr : Reg)
  | target
  deriving Repr, DecidableEq

def unsigned (b : UInt8) : Int64 := b.toUInt64.toInt64

def signed (b : UInt8) : Int64 := b.toInt8.toInt64

def pairValue (low high : UInt8) : Int64 := unsigned low ||| unsigned high <<< 8

/-- Fills a slot of an instruction at `pc` from the next bytes. -/
def Slot.read (pc : Int64) : Slot → List UInt8 → Option (Operand × List UInt8)
  | fixed op, rest => some (op, rest)
  | byte, b :: rest => some (.imm (unsigned b), rest)
  | word, low :: high :: rest => some (.imm (pairValue low high), rest)
  | port, b :: rest => some (.mem (unsigned b), rest)
  | memory, low :: high :: rest => some (.mem (pairValue low high), rest)
  | indexed rr, b :: rest => some (.idx rr (signed b), rest)
  | target, b :: rest => some (.imm (pc + 2 + signed b), rest)
  | _, _ => none

def readAll (pc : Int64) : List Slot → List UInt8 → Option (List Operand × List UInt8)
  | [], rest => some ([], rest)
  | slot :: slots, rest => do
    let (op, rest) ← slot.read pc rest
    let (ops, rest) ← readAll pc slots rest
    pure (op :: ops, rest)

/-! ## Octal digits -/

structure Form where
  mnemonic : Mnemonic
  slots : List Slot
  deriving Repr, DecidableEq

/-- The register of a digit.  Halves of `base` stand for `h` and `l`. -/
def register (base : Reg) : Nat → Reg
  | 0 => .b
  | 1 => .c
  | 2 => .d
  | 3 => .e
  | 4 => match base with
    | .ix => .ixh
    | .iy => .iyh
    | _ => .h
  | 5 => match base with
    | .ix => .ixl
    | .iy => .iyl
    | _ => .l
  | _ => .a

def memoryAt : Reg → Slot
  | .ix => .indexed .ix
  | .iy => .indexed .iy
  | _ => .fixed (.ind .hl)

def place (base : Reg) (digit : Nat) : Slot :=
  if digit = 6 then memoryAt base else .fixed (.reg (register base digit))

/-- The pair of a digit, with `last` as the fourth. -/
def pair (base last : Reg) (digit : Nat) : Slot :=
  .fixed (.reg (match digit / 2 with
    | 0 => .bc
    | 1 => .de
    | 2 => base
    | _ => last))

def condition (digit : Nat) : Slot := .fixed (.cond (Cond.named.getD digit .m))

def operation (digit : Nat) : Alu := Alu.all.getD digit .cp

def rotation : Nat → Rot
  | 0 => .rlc
  | 1 => .rrc
  | 2 => .rl
  | 3 => .rr
  | 4 => .sla
  | 5 => .sra
  | 6 => .sll
  | _ => .srl

def accumulatorOp : Nat → Implied
  | 0 => .rlca
  | 1 => .rrca
  | 2 => .rla
  | 3 => .rra
  | 4 => .daa
  | 5 => .cpl
  | 6 => .scf
  | _ => .ccf

def accumulator : Slot := .fixed (.reg .a)

/-! ## Forms -/

/-- The forms of opcodes that start with the digit zero, by their last and their middle digit. -/
def lowForm (base : Reg) : Nat → Nat → Form
  | 0, 0 => ⟨.implied .nop, []⟩
  | 0, 1 => ⟨.ex, [.fixed (.reg .af), .fixed (.reg .afx)]⟩
  | 0, 2 => ⟨.djnz, [.target]⟩
  | 0, 3 => ⟨.jr, [.target]⟩
  | 0, y => ⟨.jr, [condition (y - 4), .target]⟩
  | 1, y =>
    if y % 2 = 0 then ⟨.ld, [pair base .sp y, .word]⟩
    else ⟨.alu .add, [.fixed (.reg base), pair base .sp y]⟩
  | 2, 0 => ⟨.ld, [.fixed (.ind .bc), accumulator]⟩
  | 2, 1 => ⟨.ld, [accumulator, .fixed (.ind .bc)]⟩
  | 2, 2 => ⟨.ld, [.fixed (.ind .de), accumulator]⟩
  | 2, 3 => ⟨.ld, [accumulator, .fixed (.ind .de)]⟩
  | 2, 4 => ⟨.ld, [.memory, .fixed (.reg base)]⟩
  | 2, 5 => ⟨.ld, [.fixed (.reg base), .memory]⟩
  | 2, 6 => ⟨.ld, [.memory, accumulator]⟩
  | 2, _ => ⟨.ld, [accumulator, .memory]⟩
  | 3, y => ⟨if y % 2 = 0 then .inc else .dec, [pair base .sp y]⟩
  | 4, y => ⟨.inc, [place base y]⟩
  | 5, y => ⟨.dec, [place base y]⟩
  | 6, y => ⟨.ld, [place base y, .byte]⟩
  | _, y => ⟨.implied (accumulatorOp y), []⟩

/-- The places of two digits.  Next to memory, `h` and `l` are not halves. -/
def places (base : Reg) (y z : Nat) : List Slot :=
  if y = 6 then [memoryAt base, place .hl z]
  else if z = 6 then [place .hl y, memoryAt base]
  else [place base y, place base z]

/-- The forms of opcodes that start with the digit three, by their last and their middle digit; none for
    the bytes that come before an opcode. -/
def highForm (base : Reg) : Nat → Nat → Option Form
  | 0, y => some ⟨.ret, [condition y]⟩
  | 1, 1 => some ⟨.ret, []⟩
  | 1, 3 => some ⟨.implied .exx, []⟩
  | 1, 5 => some ⟨.jp, [.fixed (.reg base)]⟩
  | 1, 7 => some ⟨.ld, [.fixed (.reg .sp), .fixed (.reg base)]⟩
  | 1, y => some ⟨.pop, [pair base .af y]⟩
  | 2, y => some ⟨.jp, [condition y, .word]⟩
  | 3, 0 => some ⟨.jp, [.word]⟩
  | 3, 1 => none
  | 3, 2 => some ⟨.output, [.port, accumulator]⟩
  | 3, 3 => some ⟨.input, [accumulator, .port]⟩
  | 3, 4 => some ⟨.ex, [.fixed (.ind .sp), .fixed (.reg base)]⟩
  | 3, 5 => some ⟨.ex, [.fixed (.reg .de), .fixed (.reg .hl)]⟩
  | 3, 6 => some ⟨.implied .di, []⟩
  | 3, _ => some ⟨.implied .ei, []⟩
  | 4, y => some ⟨.call, [condition y, .word]⟩
  | 5, 1 => some ⟨.call, [.word]⟩
  | 5, y => if y % 2 = 0 then some ⟨.push, [pair base .af y]⟩ else none
  | 6, y => some ⟨.alu (operation y), [accumulator, .byte]⟩
  | _, y => some ⟨.rst, [.fixed (.imm (8 * y).toInt64)]⟩

def octalForm (base : Reg) : Nat → Nat → Nat → Option Form
  | 0, y, z => some (lowForm base z y)
  | 1, 6, 6 => some ⟨.implied .halt, []⟩
  | 1, y, z => some ⟨.ld, places base y z⟩
  | 2, y, z => some ⟨.alu (operation y), [accumulator, place base z]⟩
  | _, y, z => highForm base z y

def mainForm (base : Reg) (opcode : UInt8) : Option Form :=
  octalForm base (opcode.toNat / 64) (opcode.toNat / 8 % 8) (opcode.toNat % 8)

def bitOctal (base : Reg) : Nat → Nat → Nat → Form
  | 0, y, z => ⟨.rot (rotation y), [place base z]⟩
  | 1, y, z => ⟨.bit .test, [.fixed (.imm y.toInt64), place base z]⟩
  | 2, y, z => ⟨.bit .reset, [.fixed (.imm y.toInt64), place base z]⟩
  | _, y, z => ⟨.bit .raise, [.fixed (.imm y.toInt64), place base z]⟩

def bitForm (base : Reg) (opcode : UInt8) : Form :=
  bitOctal base (opcode.toNat / 64) (opcode.toNat / 8 % 8) (opcode.toNat % 8)

def blockOp? : Nat → Nat → Option Implied
  | 4, 0 => some .ldi
  | 4, 1 => some .cpi
  | 4, 2 => some .ini
  | 4, 3 => some .outi
  | 5, 0 => some .ldd
  | 5, 1 => some .cpd
  | 5, 2 => some .ind
  | 5, 3 => some .outd
  | 6, 0 => some .ldir
  | 6, 1 => some .cpir
  | 6, 2 => some .inir
  | 6, 3 => some .otir
  | 7, 0 => some .lddr
  | 7, 1 => some .cpdr
  | 7, 2 => some .indr
  | 7, 3 => some .otdr
  | _, _ => none

def extendedOctal : Nat → Nat → Nat → Option Form
  | 1, 6, 0 => some ⟨.input, [.fixed (.reg .f), .fixed (.ind .c)]⟩
  | 1, y, 0 => some ⟨.input, [place .hl y, .fixed (.ind .c)]⟩
  | 1, 6, 1 => some ⟨.output, [.fixed (.ind .c), .fixed (.imm 0)]⟩
  | 1, y, 1 => some ⟨.output, [.fixed (.ind .c), place .hl y]⟩
  | 1, y, 2 =>
    some ⟨.alu (if y % 2 = 0 then .sbc else .adc), [.fixed (.reg .hl), pair .hl .sp y]⟩
  | 1, y, 3 =>
    some ⟨.ld, if y % 2 = 0 then [.memory, pair .hl .sp y] else [pair .hl .sp y, .memory]⟩
  | 1, 0, 4 => some ⟨.implied .neg, []⟩
  | 1, 0, 5 => some ⟨.implied .retn, []⟩
  | 1, 1, 5 => some ⟨.implied .reti, []⟩
  | 1, 0, 6 => some ⟨.im, [.fixed (.imm 0)]⟩
  | 1, 2, 6 => some ⟨.im, [.fixed (.imm 1)]⟩
  | 1, 3, 6 => some ⟨.im, [.fixed (.imm 2)]⟩
  | 1, 0, 7 => some ⟨.ld, [.fixed (.reg .i), accumulator]⟩
  | 1, 1, 7 => some ⟨.ld, [.fixed (.reg .r), accumulator]⟩
  | 1, 2, 7 => some ⟨.ld, [accumulator, .fixed (.reg .i)]⟩
  | 1, 3, 7 => some ⟨.ld, [accumulator, .fixed (.reg .r)]⟩
  | 1, 4, 7 => some ⟨.implied .rrd, []⟩
  | 1, 5, 7 => some ⟨.implied .rld, []⟩
  | 2, y, z => (blockOp? y z).map fun op => ⟨.implied op, []⟩
  | _, _, _ => none

def extendedForm (opcode : UInt8) : Option Form :=
  extendedOctal (opcode.toNat / 64) (opcode.toNat / 8 % 8) (opcode.toNat % 8)

/-- The form of an instruction after the byte of an index register, and the bytes that fill its slots.
    After a further byte `CB`, the displacement comes before the opcode. -/
def selectIndexed (base : Reg) : List UInt8 → Option (Form × List UInt8)
  | [] => none
  | opcode :: rest =>
    if opcode = 0xCB then match rest with
      | displacement :: opcode :: rest =>
        if opcode.toNat % 8 = 6 then some (bitForm base opcode, displacement :: rest) else none
      | _ => none
    else (mainForm base opcode).map (·, rest)

def select : List UInt8 → Option (Form × List UInt8)
  | [] => none
  | opcode :: rest =>
    if opcode = 0xDD then selectIndexed .ix rest
    else if opcode = 0xFD then selectIndexed .iy rest
    else if opcode = 0xCB then match rest with
      | opcode :: rest => some (bitForm .hl opcode, rest)
      | [] => none
    else if opcode = 0xED then match rest with
      | opcode :: rest => (extendedForm opcode).map (·, rest)
      | [] => none
    else (mainForm .hl opcode).map (·, rest)

/-- The instruction at address `pc` with which bytes start, and the number of its bytes. -/
def decode (pc : Int64) (bytes : List UInt8) : Option (Instruction × Nat) := do
  let (form, tail) ← select bytes
  let (ops, rest) ← readAll pc form.slots tail
  pure ((form.mnemonic, ops), bytes.length - rest.length)

example : decode 0x8000 [0xDD, 0xCB, 0xFE, 0x7E, 0x00] =
    some ((.bit .test, [.imm 7, .idx .ix (-2)]), 4) := by
  decide

/-! ## Values of bytes -/

theorem unsigned_lowByte (v : Int64) : unsigned (lowByte v) = v &&& 0xFF := by
  refine Int64.toBitVec_inj.1 (BitVec.eq_of_getLsbD_eq fun i hi => ?_)
  have mask : ∀ i : Fin 64, (255#64).getLsbD i = decide (i.val < 8) := by decide
  have bits : (unsigned (lowByte v)).toBitVec.getLsbD i = (decide (i < 8) && v.toBitVec.getLsbD i) := by
    simp [unsigned, lowByte, hi, -UInt64.toUInt64_toUInt8]
  have masked : (v &&& 0xFF).toBitVec.getLsbD i = (v.toBitVec.getLsbD i && (255#64).getLsbD i) := by
    rw [Int64.toBitVec_and, BitVec.getLsbD_and]; rfl
  rw [bits, masked, mask ⟨i, hi⟩, Bool.and_comm]

theorem pairValue_lowByte (v : Int64) : pairValue (lowByte v) (lowByte (v >>> 8)) = v &&& 0xFFFF := by
  refine Int64.toBitVec_inj.1 (BitVec.eq_of_getLsbD_eq fun i hi => ?_)
  have mask : ∀ i : Fin 64, (65535#64).getLsbD i = decide (i.val < 16) := by decide
  have masked : (v &&& 0xFFFF).toBitVec.getLsbD i = (v.toBitVec.getLsbD i && (65535#64).getLsbD i) := by
    rw [Int64.toBitVec_and, BitVec.getLsbD_and]; rfl
  have bits : (pairValue (lowByte v) (lowByte (v >>> 8))).toBitVec.getLsbD i =
      (decide (i < 8) && v.toBitVec.getLsbD i || !decide (i < 8) && (decide (i - 8 < 8) &&
        (v.toBitVec.sshiftRight 8).getLsbD (i - 8))) := by
    simp [pairValue, unsigned, lowByte, hi, -UInt64.toUInt64_toUInt8, Nat.lt_of_le_of_lt (Nat.sub_le i 8) hi]
  rw [bits, masked, mask ⟨i, hi⟩, BitVec.getLsbD_sshiftRight]
  by_cases low : i < 8
  · simp [low, Nat.lt_trans low]
  · have shifted : 8 + (i - 8) = i := by omega
    by_cases high : i < 16
    · simp [low, high, hi, shifted, show i - 8 < 8 by omega, show ¬ 64 ≤ i - 8 by omega]
    · simp [low, high, show ¬ i - 8 < 8 by omega]

theorem signed_lowByte {v : Int64} (low : -128 ≤ v) (high : v ≤ 127) : signed (lowByte v) = v := by
  rw [Int64.le_iff_toInt_le] at low high
  have low : -128 ≤ v.toInt := low
  have high : v.toInt ≤ 127 := high
  have bits : (lowByte v).toInt8.toBitVec = v.toBitVec.setWidth 8 := by simp [lowByte]
  refine Int64.toInt_inj.1 ?_
  rw [signed, Int8.toInt_toInt64, Int8.toInt, bits, BitVec.toInt_setWidth]
  rw [Int64.toInt, BitVec.toInt_eq_toNat_bmod] at low high ⊢
  simp only [Int.bmod_def] at low high ⊢
  omega
theorem misfit?_eq_none {value min max : Int64} {strict : Bool}
    (h : misfit? value min max strict = none) : min ≤ value ∧ value ≤ max := by
  unfold misfit? at h
  split at h
  · cases h
  · next fits => simpa [Int64.not_lt] using fits

/-! ## Filling slots -/

/-- Slots, the operands that they are filled with, and the fields whose bytes fill them. -/
inductive Fills : List Slot → List Operand → List Field → Prop
  | nil : Fills [] [] []
  | fixed {slots ops fields} (op : Operand) (h : Fills slots ops fields) :
      Fills (.fixed op :: slots) (op :: ops) fields
  | byte {slots ops fields} (v : Int64) (h : Fills slots ops fields) :
      Fills (.byte :: slots) (.imm (v &&& 0xFF) :: ops) (.imm8 v :: fields)
  | word {slots ops fields} (v : Int64) (h : Fills slots ops fields) :
      Fills (.word :: slots) (.imm (v &&& 0xFFFF) :: ops) (.imm16 v :: fields)
  | port {slots ops fields} (v : Int64) (h : Fills slots ops fields) :
      Fills (.port :: slots) (.mem (v &&& 0xFF) :: ops) (.imm8 v :: fields)
  | memory {slots ops fields} (v : Int64) (h : Fills slots ops fields) :
      Fills (.memory :: slots) (.mem (v &&& 0xFFFF) :: ops) (.imm16 v :: fields)
  | indexed {slots ops fields} (rr : Reg) (d : Int64) (h : Fills slots ops fields) :
      Fills (.indexed rr :: slots) (.idx rr d :: ops) (.displacement d :: fields)
  | target {slots ops fields} (v : Int64) (h : Fills slots ops fields) :
      Fills (.target :: slots) (.imm v :: ops) (.relative v :: fields)

theorem Fills.append {slots slots' : List Slot} {ops ops' : List Operand} {fields fields' : List Field}
    (h : Fills slots ops fields) (h' : Fills slots' ops' fields') :
    Fills (slots ++ slots') (ops ++ ops') (fields ++ fields') := by
  induction h with
  | nil => exact h'
  | fixed op _ ih => exact ih.fixed op
  | byte v _ ih => exact ih.byte v
  | word v _ ih => exact ih.word v
  | port v _ ih => exact ih.port v
  | memory v _ ih => exact ih.memory v
  | indexed rr d _ ih => exact ih.indexed rr d
  | target v _ ih => exact ih.target v

theorem Fills.map_fixed : ∀ ops : List Operand, Fills (ops.map .fixed) ops []
  | [] => .nil
  | op :: ops => .fixed op (map_fixed ops)

/-- **The bytes of fields fill the slots**, if displacements and targets are in reach. -/
theorem Fills.readAll {fields : List Field}
    (h : Fills slots ops fields) {pc : Int64} (fits : ∀ f ∈ fields, f.misfit? pc = none)
    (rest : List UInt8) :
    readAll pc slots (fields.flatMap (Field.code pc) ++ rest) = some (ops, rest) := by
  induction h with
  | nil => rfl
  | fixed op _ ih => simp [Cpu.readAll, Slot.read, ih fits]
  | byte v _ ih | port v _ ih =>
    have tail := ih fun f hf => fits f (mem_cons_of_mem _ hf)
    simp [Cpu.readAll, Slot.read, Field.code, tail, unsigned_lowByte]
  | word v _ ih | memory v _ ih =>
    have tail := ih fun f hf => fits f (mem_cons_of_mem _ hf)
    simp [Cpu.readAll, Slot.read, Field.code, tail, pairValue_lowByte]
  | indexed rr d _ ih =>
    have tail := ih fun f hf => fits f (mem_cons_of_mem _ hf)
    obtain ⟨low, high⟩ := misfit?_eq_none (fits _ mem_cons_self)
    simp [Cpu.readAll, Slot.read, Field.code, tail, signed_lowByte low high]
  | target v _ ih =>
    have tail := ih fun f hf => fits f (mem_cons_of_mem _ hf)
    obtain ⟨low, high⟩ := misfit?_eq_none (fits _ mem_cons_self)
    have reached : pc + 2 + relativeOffset pc v = v := by
      rw [relativeOffset, Int64.add_comm, Int64.sub_add_cancel]
    simp [Cpu.readAll, Slot.read, Field.code, tail, signed_lowByte low high, reached]

/-! ## Decoding fields -/

/-- The bytes of fields decode to an instruction, whatever bytes follow, if the values fit. -/
def Decodes (fields : List Field) (result : Instruction) : Prop :=
  ∀ (pc : Int64) (rest : List UInt8), (∀ f ∈ fields, f.misfit? pc = none) →
    decode pc (fields.flatMap (Field.code pc) ++ rest) =
      some (result, (fields.flatMap (Field.code pc)).length)

theorem opcodes_code (pc : Int64) (bytes : List UInt8) : (opcodes bytes).flatMap (Field.code pc) = bytes := by
  induction bytes with
  | nil => rfl
  | cons b rest ih => exact congrArg (b :: ·) ih

/-- Bytes that select a form decode to its mnemonic, with the operands that fill its slots. -/
theorem Decodes.of_opcodes (selects : ∀ tail, select (bytes ++ tail) = some (⟨m, slots⟩, tail))
    (fills : Fills slots ops values) : Decodes (opcodes bytes ++ values) (m, ops) := by
  intro pc rest fits
  have filled := fills.readAll (fun f hf => fits f (mem_append_right _ hf)) rest
  have count : (bytes ++ (values.flatMap (Field.code pc) ++ rest)).length - rest.length =
      (bytes ++ values.flatMap (Field.code pc)).length := by
    simp only [length_append]
    omega
  simp only [flatMap_append, opcodes_code, append_assoc, decode, selects, filled,
    Option.bind_eq_bind, Option.bind_some, Option.pure_def, count]

theorem Decodes.of_opcode {byte : UInt8} (selects : ∀ tail, select (byte :: tail) = some (⟨m, slots⟩, tail))
    (fills : Fills slots ops values) : Decodes (.opcode byte :: values) (m, ops) :=
  (of_opcodes selects fills : Decodes (opcodes [byte] ++ values) (m, ops))

theorem Decodes.of_fixed (selects : ∀ tail, select (bytes ++ tail) = some (⟨m, ops.map .fixed⟩, tail)) :
    Decodes (opcodes bytes) (m, ops) := by
  rw [← append_nil (opcodes bytes)]
  exact of_opcodes selects (.map_fixed ops)

def bases : List Reg := [.hl, .ix, .iy]

/-- An opcode of the main page selects its form, also after the byte of an index register. -/
theorem select_indexed (hb : base ∈ bases) {form : Form} (h : mainForm base opcode = some form) (tail : List UInt8) :
    select ((if base.indexByte = 0 then [opcode] else [base.indexByte, opcode]) ++ tail) = some (form, tail) := by
  have plain : ∀ b ∈ [0xCB, 0xDD, 0xED, 0xFD], opcode ≠ b := by
    rintro b hb rfl
    simp only [mem_cons, not_mem_nil, or_false] at hb
    rcases hb with rfl | rfl | rfl | rfl <;> cases h
  simp only [forall_mem_cons, not_mem_nil, false_implies, implies_true, and_true] at plain
  simp only [bases, mem_cons, not_mem_nil, or_false] at hb
  rcases hb with rfl | rfl | rfl
  · simp [select, Reg.indexByte, plain, h]
  · simp [select, selectIndexed, Reg.indexByte, plain, h]
  · simp [select, selectIndexed, Reg.indexByte, plain, h]

theorem Decodes.of_indexed (hb : base ∈ bases) (form : mainForm base opcode = some ⟨m, slots⟩)
    (fills : Fills slots ops values) : Decodes (indexed base.indexByte [opcode] ++ values) (m, ops) :=
  of_opcodes (select_indexed hb form) fills

end Z80Asm.Cpu
