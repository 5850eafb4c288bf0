import Mathlib.Algebra.GroupWithZero.Nat
import Mathlib.Tactic.Common
import Z80Asm.Cpu.Encoding

/-!
# Sizes of instructions

The values of operands do not count for the size of an instruction: what counts is what is left of the
operands when their values are erased.  The exceptions are the forms that exist for some values only
(`valueBound`).
-/

namespace Z80Asm.Cpu

variable {ops ops' : List Operand} {f : Operand → Layout} {m : Mnemonic}

def Field.size : Field → Nat
  | opcode _ | imm8 _ | displacement _ | relative _ => 1
  | imm16 _ => 2
  | bitNumber _ => 0

theorem Field.length_code (pc : Int64) : ∀ f : Field, (f.code pc).length = f.size
  | opcode _ | imm8 _ | displacement _ | relative _ | imm16 _ | bitNumber _ => rfl

def sizes (l : Layout) : Except OperandCause (List Nat) := l.map (List.map Field.size)

@[simp] theorem sizes_error (cause : OperandCause) : sizes (.error cause) = .error cause := rfl

@[simp] theorem sizes_ok (fields : List Field) : sizes (.ok fields) = .ok (fields.map Field.size) := rfl

def Operand.erase : Operand → Operand
  | imm _ => imm 0
  | mem _ => mem 0
  | idx rr _ => idx rr 0
  | op => op

def Place.erase (p : Place) : Place := { p with displacement := p.displacement.map fun _ => 0 }

namespace Place
variable (p : Place)

@[simp] theorem erase_code : p.erase.code = p.code := rfl

@[simp] theorem erase_index : p.erase.index = p.index := rfl

@[simp] theorem erase_isMemory : p.erase.isMemory = p.isMemory := rfl

@[simp] theorem erase_isPlainHL : p.erase.isPlainHL = p.isPlainHL := rfl

@[simp] theorem erase_isHalf : p.erase.isHalf = p.isHalf := by simp [erase, isHalf]

end Place

theorem place?_erase (op : Operand) : op.erase.place? = op.place?.map Place.erase := by
  cases op with
  | reg rr => cases rr <;> rfl
  | ind rr => cases rr <;> rfl
  | idx rr d => cases rr <;> rfl
  | imm | mem | cond | unnamed => rfl

theorem erase_eq_reg_iff {op : Operand} {rr : Reg} : op.erase = .reg rr ↔ op = .reg rr := by
  cases op <;> simp [Operand.erase]

theorem map_size_onPlace {p q : Place} (index : p.index = q.index)
    (displaced : p.displacement.isSome = q.displacement.isSome) (opcode : UInt8) :
    (onPlace p opcode).map Field.size = (onPlace q opcode).map Field.size := by
  simp only [onPlace, index, List.map_append, List.append_cancel_left_eq]
  cases hp : p.displacement <;> cases hq : q.displacement <;> simp_all [Field.size]

theorem map_size_onPlace_erase (p : Place) (opcode : UInt8) :
    (onPlace p.erase opcode).map Field.size = (onPlace p opcode).map Field.size := by
  refine map_size_onPlace ?_ ?_ opcode
  · rfl
  · simp [Place.erase]

theorem sizes_loadPlace (dst src : Place) : sizes (loadPlace dst.erase src.erase) = sizes (loadPlace dst src) := by
  simp only [loadPlace, Place.erase_isMemory, Place.erase_isHalf, Place.erase_isPlainHL,
    Place.erase_index, Place.erase_code]
  split
  · rfl
  split
  · rfl
  split
  · rfl
  split
  · rfl
  · rw [sizes_ok, sizes_ok]
    refine congrArg Except.ok (map_size_onPlace ?_ ?_ _)
    · rfl
    · simp [Place.erase]

theorem sizes_loadPair (dst : Reg) (src : Operand) : sizes (loadPair dst src.erase) = sizes (loadPair dst src) := by
  unfold loadPair
  split
  · rfl
  · cases src with
    | imm v => simp [Operand.erase, Field.size]
    | mem v => simp only [Operand.erase]; split <;> simp [Field.size]
    | reg | ind | idx | cond | unnamed => rfl

theorem sizes_loadOther (dst src : Operand) : sizes (loadOther dst.erase src.erase) = sizes (loadOther dst src) := by
  unfold loadOther
  simp only [erase_eq_reg_iff]
  split
  · cases src with
    | ind rr => rfl
    | reg rr => rfl
    | mem | imm | idx | cond | unnamed => rfl
  split
  · cases dst with
    | ind rr => rfl
    | reg rr => rfl
    | mem | imm | idx | cond | unnamed => rfl
  cases dst with
  | reg rr =>
    simp only [Operand.erase]
    split
    · exact sizes_loadPair rr src
    · rfl
  | mem v =>
    cases src with
    | reg rr => cases rr <;> rfl
    | mem | imm | ind | idx | cond | unnamed => rfl
  | imm | ind | idx | cond | unnamed => rfl

theorem sizes_load (dst src : Operand) : sizes (load dst.erase src.erase) = sizes (load dst src) := by
  unfold load
  rw [place?_erase, place?_erase]
  cases hd : dst.place? with
  | none => exact sizes_loadOther dst src
  | some d =>
    cases hs : src.place? with
    | some s => exact sizes_loadPlace d s
    | none =>
      cases src with
      | imm v =>
        simp [Operand.erase, map_size_onPlace_erase, Field.size]
      | reg | mem | ind | idx | cond | unnamed => exact sizes_loadOther dst _

theorem sizes_step (down : UInt8) (op : Operand) : sizes (step down op.erase) = sizes (step down op) := by
  unfold step
  rw [place?_erase]
  cases op.place? with
  | some p => exact congrArg Except.ok (map_size_onPlace_erase p _)
  | none => cases op <;> rfl

theorem sizes_arithmetic (alu : Alu) (op : Operand) : sizes (arithmetic alu op.erase) = sizes (arithmetic alu op) := by
  unfold arithmetic
  rw [place?_erase]
  cases op.place? with
  | some p => exact congrArg Except.ok (map_size_onPlace_erase p _)
  | none => cases op <;> rfl

theorem sizes_onBitPage (p : Place) (opcode opcode' : UInt8) :
    sizes (onBitPage p.erase opcode) = sizes (onBitPage p opcode') := by
  unfold onBitPage
  rw [Place.erase_isHalf]
  cases h : p.displacement with
  | some d => simp [Place.erase, h, opcodes, Field.size]
  | none =>
    simp only [Place.erase, h, Option.map_none]
    split <;> simp [opcodes, Field.size]

theorem sizes_shift (rot : Rot) (op : Operand) : sizes (shift rot op.erase) = sizes (shift rot op) := by
  unfold shift
  rw [place?_erase]
  cases op.place? with
  | some p => exact sizes_onBitPage p _ _
  | none => rfl

theorem sizes_bitAccess (bit : BitOp) (n op : Operand) :
    sizes (bitAccess bit n.erase op.erase) = sizes (bitAccess bit n op) := by
  have prepend : ∀ (v w : Int64) (l l' : Layout), sizes l = sizes l' →
      sizes (l.map (.bitNumber v :: ·)) = sizes (l'.map (.bitNumber w :: ·)) := by
    intro v w l l' h
    cases l <;> cases l' <;> simp_all [sizes, Except.map, Field.size]
  unfold bitAccess
  rw [place?_erase]
  cases n with
  | imm v =>
    cases op.place? with
    | some p => exact prepend _ _ _ _ (sizes_onBitPage p _ _)
    | none => rfl
  | reg | mem | ind | idx | cond | unnamed => rfl

/-! ## Operand lists -/

theorem sizes_oneOperand (h : ∀ x, sizes (f x.erase) = sizes (f x)) :
    ∀ ops, sizes (oneOperand f (ops.map Operand.erase)) = sizes (oneOperand f ops)
  | [] | _ :: _ :: _ => rfl
  | [x] => h x

theorem sizes_twoOperands {f : Operand → Operand → Layout}
    (h : ∀ x y, sizes (f x.erase y.erase) = sizes (f x y)) :
    ∀ ops, sizes (twoOperands f (ops.map Operand.erase)) = sizes (twoOperands f ops)
  | [] | [_] | _ :: _ :: _ :: _ => rfl
  | [x, y] => h x y

theorem sizes_oneOrTwo {g : Operand → Operand → Layout} (one : ∀ x, ops = [x] → sizes (f x.erase) = sizes (f x))
    (two : ∀ x y, sizes (g x.erase y.erase) = sizes (g x y)) :
    sizes (oneOrTwo f g (ops.map Operand.erase)) = sizes (oneOrTwo f g ops) :=
  match ops with
  | [] | _ :: _ :: _ :: _ => rfl
  | [x] => one x rfl
  | [x, y] => two x y

theorem sizes_onValue {f : Int64 → Layout} (h : ∀ v, sizes (f 0) = sizes (f v)) (x : Operand) :
    sizes (onValue f x.erase) = sizes (onValue f x) := by
  cases x with
  | imm v => exact h v
  | reg | mem | ind | idx | cond | unnamed => rfl

theorem sizes_onCondition {f : Cond → Int64 → Layout} (h : ∀ cc v, sizes (f cc 0) = sizes (f cc v))
    (x y : Operand) : sizes (onCondition f x.erase y.erase) = sizes (onCondition f x y) := by
  cases x with
  | cond cc =>
    cases y with
    | imm v => exact h cc v
    | reg | mem | ind | idx | cond | unnamed => rfl
  | imm | reg | mem | ind | idx | unnamed => rfl

/-- The form of operands that a mnemonic takes for some values only. -/
def valueBound : Mnemonic → List Operand → Bool
  | .rst, _ | .im, _ => true
  | .jp, [.idx _ _] => true
  | .output, [.ind .c, .imm _] => true
  | _, _ => false

theorem valueBound_erase (m : Mnemonic) (ops : List Operand) :
    valueBound m (ops.map Operand.erase) = valueBound m ops := by
  cases m with
  | jp =>
    match ops with
    | [] => rfl
    | [x] => cases x <;> rfl
    | x :: _ :: _ => cases x <;> rfl
  | output =>
    match ops with
    | [] => rfl
    | [x] => cases x with
      | ind rr => cases rr <;> rfl
      | _ => rfl
    | [x, y] | x :: y :: _ :: _ =>
      cases x with
      | ind rr => cases rr <;> cases y <;> rfl
      | _ => rfl
  | _ => rfl

/-- **The values of operands do not change the sizes of fields**, nor whether they are accepted. -/
theorem sizes_layout_erase (m : Mnemonic) (ops : List Operand) (free : valueBound m ops = false) :
    sizes (layout m (ops.map Operand.erase)) = sizes (layout m ops) := by
  cases m with
  | implied op => cases ops <;> rfl
  | alu op =>
    refine sizes_oneOrTwo (fun x _ => sizes_arithmetic op x) fun x y => ?_
    cases x with
    | reg rr =>
      simp only [Operand.erase]
      split
      · cases y <;> rfl
      · split
        · exact sizes_arithmetic op y
        · rfl
    | imm | mem | ind | idx | cond | unnamed => rfl
  | rot op => exact sizes_oneOperand (sizes_shift op) ops
  | bit op => exact sizes_twoOperands (sizes_bitAccess op) ops
  | ld => exact sizes_twoOperands sizes_load ops
  | inc => exact sizes_oneOperand (sizes_step 0) ops
  | dec => exact sizes_oneOperand (sizes_step 1) ops
  | jp =>
    refine sizes_oneOrTwo (fun x only => ?_) fun x y => ?_
    · cases x with
      | idx rr d => rw [only] at free; cases free
      | imm | reg | mem | ind | cond | unnamed => rfl
    · exact sizes_onCondition (fun _ _ => rfl) x y
  | jr =>
    refine sizes_oneOrTwo (fun x _ => sizes_onValue (fun _ => rfl) x) (sizes_onCondition fun cc v => ?_)
    unfold jumpRelative
    split <;> rfl
  | djnz => exact sizes_oneOperand (sizes_onValue fun _ => rfl) ops
  | call =>
    exact sizes_oneOrTwo (fun x _ => sizes_onValue (fun _ => rfl) x) (sizes_onCondition fun _ _ => rfl)
  | ret =>
    match ops with
    | [] => rfl
    | [x] => cases x <;> rfl
    | x :: _ :: _ => cases x <;> rfl
  | rst | im => cases free
  | ex =>
    refine sizes_twoOperands (fun x y => ?_) ops
    cases x with
    | reg rr | ind rr => cases rr <;> cases y <;> rfl
    | imm | mem | idx | cond | unnamed => rfl
  | push | pop =>
    refine sizes_oneOperand (fun x => ?_) ops
    cases x <;> rfl
  | input =>
    refine sizes_oneOrTwo (fun x _ => ?_) fun x y => ?_
    · cases x <;> rfl
    · cases x with
      | reg rr => cases rr <;> cases y <;> rfl
      | imm | mem | ind | idx | cond | unnamed => rfl
  | output =>
    match ops with
    | [] | [_] | _ :: _ :: _ :: _ => rfl
    | [x, y] =>
      cases x with
      | ind rr =>
        cases rr with
        | c =>
          cases y with
          | imm v => cases free
          | reg | mem | ind | idx | cond | unnamed => rfl
        | _ => cases y <;> rfl
      | mem v =>
        cases y with
        | reg rr => cases rr <;> rfl
        | imm | mem | ind | idx | cond | unnamed => rfl
      | imm | reg | idx | cond | unnamed => rfl

theorem length_assembleFields (pc : Int64) (fields : List Field) :
    (assembleFields pc fields).code.length = (fields.map Field.size).sum := by
  simp only [assembleFields, List.length_flatMap, Field.length_code]

theorem length_encode_of_sizes (pc pc' : Int64) (same : sizes (layout m ops) = sizes (layout m ops')) :
    (encode m pc ops).map (·.code.length) = (encode m pc' ops').map (·.code.length) := by
  unfold encode
  cases h : layout m ops with
  | error cause =>
    cases h' : layout m ops' with
    | error cause' => simp_all [Except.map]
    | ok fields' => simp [h, h'] at same
  | ok fields =>
    cases h' : layout m ops' with
    | error cause' => simp [h, h'] at same
    | ok fields' =>
      rw [h, h', sizes_ok, sizes_ok] at same
      simp only [Except.map, length_assembleFields, Except.ok.inj same]

theorem length_encode_eq (pc pc' : Int64) (form : ops.map Operand.erase = ops'.map Operand.erase)
    (free : valueBound m ops = false) :
    (encode m pc ops).map (·.code.length) = (encode m pc' ops').map (·.code.length) := by
  have free' : valueBound m ops' = false := by
    rw [← valueBound_erase, ← form, valueBound_erase, free]
  refine length_encode_of_sizes pc pc' ?_
  rw [← sizes_layout_erase m ops free, form, sizes_layout_erase m ops' free']

end Z80Asm.Cpu
