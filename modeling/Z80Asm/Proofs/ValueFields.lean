import Z80Asm.Proofs.EncodingSize

/-!
# Values in instructions

The values of operands go into fields of an instruction.  Which field takes which value is written out here by
mnemonic, without a layout, and every layout has exactly these fields, in the order of the operands.  A field whose
value has to fit never stands behind one that may lose bits.
-/

namespace Z80Asm.Cpu

open List

variable {values fields : List Field} {m : Mnemonic} {ops : List Operand}

/-- The first operand is a register pair, so that a value behind it has sixteen bits. -/
def intoPair : List Operand → Bool
  | .reg rr :: _ => rr.is16Bit
  | _ => false

/-! ## Value fields -/

namespace Field

def isValue : Field → Bool
  | opcode _ => false
  | _ => true

def isStrict : Field → Bool
  | displacement _ | relative _ | bitNumber _ => true
  | _ => false

end Field

/-- The field that takes a plain value; `pair` tells that the first operand is a register pair. -/
def Mnemonic.immediateField? (pair : Bool) : Mnemonic → Option (Int64 → Field)
  | bit _ => some .bitNumber
  | jr | djnz => some .relative
  | jp | call => some .imm16
  | alu _ => some .imm8
  | ld => some (if pair then .imm16 else .imm8)
  | _ => none

def Mnemonic.addressField? : Mnemonic → Option (Int64 → Field)
  | ld => some .imm16
  | input | output => some .imm8
  | _ => none

/-- The field that takes the value of an operand.  A jump to an index register has none for its displacement. -/
def Operand.field? (m : Mnemonic) (pair : Bool) : Operand → Option Field
  | idx _ d => if m = .jp then none else some (.displacement d)
  | imm v => (m.immediateField? pair).map (· v)
  | mem v => m.addressField?.map (· v)
  | reg _ | ind _ | cond _ | unnamed _ => none

def valueFields (m : Mnemonic) (ops : List Operand) : List Field :=
  ops.filterMap (Operand.field? m (intoPair ops))

/-- The fields of an instruction with some values: those that have to fit come first, and there are from one to four
    bytes. -/
structure Holds (fields values : List Field) : Prop where
  eq : fields.filter Field.isValue = values
  strictFirst : values.Pairwise fun f g => g.isStrict = true → f.isStrict = true
  size : 1 ≤ (fields.map Field.size).sum ∧ (fields.map Field.size).sum ≤ 4

def Carries (l : Layout) (values : List Field) : Prop := ∀ fields, l = .ok fields → Holds fields values

theorem Carries.error {cause : OperandCause} : Carries (.error cause) values := fun _ h => nomatch h

theorem Carries.ok (h : Holds fields values) : Carries (.ok fields) values := by
  intro _ same
  cases same
  exact h

theorem filter_opcodes (bytes : List UInt8) : (opcodes bytes).filter Field.isValue = [] := by
  simp [opcodes, filter_eq_nil_iff, Field.isValue]

theorem sum_size_opcodes (bytes : List UInt8) : ((opcodes bytes).map Field.size).sum = bytes.length := by
  induction bytes with
  | nil => rfl
  | cons b bytes ih =>
    simp only [opcodes, map_cons, sum_cons, length_cons] at ih ⊢
    rw [ih, Field.size, Nat.add_comm]

theorem Holds.between (before after : List UInt8) (isValue : values.filter Field.isValue = values)
    (strictFirst : values.Pairwise fun f g => g.isStrict = true → f.isStrict = true)
    (size : 1 ≤ before.length + (values.map Field.size).sum + after.length ∧
      before.length + (values.map Field.size).sum + after.length ≤ 4) :
    Holds (opcodes before ++ values ++ opcodes after) values where
  eq := by simp only [filter_append, filter_opcodes, isValue, nil_append, append_nil]
  strictFirst := strictFirst
  size := by simpa only [map_append, sum_append, sum_size_opcodes] using size

theorem Field.size_le_two (f : Field) : f.size ≤ 2 := by cases f <;> simp [size]

theorem Holds.behind {before : List UInt8} {f : Field} (isValue : f.isValue = true)
    (size : 1 ≤ before.length ∧ before.length ≤ 2) : Holds (opcodes before ++ [f]) [f] := by
  have := f.size_le_two
  have values : [f].filter Field.isValue = [f] := by simp [isValue]
  simpa [opcodes] using Holds.between before [] values (by simp)
    (by simp only [map_cons, map_nil, sum_cons, sum_nil, length_nil]; omega)

theorem Holds.plain {bytes : List UInt8} (size : 1 ≤ bytes.length ∧ bytes.length ≤ 2) : Holds (opcodes bytes) [] := by
  have values : [].filter Field.isValue = [] := rfl
  simpa [opcodes] using Holds.between bytes [] values .nil (by simp only [map_nil, sum_nil, length_nil]; omega)

theorem Holds.bitNumber (h : Holds fields values) (n : Int64) :
    Holds (.bitNumber n :: fields) (.bitNumber n :: values) where
  eq := by rw [filter_cons_of_pos rfl, h.eq]
  strictFirst := pairwise_cons.2 ⟨fun _ _ _ => rfl, h.strictFirst⟩
  size := by simpa [Field.size] using h.size

theorem exists_indexed (index opcode : UInt8) :
    ∃ bytes, indexed index [opcode] = opcodes bytes ∧ 1 ≤ bytes.length ∧ bytes.length ≤ 2 := by
  refine ⟨_, rfl, ?_⟩
  split <;> simp

theorem Holds.indexed (index opcode : UInt8) : Holds (indexed index [opcode]) [] := by
  obtain ⟨bytes, eq, size⟩ := exists_indexed index opcode
  rw [eq]
  exact .plain size

theorem Holds.indexed_behind (index opcode : UInt8) {f : Field} (isValue : f.isValue = true) :
    Holds (Cpu.indexed index [opcode] ++ [f]) [f] := by
  obtain ⟨bytes, eq, size⟩ := exists_indexed index opcode
  rw [eq]
  exact .behind isValue size

/-! ## Places -/

def Place.valueFields (p : Place) : List Field := p.displacement.toList.map .displacement

theorem holds_onPlace (p : Place) (opcode : UInt8) : Holds (onPlace p opcode) p.valueFields := by
  obtain ⟨bytes, eq, size⟩ := exists_indexed p.index opcode
  unfold onPlace Place.valueFields
  rw [eq]
  cases p.displacement with
  | none => simpa using Holds.plain size
  | some d => exact .behind rfl size

theorem holds_onPlace_imm (p : Place) (opcode : UInt8) (v : Int64) :
    Holds (onPlace p opcode ++ [.imm8 v]) (p.valueFields ++ [.imm8 v]) := by
  obtain ⟨bytes, eq, size⟩ := exists_indexed p.index opcode
  unfold onPlace Place.valueFields
  rw [eq]
  cases p.displacement with
  | none => simpa using Holds.behind rfl size
  | some d =>
    have values : [.displacement d, .imm8 v].filter Field.isValue = [.displacement d, .imm8 v] := rfl
    simpa [opcodes] using Holds.between bytes [] values (by simp [Field.isStrict]) (by simpa [Field.size] using size.2)

section
variable {op : Operand} {p : Place} (named : op.place? = some p)
include named

theorem field?_of_place? (noJump : m ≠ .jp) (pair : Bool) : (op.field? m pair).toList = p.valueFields := by
  cases op with
  | reg rr => cases rr <;> cases named <;> rfl
  | ind rr => cases rr <;> cases named; rfl
  | idx rr d => cases rr <;> cases named <;> simp [Operand.field?, noJump, Place.valueFields]
  | imm | mem | cond | unnamed => cases named

theorem intoPair_of_place? (rest : List Operand) : intoPair (op :: rest) = false := by
  cases op with
  | reg rr => cases rr <;> cases named <;> rfl
  | ind | idx | imm | mem | cond | unnamed => rfl

theorem isMemory_of_displacement {d : Int64} (displaced : p.displacement = some d) : p.isMemory = true := by
  cases op with
  | reg rr => cases rr <;> cases named <;> cases displaced
  | ind rr => cases rr <;> cases named; rfl
  | idx rr d => cases rr <;> cases named <;> rfl
  | imm | mem | cond | unnamed => cases named

end

theorem carries_loadPlace {dst src : Operand} {d s : Place} (hd : dst.place? = some d) (hs : src.place? = some s) :
    Carries (loadPlace d s) (d.valueFields ++ s.valueFields) := by
  unfold loadPlace
  split
  · exact .error
  next single =>
    split
    · exact .error
    split
    · exact .error
    split
    · exact .error
    · have same : (s.displacement.or d.displacement).toList.map .displacement = d.valueFields ++ s.valueFields := by
        unfold Place.valueFields
        cases atSrc : s.displacement with
        | none => simp
        | some =>
          cases atDst : d.displacement with
          | none => simp
          | some => simp [isMemory_of_displacement hs atSrc, isMemory_of_displacement hd atDst] at single
      rw [← same]
      exact .ok (holds_onPlace _ _)

/-! ## Loads -/

theorem carries_accumulator (x : Operand) : Carries (loadAccumulator x) (valueFields .ld [.reg .a, x]) ∧
    Carries (storeAccumulator x) (valueFields .ld [x, .reg .a]) := by
  cases x with
  | mem v => exact ⟨.ok (.behind rfl (by decide)), .ok (.behind rfl (by decide))⟩
  | ind rr =>
    cases rr with
    | bc | de => exact ⟨.ok (.plain (by decide)), .ok (.plain (by decide))⟩
    | _ => exact ⟨.error, .error⟩
  | reg rr =>
    cases rr with
    | i | r => exact ⟨.ok (.plain (by decide)), .ok (.plain (by decide))⟩
    | _ => exact ⟨.error, .error⟩
  | imm | idx | cond | unnamed => exact ⟨.error, .error⟩

theorem carries_loadPair {dst : Reg} (pair : dst.is16Bit = true) (src : Operand) :
    Carries (loadPair dst src) (valueFields .ld [.reg dst, src]) := by
  unfold loadPair
  cases dst.pairCode? with
  | none => exact .error
  | some code =>
    cases src with
    | imm v =>
      have value : valueFields .ld [.reg dst, .imm v] = [.imm16 v] := by
        simp only [valueFields, intoPair, pair]
        rfl
      rw [value]
      exact .ok (.indexed_behind _ _ rfl)
    | mem v =>
      dsimp only
      split
      · exact .ok (.indexed_behind _ _ rfl)
      · exact .ok (.behind rfl (by simp))
    | reg rr =>
      dsimp only
      split
      · split
        · exact .ok (.indexed _ _)
        · exact .ok (.indexed _ _)
        · exact .ok (.indexed _ _)
        · exact .error
      · split
        · split
          · exact .ok (.plain (by simp))
          · exact .error
        · exact .error
    | ind | idx | cond | unnamed => exact .error

theorem carries_storePair (address : Int64) (src : Reg) :
    Carries (storePair address src) (valueFields .ld [.mem address, .reg src]) := by
  unfold storePair
  split
  · exact .ok (.indexed_behind _ _ rfl)
  · exact .ok (.indexed_behind _ _ rfl)
  · exact .ok (.indexed_behind _ _ rfl)
  · exact .ok (.behind rfl (by simp))
  · exact .ok (.behind rfl (by simp))
  · exact .ok (.behind rfl (by simp))
  · exact .error

section
variable (dst src : Operand)

theorem carries_loadOther : Carries (loadOther dst src) (valueFields .ld [dst, src]) := by
  unfold loadOther
  split
  next a => rw [a]; exact (carries_accumulator src).1
  split
  next a => rw [a]; exact (carries_accumulator dst).2
  split
  next rr _ =>
    split
    next pair => exact carries_loadPair pair src
    · exact .error
  · exact carries_storePair _ _
  · exact .error

theorem valueFields_single (m : Mnemonic) (x : Operand) : valueFields m [x] = (x.field? m (intoPair [x])).toList := by
  unfold valueFields
  cases hx : x.field? m (intoPair [x]) <;> simp [hx]

theorem valueFields_pair (m : Mnemonic) (x y : Operand) :
    valueFields m [x, y] = (x.field? m (intoPair [x, y])).toList ++ (y.field? m (intoPair [x, y])).toList := by
  unfold valueFields
  cases hx : x.field? m (intoPair [x, y]) <;> cases hy : y.field? m (intoPair [x, y]) <;> simp [hx, hy]

theorem carries_load : Carries (load dst src) (valueFields .ld [dst, src]) := by
  unfold load
  cases hd : dst.place? with
  | none => exact carries_loadOther dst src
  | some d =>
    cases hs : src.place? with
    | some s =>
      rw [valueFields_pair, field?_of_place? hd (by decide), field?_of_place? hs (by decide)]
      exact carries_loadPlace hd hs
    | none =>
      cases src with
      | imm v =>
        rw [valueFields_pair, field?_of_place? hd (by decide), intoPair_of_place? hd]
        exact .ok (holds_onPlace_imm _ _ v)
      | reg | mem | ind | idx | cond | unnamed => exact carries_loadOther dst _

/-! ## Arithmetic, shifts and bits -/

theorem carries_step (down : UInt8) (noJump : m ≠ .jp) (op : Operand) :
    Carries (step down op) (valueFields m [op]) := by
  unfold step
  cases named : op.place? with
  | some p =>
    rw [valueFields_single, field?_of_place? named noJump]
    exact .ok (holds_onPlace p _)
  | none =>
    cases op with
    | reg rr =>
      dsimp only
      split
      · exact .ok (.indexed _ _)
      · exact .error
    | ind | idx | imm | mem | cond | unnamed => exact .error

theorem carries_arithmetic (alu : Alu) (pair : Bool) (src : Operand) :
    Carries (arithmetic alu src) (src.field? (.alu alu) pair).toList := by
  unfold arithmetic
  cases named : src.place? with
  | some p =>
    rw [field?_of_place? named (by simp)]
    exact .ok (holds_onPlace p _)
  | none =>
    cases src with
    | imm v => exact .ok (.behind rfl (by simp))
    | reg | ind | idx | mem | cond | unnamed => exact .error

theorem carries_pairArithmetic (alu : Alu) (dst : Reg) (src : Operand) (pair : Bool) :
    Carries (pairArithmetic alu dst src) (src.field? (.alu alu) pair).toList := by
  unfold pairArithmetic
  split
  next rr =>
    split
    · exact .error
    · split
      · exact .ok (.indexed _ _)
      · exact .ok (.indexed _ _)
      · exact .ok (.indexed _ _)
      · exact .ok (.plain (by simp))
      · exact .ok (.plain (by simp))
      · exact .error
  · exact .error

theorem carries_onBitPage (p : Place) (opcode : UInt8) : Carries (onBitPage p opcode) p.valueFields := by
  unfold onBitPage Place.valueFields
  cases p.displacement with
  | some d =>
    have values : [.displacement d].filter Field.isValue = [.displacement d] := rfl
    exact .ok (.between [p.index, 0xCB] [opcode ||| 6] values (by simp) (by simp [Field.size]))
  | none =>
    dsimp only
    split
    · exact .error
    · exact .ok (.plain (by simp))

theorem carries_shift (rot : Rot) (src : Operand) : Carries (shift rot src) (valueFields (.rot rot) [src]) := by
  unfold shift
  cases named : src.place? with
  | some p =>
    rw [valueFields_single, field?_of_place? named (by simp)]
    exact carries_onBitPage p _
  | none => exact .error

theorem carries_bitAccess (op : BitOp) (bit src : Operand) :
    Carries (bitAccess op bit src) (valueFields (.bit op) [bit, src]) := by
  unfold bitAccess
  cases bit with
  | imm n =>
    cases named : src.place? with
    | some p =>
      rw [valueFields_pair, field?_of_place? named (by simp)]
      intro fields h
      cases inner : onBitPage p (op.code ||| atBit3 (lowByte (n &&& 7))) with
      | error cause => simp [inner, Except.map] at h
      | ok rest =>
        simp only [inner, Except.map, Except.ok.injEq] at h
        rw [← h]
        exact (carries_onBitPage p _ rest inner).bitNumber n
    | none => exact .error
  | reg | mem | ind | idx | cond | unnamed => exact .error

/-! ## Jumps and ports -/

theorem carries_jump (op : Operand) : Carries (jump op) (valueFields .jp [op]) := by
  cases op with
  | imm v => exact .ok (.behind rfl (by simp))
  | ind rr =>
    cases rr with
    | hl => exact .ok (.plain (by simp))
    | _ => exact .error
  | reg rr =>
    cases rr with
    | hl | ix | iy => exact .ok (.plain (by simp))
    | _ => exact .error
  | idx rr d =>
    change Carries (if _ then _ else _) _
    split
    · exact .ok (.plain (by simp))
    · exact .error
  | mem | cond | unnamed => exact .error

theorem carries_exchange (x y : Operand) : Carries (exchange x y) (valueFields .ex [x, y]) := by
  unfold exchange
  split
  case h_8 => exact .error
  all_goals exact .ok (.plain (by simp))

theorem carries_stack (base : UInt8) (m : Mnemonic) (op : Operand) : Carries (stack base op) (valueFields m [op]) := by
  unfold stack
  split
  · split
    · exact .ok (.indexed _ _)
    · exact .error
  · exact .error

theorem carries_portIn : Carries (portIn dst src) (valueFields .input [dst, src]) := by
  cases dst with
  | reg rr =>
    cases src with
    | mem v =>
      cases rr with
      | a => exact .ok (.behind rfl (by simp))
      | _ => exact .error
    | ind port =>
      cases port with
      | c =>
        cases rr with
        | b | c | d | e | h | l | a | f => exact .ok (.plain (by simp))
        | _ => exact .error
      | _ => cases rr <;> exact .error
    | _ => cases rr <;> exact .error
  | _ => exact .error

theorem carries_portOut : Carries (portOut dst src) (valueFields .output [dst, src]) := by
  unfold portOut
  split
  · exact .ok (.behind rfl (by simp))
  · split
    · exact .ok (.plain (by simp))
    · exact .error
  · split
    · exact .ok (.plain (by simp))
    · exact .error
  · exact .error

end

/-! ## Operand lists -/

section
variable {f : Operand → Layout} {g : Operand → Operand → Layout}

theorem carries_oneOperand (h : ∀ x, Carries (f x) (valueFields m [x])) :
    ∀ ops, Carries (oneOperand f ops) (valueFields m ops)
  | [] | _ :: _ :: _ => .error
  | [x] => h x

theorem carries_twoOperands (h : ∀ x y, Carries (g x y) (valueFields m [x, y])) :
    ∀ ops, Carries (twoOperands g ops) (valueFields m ops)
  | [] | [_] | _ :: _ :: _ :: _ => .error
  | [x, y] => h x y

theorem carries_oneOrTwo (one : ∀ x, Carries (f x) (valueFields m [x]))
    (two : ∀ x y, Carries (g x y) (valueFields m [x, y])) : ∀ ops, Carries (oneOrTwo f g ops) (valueFields m ops)
  | [] | _ :: _ :: _ :: _ => .error
  | [x] => one x
  | [x, y] => two x y

end

theorem carries_onValue {f : Int64 → Layout} (h : ∀ v, Carries (f v) (valueFields m [.imm v])) (x : Operand) :
    Carries (onValue f x) (valueFields m [x]) := by
  cases x with
  | imm v => exact h v
  | reg | mem | ind | idx | cond | unnamed => exact .error

theorem carries_onCondition {f : Cond → Int64 → Layout}
    (h : ∀ cc v, Carries (f cc v) (valueFields m [.cond cc, .imm v])) (x y : Operand) :
    Carries (onCondition f x y) (valueFields m [x, y]) := by
  cases x with
  | cond cc =>
    cases y with
    | imm v => exact h cc v
    | reg | mem | ind | idx | cond | unnamed => exact .error
  | imm | reg | mem | ind | idx | unnamed => exact .error

theorem one_le_length_implied : ∀ op : Implied, 1 ≤ op.code.length ∧ op.code.length ≤ 2 := by
  intro op
  cases op <;> decide

/-- **The value fields of a layout are those of its operands**, in their order. -/
theorem layout_carries (m : Mnemonic) (ops : List Operand) : Carries (layout m ops) (valueFields m ops) := by
  have opcode (b : UInt8) {f : Field} (isValue : f.isValue = true) : Holds [.opcode b, f] [f] :=
    @Holds.behind [b] f isValue (by simp)
  cases m with
  | implied op =>
    cases ops with
    | nil => exact .ok (.plain (one_le_length_implied op))
    | cons => exact .error
  | alu op =>
    refine carries_oneOrTwo (fun x => ?_) (fun x y => ?_) ops
    · rw [valueFields_single]
      exact carries_arithmetic op _ x
    · cases x with
      | reg rr =>
        rw [valueFields_pair]
        dsimp only
        split
        · exact carries_pairArithmetic op rr y _
        · split
          · exact carries_arithmetic op _ y
          · exact .error
      | imm | mem | ind | idx | cond | unnamed => exact .error
  | rot op => exact carries_oneOperand (carries_shift op) ops
  | bit op => exact carries_twoOperands (carries_bitAccess op) ops
  | ld => exact carries_twoOperands carries_load ops
  | inc => exact carries_oneOperand (carries_step 0 (by decide)) ops
  | dec => exact carries_oneOperand (carries_step 1 (by decide)) ops
  | jp => exact carries_oneOrTwo carries_jump (carries_onCondition fun _ _ => .ok (opcode _ rfl)) ops
  | jr =>
    refine carries_oneOrTwo (carries_onValue fun _ => .ok (opcode _ rfl)) (carries_onCondition fun cc v => ?_) ops
    unfold jumpRelative
    split
    · exact .ok (opcode _ rfl)
    · exact .error
  | djnz => exact carries_oneOperand (carries_onValue fun _ => .ok (opcode _ rfl)) ops
  | call =>
    exact carries_oneOrTwo (carries_onValue fun _ => .ok (opcode _ rfl))
      (carries_onCondition fun _ _ => .ok (opcode _ rfl)) ops
  | ret =>
    match ops with
    | [] => exact .ok (.plain (by simp))
    | [x] =>
      cases x with
      | cond cc => exact .ok (.plain (by simp))
      | reg | imm | mem | ind | idx | unnamed => exact .error
    | x :: _ :: _ => cases x <;> exact .error
  | rst =>
    refine carries_oneOperand (carries_onValue fun v => ?_) ops
    unfold restart
    split
    · exact .ok (.plain (by simp))
    · exact .error
  | im =>
    refine carries_oneOperand (carries_onValue fun v => ?_) ops
    unfold interruptMode
    split
    · exact .ok (.plain (by simp))
    split
    · exact .ok (.plain (by simp))
    split
    · exact .ok (.plain (by simp))
    · exact .error
  | ex => exact carries_twoOperands carries_exchange ops
  | push => exact carries_oneOperand (carries_stack 0xC5 .push) ops
  | pop => exact carries_oneOperand (carries_stack 0xC1 .pop) ops
  | input =>
    refine carries_oneOrTwo (fun x => ?_) carries_portIn ops
    split
    next c => rw [c]; exact .ok (.plain (by simp))
    · exact .error
  | output => exact carries_twoOperands carries_portOut ops

/-! ## Sizes -/

theorem encode_eq_ok_iff {pc : Int64} {e : Encoded} :
    encode m pc ops = .ok e ↔ ∃ fields, layout m ops = .ok fields ∧ assembleFields pc fields = e := by
  unfold encode
  cases layout m ops <;> simp [Except.map]

theorem sizes_valueBound (bound : valueBound m ops = true) (h : layout m ops = .ok fields) :
    fields.map Field.size = if m = .rst then [1] else [1, 1] := by
  unfold valueBound at bound
  split at bound
  · match ops with
    | [] | _ :: _ :: _ => cases h
    | [x] =>
      cases x with
      | imm v =>
        change restart v = _ at h
        unfold restart at h
        split at h <;> cases h
        rfl
      | reg | mem | ind | idx | cond | unnamed => cases h
  · match ops with
    | [] | _ :: _ :: _ => cases h
    | [x] =>
      cases x with
      | imm v =>
        change interruptMode v = _ at h
        unfold interruptMode at h
        split at h
        · cases h; rfl
        split at h
        · cases h; rfl
        split at h <;> cases h
        rfl
      | reg | mem | ind | idx | cond | unnamed => cases h
  next rr d =>
    change (if rr.isIndex && d == 0 then _ else _) = Except.ok fields at h
    split at h <;> cases h
    rfl
  next v =>
    change (if v = 0 then _ else _) = Except.ok fields at h
    split at h <;> cases h
    rfl
  · cases bound

/-- **The size of an instruction does not depend on the values of its operands**: operands of the same form give equally
    many bytes, from one to four, if both give some.  Whether they give some depends on the values only for `rst`,
    `im`, `jp` and `out`. -/
theorem encode_size_of_form {m : Mnemonic} {ops ops' : List Operand} (form : ops.map Operand.erase = ops'.map Operand.erase)
    (pc pc' : Int64) :
    (∀ e e', encode m pc ops = .ok e → encode m pc' ops' = .ok e' →
      e.code.length = e'.code.length ∧ 1 ≤ e.code.length ∧ e.code.length ≤ 4) ∧
    (m ≠ .rst → m ≠ .im → m ≠ .jp → m ≠ .output →
      ((∃ e, encode m pc ops = .ok e) ↔ ∃ e', encode m pc' ops' = .ok e')) := by
  have free_iff : valueBound m ops' = valueBound m ops := by rw [← valueBound_erase, ← form, valueBound_erase]
  have same (free : valueBound m ops = false) : sizes (layout m ops) = sizes (layout m ops') := by
    rw [← sizes_layout_erase m ops free, form, sizes_layout_erase m ops' (free_iff.trans free)]
  constructor
  · intro e e' h h'
    obtain ⟨fields, laid, rfl⟩ := encode_eq_ok_iff.1 h
    obtain ⟨fields', laid', rfl⟩ := encode_eq_ok_iff.1 h'
    have equal : fields.map Field.size = fields'.map Field.size := by
      cases free : valueBound m ops with
      | true => rw [sizes_valueBound free laid, sizes_valueBound (free_iff.trans free) laid']
      | false => simpa [laid, laid'] using same free
    simp only [length_assembleFields, equal, true_and]
    exact equal ▸ (layout_carries m ops fields laid).size
  · intro noRst noIm noJp noOut
    have free : valueBound m ops = false := by
      unfold valueBound
      split
      · exact absurd rfl noRst
      · exact absurd rfl noIm
      · exact absurd rfl noJp
      · exact absurd rfl noOut
      · rfl
    have some_iff {ops : List Operand} (pc : Int64) : (∃ e, encode m pc ops = .ok e) ↔ ∃ ns, sizes (layout m ops) = .ok ns := by
      cases laid : layout m ops <;> simp [encode_eq_ok_iff, laid]
    rw [some_iff pc, some_iff pc', same free]

/-- A bit of a place, with values that fit and with values that do not. -/
theorem encode_size_of_form_bit : ∃ e e', encode (.bit .raise) 0 [.imm 3, .idx .ix 0] = .ok e ∧
    encode (.bit .raise) 100 [.imm 300, .idx .ix (-200)] = .ok e' ∧ e.code.length = e'.code.length ∧
    1 ≤ e.code.length ∧ e.code.length ≤ 4 := by
  have form : [Operand.imm 3, .idx .ix 0].map Operand.erase = [Operand.imm 300, .idx .ix (-200)].map Operand.erase := rfl
  obtain ⟨e', made⟩ := ((encode_size_of_form form 0 100).2 (by decide) (by decide) (by decide) (by decide)).1
    ⟨_, show encode (.bit .raise) 0 [.imm 3, .idx .ix 0] = .ok _ from rfl⟩
  exact ⟨_, e', rfl, made, (encode_size_of_form form 0 100).1 _ e' rfl made⟩

end Z80Asm.Cpu
