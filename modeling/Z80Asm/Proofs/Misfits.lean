import Z80Asm.Proofs.ListedCode
import Z80Asm.Proofs.ValueFields

/-!
# Values that do not fit

A displacement, a relative jump or a bit number that does not fit makes an instruction wrong; other values only lose
bits.  An instruction may have two values that do not fit, but the encoder keeps the first of them alone.
-/

namespace Z80Asm.Cpu

variable {fields : List Field} {pc : Int64} {P : Field → Prop}

/-! ## The values of an instruction -/

namespace Operand

def imm? : Operand → Option Int64
  | imm v => some v
  | _ => none

def mem? : Operand → Option Int64
  | mem v => some v
  | _ => none

def displacement? : Operand → Option Int64
  | idx _ d => some d
  | _ => none

end Operand

def immediates (ops : List Operand) : List Int64 := ops.filterMap Operand.imm?

def addresses (ops : List Operand) : List Int64 := ops.filterMap Operand.mem?

def displacements (ops : List Operand) : List Int64 := ops.filterMap Operand.displacement?

namespace Mnemonic

def targets : Mnemonic → List Operand → List Int64
  | jr, ops | djnz, ops => immediates ops
  | _, _ => []

def bitNumbers : Mnemonic → List Operand → List Int64
  | bit _, ops => immediates ops
  | _, _ => []

/-- The values of eight bits: immediates of arithmetic and of loads, and the numbers of ports. -/
def byteValues : Mnemonic → List Operand → List Int64
  | alu _, ops => immediates ops
  | ld, ops => if intoPair ops then [] else immediates ops
  | input, ops | output, ops => addresses ops
  | _, _ => []

/-- The values of sixteen bits: addresses of loads and immediates of loads into pairs, and the targets of jumps and
    calls that are not relative. -/
def wordValues : Mnemonic → List Operand → List Int64
  | ld, ops => addresses ops ++ if intoPair ops then immediates ops else []
  | jp, ops | call, ops => immediates ops
  | _, _ => []

end Mnemonic

def Outside (low high value : Int64) : Prop := value < low ∨ high < value

/-- Some value makes the instruction at `pc` wrong: a displacement, a relative jump or a bit number. -/
def IsWrong (m : Mnemonic) (pc : Int64) (ops : List Operand) : Prop :=
  (∃ d ∈ displacements ops, Outside (-128) 127 d) ∨
    (∃ t ∈ m.targets ops, Outside (-128) 127 (relativeOffset pc t)) ∨
    ∃ n ∈ m.bitNumbers ops, Outside 0 7 n

def LosesBits (m : Mnemonic) (ops : List Operand) : Prop :=
  (∃ v ∈ m.byteValues ops, Outside (-128) 255 v) ∨ ∃ v ∈ m.wordValues ops, Outside (-32768) 65535 v

instance (low high value : Int64) : Decidable (Outside low high value) :=
  inferInstanceAs (Decidable (_ ∨ _))

instance (m : Mnemonic) (pc : Int64) (ops : List Operand) : Decidable (IsWrong m pc ops) :=
  inferInstanceAs (Decidable (_ ∨ _ ∨ _))

instance (m : Mnemonic) (ops : List Operand) : Decidable (LosesBits m ops) :=
  inferInstanceAs (Decidable (_ ∨ _))

/-! ## Values that do not fit -/

theorem misfit?_ne_none_iff {value low high : Int64} {strict : Bool} :
    misfit? value low high strict ≠ none ↔ Outside low high value := by
  unfold misfit? Outside
  split <;> simp_all

theorem Field.strict_of_misfit {f : Field} {x : Misfit} (h : f.misfit? pc = some x) : x.strict = f.isStrict := by
  have strict {value low high : Int64} {strict : Bool} (h : Cpu.misfit? value low high strict = some x) :
      x.strict = strict := by
    unfold Cpu.misfit? at h
    split at h
    · cases h
      rfl
    · cases h
  cases f with
  | opcode => cases h
  | imm8 | imm16 | displacement | relative | bitNumber => exact strict h

/-- Where strict fields come first, the first value that does not fit is strict if any is. -/
theorem findSome?_strict (strictFirst : fields.Pairwise fun f g => g.isStrict = true → f.isStrict = true) :
    (∃ x, fields.findSome? (Field.misfit? pc) = some x ∧ x.strict = true) ↔
      ∃ f ∈ fields, f.isStrict = true ∧ f.misfit? pc ≠ none := by
  induction fields with
  | nil => simp
  | cons f fields ih =>
    obtain ⟨first, rest⟩ := List.pairwise_cons.1 strictFirst
    cases wrong : f.misfit? pc with
    | none => simpa [wrong] using ih rest
    | some x =>
      have strict := Field.strict_of_misfit wrong
      simp only [List.findSome?_cons, wrong, Option.some.injEq, exists_eq_left', strict, List.mem_cons]
      constructor
      · exact fun isStrict => ⟨f, .inl rfl, isStrict, by simp [wrong]⟩
      · rintro ⟨g, rfl | mem, isStrict, -⟩
        · exact isStrict
        · exact first g mem isStrict

theorem findSome?_values (pc : Int64) (fields : List Field) :
    (fields.filter Field.isValue).findSome? (Field.misfit? pc) = fields.findSome? (Field.misfit? pc) := by
  induction fields with
  | nil => rfl
  | cons f fields ih =>
    cases f with
    | opcode => exact ih
    | imm8 | imm16 | displacement | relative | bitNumber =>
      rw [List.filter_cons_of_pos rfl, List.findSome?_cons, List.findSome?_cons, ih]

section
variable {m : Mnemonic} {ops : List Operand}

theorem exists_operand_field : (∃ f ∈ valueFields m ops, P f) ↔
    (m ≠ .jp ∧ ∃ d ∈ displacements ops, P (.displacement d)) ∨
      (∃ k, m.immediateField? (intoPair ops) = some k ∧ ∃ v ∈ immediates ops, P (k v)) ∨
      ∃ k, m.addressField? = some k ∧ ∃ v ∈ addresses ops, P (k v) := by
  simp only [valueFields, displacements, immediates, addresses, List.mem_filterMap]
  constructor
  · rintro ⟨f, ⟨op, mem, is⟩, holds⟩
    cases op with
    | idx rr d =>
      by_cases jump : m = .jp
      · simp [Operand.field?, jump] at is
      · simp only [Operand.field?, jump, if_false, Option.some.injEq] at is
        exact .inl ⟨jump, d, ⟨_, mem, rfl⟩, is ▸ holds⟩
    | imm v =>
      obtain ⟨k, takes, rfl⟩ := Option.map_eq_some_iff.1 is
      exact .inr (.inl ⟨k, takes, v, ⟨_, mem, rfl⟩, holds⟩)
    | mem v =>
      obtain ⟨k, takes, rfl⟩ := Option.map_eq_some_iff.1 is
      exact .inr (.inr ⟨k, takes, v, ⟨_, mem, rfl⟩, holds⟩)
    | reg | ind | cond | unnamed => cases is
  · rintro (⟨noJump, d, ⟨op, mem, is⟩, holds⟩ | ⟨k, takes, v, ⟨op, mem, is⟩, holds⟩ | ⟨k, takes, v, ⟨op, mem, is⟩, holds⟩)
    · cases op <;> cases is
      exact ⟨_, ⟨_, mem, by simp [Operand.field?, noJump]⟩, holds⟩
    · cases op <;> cases is
      exact ⟨_, ⟨_, mem, by simp [Operand.field?, takes]⟩, holds⟩
    · cases op <;> cases is
      exact ⟨_, ⟨_, mem, by simp [Operand.field?, takes]⟩, holds⟩

theorem exists_valueFields : (∃ f ∈ valueFields m ops, P f) ↔
    (m ≠ .jp ∧ ∃ d ∈ displacements ops, P (.displacement d)) ∨ (∃ t ∈ m.targets ops, P (.relative t)) ∨
      (∃ n ∈ m.bitNumbers ops, P (.bitNumber n)) ∨ (∃ v ∈ m.byteValues ops, P (.imm8 v)) ∨
      ∃ v ∈ m.wordValues ops, P (.imm16 v) := by
  rw [exists_operand_field]
  cases m with
  | ld =>
    cases pair : intoPair ops <;> simp [Mnemonic.immediateField?, Mnemonic.addressField?, Mnemonic.targets,
      Mnemonic.bitNumbers, Mnemonic.byteValues, Mnemonic.wordValues, pair, or_and_right, exists_or, or_comm]
  | _ =>
    simp [Mnemonic.immediateField?, Mnemonic.addressField?, Mnemonic.targets, Mnemonic.bitNumbers,
      Mnemonic.byteValues, Mnemonic.wordValues]

theorem displacements_jump (h : layout .jp ops = .ok fields) : ∀ d ∈ displacements ops, d = 0 := by
  match ops with
  | [] | _ :: _ :: _ :: _ => cases h
  | [.idx rr d] =>
    change (if rr.isIndex && d == 0 then _ else _) = Except.ok fields at h
    split at h
    next zero => simpa [displacements, Operand.displacement?] using (Bool.and_eq_true_iff.1 zero).2
    · cases h
  | [.reg _] | [.imm _] | [.mem _] | [.ind _] | [.cond _] | [.unnamed _] => simp [displacements, Operand.displacement?]
  | [x, y] =>
    cases x with
    | cond =>
      cases y with
      | imm => simp [displacements, Operand.displacement?]
      | reg | mem | ind | idx | cond | unnamed => cases h
    | reg | imm | mem | ind | idx | unnamed => cases h

theorem exists_strict (h : layout m ops = .ok fields) :
    (∃ f ∈ valueFields m ops, f.isStrict = true ∧ f.misfit? pc ≠ none) ↔ IsWrong m pc ops := by
  have jump : m = .jp → ¬ ∃ d ∈ displacements ops, Outside (-128) 127 d := by
    rintro rfl ⟨d, mem, outside⟩
    rw [displacements_jump h d mem] at outside
    revert outside
    decide
  have displaced : (m ≠ .jp ∧ ∃ d ∈ displacements ops, Outside (-128) 127 d) ↔ ∃ d ∈ displacements ops, Outside (-128) 127 d :=
    and_iff_right_of_imp fun outside isJump => jump isJump outside
  simp only [exists_valueFields, IsWrong, Field.isStrict, Field.misfit?, misfit?_ne_none_iff, true_and, displaced,
    Bool.false_eq_true, false_and, and_false, exists_false, or_false]

theorem exists_loose (pc : Int64) :
    (∃ f ∈ valueFields m ops, f.isStrict = false ∧ f.misfit? pc ≠ none) ↔ LosesBits m ops := by
  simp only [exists_valueFields, LosesBits, Field.isStrict, Field.misfit?, misfit?_ne_none_iff, true_and,
    Bool.true_eq_false, false_and, and_false, exists_false, false_or]

theorem misfit_eq_none_iff (h : layout m ops = .ok fields) :
    (valueFields m ops).findSome? (Field.misfit? pc) = none ↔ ¬ IsWrong m pc ops ∧ ¬ LosesBits m ops := by
  rw [← exists_strict h, ← exists_loose pc, List.findSome?_eq_none_iff, ← not_or, ← exists_or]
  simp only [← and_or_left, ← or_and_right, Bool.eq_true_or_eq_false_self, true_and, not_exists, not_and, not_not]

end

theorem emitInstruction_diagnostics (w : Walk) (p : Pass) (node : Node) {m : Mnemonic} {args : List Arg} {e : Encoded}
    (h : encode m w.pc (w.operands p node args).1 = .ok e) :
    (w.emitInstruction p node m args).diagnostics.toList = (w.operands p node args).2.diagnostics.toList ++
      e.misfit.toList.map fun x => .of (if x.strict then .error else .warning) node.pos p.index (.misfit x) := by
  have pc : (w.operands p node args).2.pc = w.pc := (w.operands_emits p node args).pc.trans (Int64.add_zero _)
  unfold Walk.emitInstruction
  simp only [pc, h]
  cases e.misfit <;> simp [Walk.misfitWith, Walk.misfit, Walk.report, Walk.emit]

/-- **What does not fit is reported exactly**: the report is strict if the instruction is wrong, otherwise it is a lenient
    one if bits are lost, and otherwise there is none.  A pass reports it as an error if the instruction is wrong, so
    that this is never only a warning. -/
theorem encode_misfit_iff {m : Mnemonic} {pc : Int64} {ops : List Operand} {e : Encoded} (bytes : encode m pc ops = .ok e) :
    ((∃ x, e.misfit = some x ∧ x.strict = true) ↔ IsWrong m pc ops) ∧
    ((∃ x, e.misfit = some x ∧ x.strict = false) ↔ ¬ IsWrong m pc ops ∧ LosesBits m ops) ∧
    (e.misfit = none ↔ ¬ IsWrong m pc ops ∧ ¬ LosesBits m ops) ∧
    ∀ (w : Walk) (p : Pass) (node : Node) (args : List Arg), (w.operands p node args).1 = ops → w.pc = pc →
      (w.emitInstruction p node m args).diagnostics.toList = (w.operands p node args).2.diagnostics.toList ++
        e.misfit.toList.map fun x =>
          .of (if IsWrong m pc ops then .error else .warning) node.pos p.index (.misfit x) := by
  obtain ⟨fields, laid, made⟩ := encode_eq_ok_iff.1 bytes
  have held := layout_carries m ops fields laid
  have misfit : e.misfit = (valueFields m ops).findSome? (Field.misfit? pc) := by
    rw [← made, ← held.eq, findSome?_values]
    rfl
  have strict : (∃ x, e.misfit = some x ∧ x.strict = true) ↔ IsWrong m pc ops := by
    rw [misfit, findSome?_strict held.strictFirst, exists_strict laid]
  have none : e.misfit = none ↔ ¬ IsWrong m pc ops ∧ ¬ LosesBits m ops := by rw [misfit, misfit_eq_none_iff laid]
  refine ⟨strict, ?_, none, ?_⟩
  · cases found : e.misfit with
    | none => simp [none.1 found]
    | some x =>
      have wrong : x.strict = true ↔ IsWrong m pc ops := by simpa [found] using strict
      have some : ¬ (¬ IsWrong m pc ops ∧ ¬ LosesBits m ops) := mt none.2 (by simp [found])
      simp only [Option.some.injEq, exists_eq_left', ← Bool.not_eq_true, wrong]
      exact ⟨fun right => ⟨right, by_contra fun kept => some ⟨right, kept⟩⟩, And.left⟩
  · rintro w p node args rfl rfl
    rw [emitInstruction_diagnostics w p node bytes]
    cases found : e.misfit with
    | none => rfl
    | some x => simp [← strict, found]

/-- In `ld (ix+200),300` neither value fits; the displacement is reported, as an error. -/
theorem encode_misfit_iff_both : ∃ e, encode .ld 0 [.idx .ix 200, .imm 300] = .ok e ∧
    IsWrong .ld 0 [.idx .ix 200, .imm 300] ∧ LosesBits .ld [.idx .ix 200, .imm 300] ∧
    (∃ x, e.misfit = some x ∧ x.strict = true) ∧
    (Walk.emitInstruction { ledger := .new 1 } { index := 1, prev := .empty, listing := false }
      { seq := 1, pos := {}, text := [] } .ld [.idx .ix (.num 200), .imm (.num 300)]).diagnostics.toList =
        e.misfit.toList.map fun x => .of .error {} 1 (.misfit x) := by
  have bytes : encode .ld 0 [.idx .ix 200, .imm 300] = .ok _ := rfl
  have wrong : IsWrong .ld 0 [.idx .ix 200, .imm 300] := by decide
  have exact_ := encode_misfit_iff bytes
  refine ⟨_, bytes, wrong, by decide, exact_.1.2 wrong, ?_⟩
  rw [exact_.2.2.2 _ _ _ _ rfl rfl, if_pos wrong]
  rfl

end Z80Asm.Cpu
