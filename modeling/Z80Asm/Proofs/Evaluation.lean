import Mathlib.Tactic.Common
import Z80Asm.Expr

/-!
# Failures of expressions

An expression is evaluated to the end even where something in it fails.  Its failure is that of the first node that
fails by itself, in the order in which the nodes are evaluated, and its value is the one that it has with a zero in the
place of each such node.
-/

namespace Z80Asm

/-- The arithmetic operations on integers without bounds. -/
def BinaryOp.integer? : BinaryOp → Option (Int → Int → Int)
  | add => some (· + ·)
  | sub => some (· - ·)
  | mul => some (· * ·)
  | div => some Int.tdiv
  | mod => some Int.tmod
  | _ => none

namespace Expr

/-- The expressions inside an expression, itself included, in the order of their evaluation: operands come before the
    operation, the left one first. -/
def nodes : Expr → List Expr
  | unary op x => x.nodes ++ [unary op x]
  | binary op x y => x.nodes ++ y.nodes ++ [binary op x y]
  | e => [e]

/-- What fails at the root of an expression. -/
def ownFault? (env : Env) : Expr → Option Fault
  | sym name => if env.lookup name = none then some (.labelMissing name) else none
  | binary op _ y => if op.divides = true ∧ y.value env = 0 then some (.plain .divideByZero) else none
  | _ => none

/-- The expression with a zero in the place of each node that fails by itself. -/
def zeroed (env : Env) : Expr → Expr
  | sym name => if ((sym name).ownFault? env).isSome then num 0 else sym name
  | unary op x => unary op (x.zeroed env)
  | binary op x y =>
    if ((binary op x y).ownFault? env).isSome then num 0 else binary op (x.zeroed env) (y.zeroed env)
  | e => e

variable (env : Env)

theorem fault?_eq_findSome? (e : Expr) : e.fault? env = e.nodes.findSome? (ownFault? env) := by
  induction e with
  | num | pc => rfl
  | sym name => cases h : env.lookup name <;> simp [fault?, nodes, ownFault?, h]
  | unary op x ih => simp [fault?, nodes, ownFault?, ih]
  | binary op x y x_ih y_ih =>
    simp [fault?, nodes, ownFault?, x_ih, y_ih, List.findSome?_append, Option.or_assoc]

theorem sym_mem_nodes_iff (e : Expr) (name : Text) : sym name ∈ e.nodes ↔ name ∈ e.names := by
  induction e with
  | num | pc | sym => simp [nodes, names]
  | unary op x ih => simp [nodes, names, ih]
  | binary op x y x_ih y_ih => simp [nodes, names, x_ih, y_ih]

theorem fault?_eq_none_iff (e : Expr) : e.fault? env = none ↔
    (∀ name ∈ e.names, (env.lookup name).isSome) ∧
      ∀ op x y, binary op x y ∈ e.nodes → op.divides = true → y.value env ≠ 0 := by
  rw [fault?_eq_findSome?, List.findSome?_eq_none_iff]
  constructor
  · refine fun fine => ⟨fun name mem => ?_, fun op x y mem divides zero => ?_⟩
    · simpa [ownFault?, Option.isSome_iff_ne_none] using fine _ ((sym_mem_nodes_iff e name).2 mem)
    · simpa [ownFault?, divides, zero] using fine _ mem
  · rintro ⟨known, nonzero⟩ node mem
    cases node with
    | num | pc | unary => rfl
    | sym name => simpa [ownFault?, Option.isSome_iff_ne_none] using known name ((sym_mem_nodes_iff e name).1 mem)
    | binary op x y => simpa [ownFault?] using nonzero op x y mem

theorem apply_zero {op : BinaryOp} (divides : op.divides = true) (x : Int64) : op.apply x 0 = 0 := by
  cases op <;> first | rfl | cases divides

theorem zeroed_value_fault? (e : Expr) : (e.zeroed env).value env = e.value env ∧ (e.zeroed env).fault? env = none := by
  induction e with
  | num | pc => exact ⟨rfl, rfl⟩
  | sym name => cases h : env.lookup name <;> simp [zeroed, ownFault?, value, fault?, h]
  | unary op x ih => exact ⟨congrArg op.apply ih.1, ih.2⟩
  | binary op x y x_ih y_ih =>
    by_cases fails : op.divides = true ∧ y.value env = 0
    · simp [zeroed, ownFault?, fails, value, fault?, apply_zero fails.1]
    · simp [zeroed, ownFault?, fails, value, fault?, x_ih, y_ih, -not_and]

/-- The arithmetic operations wrap around at 64 bits, so the least number divided by `-1` is itself. -/
theorem toInt_value_binary {op : BinaryOp} {f : Int → Int → Int} (isInteger : op.integer? = some f) (x y : Expr)
    (fine : (binary op x y).ownFault? env = none) :
    ((binary op x y).value env).toInt = (f (x.value env).toInt (y.value env).toInt).bmod Int64.size := by
  cases op with
  | add | sub | mul =>
    cases isInteger
    simp [value, BinaryOp.apply]
  | div | mod =>
    cases isInteger
    have nonzero : y.value env ≠ 0 := by simpa [ownFault?, BinaryOp.divides] using fine
    simp [value, BinaryOp.apply, nonzero, ← Int64.toInt_mod]
  | _ => cases isInteger

/-- **An expression fails exactly if a name in it has no value or a divisor is zero**, and then as the first node that
    fails by itself.  Its value counts such nodes as zero, and each operation is that of integers, wrapped around. -/
theorem evaluation_faults (e : Expr) :
    (e.fault? env = none ↔ (∀ name ∈ e.names, (env.lookup name).isSome) ∧
      ∀ op x y, binary op x y ∈ e.nodes → op.divides = true → y.value env ≠ 0) ∧
    e.fault? env = e.nodes.findSome? (ownFault? env) ∧
    (e.zeroed env).value env = e.value env ∧ (e.zeroed env).fault? env = none ∧
    ∀ op x y f, binary op x y ∈ e.nodes → (binary op x y).ownFault? env = none → op.integer? = some f →
      ((binary op x y).value env).toInt = (f (x.value env).toInt (y.value env).toInt).bmod Int64.size :=
  ⟨fault?_eq_none_iff env e, fault?_eq_findSome? env e, (zeroed_value_fault? env e).1, (zeroed_value_fault? env e).2,
    fun _ x y _ _ fine isInteger => toInt_value_binary env isInteger x y fine⟩

/-- A missing divisor is reported before the division by zero that it causes; the least number is divided by `-1`. -/
theorem evaluation_faults_divisions :
    let env : Env := { lookup := fun _ => none, pc := .minValue }
    let e : Expr := binary .add (binary .div (num 1) (sym (bytes "a"))) (binary .div pc (num (-1)))
    e.fault? env = some (.labelMissing (bytes "a")) ∧ e.value env = .minValue := by
  intro env e
  obtain ⟨-, first, -, -, wrapped⟩ := evaluation_faults env e
  have sum := wrapped .add _ _ _ (List.mem_append_right _ List.mem_cons_self) rfl rfl
  exact ⟨first.trans rfl, Int64.toInt_inj.1 (sum.trans (by decide))⟩

end Expr

end Z80Asm
