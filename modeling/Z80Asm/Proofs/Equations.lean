import Z80Asm.Proofs.Convergence
import Z80Asm.Proofs.FinalValues

/-!
# Programs of definitions

A program that only defines constants, each under a name of its own, emits nothing and changes nothing
but its table.  A pass over it gives each constant the value that its expression has in the table of the
pass before.
-/

namespace Z80Asm

open Ledger List

structure Equation where
  node : Node
  name : Text
  value : Expr
  unlabelled : node.label = none

def Equation.statement (q : Equation) : Statement := .act q.node (.equate q.name q.value false)

def Pass.env (p : Pass) : Env := { lookup := p.prev.value?, pc := 0 }

namespace Walk

variable {w : Walk} {p : Pass}

/-- The walk goes on, and has neither assigned a variable nor emitted code. -/
structure Unmoved (w : Walk) : Prop where
  going : w.stop = none
  vars : ∀ name : Text, w.vars[name]? = none
  pc : w.pc = 0

theorem Unmoved.env (h : w.Unmoved) (p : Pass) : w.env p = p.env := by
  simp [Walk.env, Pass.env, h.vars, h.pc]

section
variable (w p) (node : Node) (address : Int64) (start : Nat)

@[simp] theorem list_ledger : (w.list p node address start).ledger = w.ledger := by
  unfold list; split <;> rfl

@[simp] theorem list_stop : (w.list p node address start).stop = w.stop := by
  unfold list; split <;> rfl

@[simp] theorem list_pc : (w.list p node address start).pc = w.pc := by
  unfold list; split <;> rfl

theorem list_clean : (w.list p node address start).Clean ↔ w.Clean := by
  unfold list; split <;> rfl

end

theorem eval_clean_iff (node : Node) (e : Expr) : (w.eval p node e).2.Clean ↔ w.Clean ∧ e.fault? (w.env p) = none := by
  rw [eval_eq]
  cases e.fault? (w.env p) with
  | none => simp [Clean, reference]
  | some fault => simpa using not_clean_fail _ p node fault

theorem eval_defines (node : Node) (e : Expr) (name : Text) :
    (w.eval p node e).2.ledger.Defines name ↔ w.ledger.Defines name := by
  rw [eval_eq]
  split <;> exact references_defines _ _ _ name

/-- **One definition**: its name gets the value of its expression, and other definitions stay. -/
theorem step_equation (p : Pass) (q : Equation) (unmoved : w.Unmoved)
    (new : ¬ w.ledger.Defines q.name) (room : ¬ w.ledger.Full) :
    (step p q.statement w).Unmoved ∧
      (step p q.statement w).ledger.limit = w.ledger.limit ∧
      (step p q.statement w).ledger.defined = w.ledger.defined + 1 ∧
      (∀ name, (step p q.statement w).ledger.Defines name ↔ q.name = name ∨ w.ledger.Defines name) ∧
      (step p q.statement w).ledger.state q.name = some (q.value.value p.env, true, .ofName q.name) ∧
      ((step p q.statement w).Clean ↔ w.Clean ∧ q.value.fault? p.env = none) := by
  have label : w.defineLabel p q.node = w := by simp only [defineLabel, q.unlabelled]
  have value : (w.eval p q.node q.value).1 = q.value.value p.env := by rw [← unmoved.env p]; rfl
  have full : ¬ (w.eval p q.node q.value).2.ledger.Full := by
    rwa [Full, eval_limit, eval_defined]
  obtain ⟨ledger, entered, limit, count, state⟩ := define_of_room p q.node
    (w.eval p q.node q.value).1 (Scope.ofName_ne_assigned q.name)
    (mt (eval_defines q.node q.value q.name).1 new) full
  rw [Equation.statement, step_act, label, act_equate, entered]
  refine ⟨⟨?_, fun name => ?_, ?_⟩, ?_, ?_, fun name => ?_, ?_, ?_⟩
  · rw [measure, list_stop, eval_stop, unmoved.going]
  · rw [measure, list_vars, eval_vars, unmoved.vars]
  · rw [measure, list_pc, eval_pc, unmoved.pc]
  · rw [measure, list_ledger, limit, eval_limit]
  · rw [measure, list_ledger, count, eval_defined]
  · rw [measure, list_ledger, defines_iff_state, state, ← eval_defines (p := p) q.node q.value name, defines_iff_state]
    by_cases same : q.name = name
    · simp [same]
    · simp [same]
  · rw [measure, list_ledger, state, if_pos rfl, value]
  · rw [← unmoved.env p, ← eval_clean_iff q.node q.value]
    exact list_clean _ p q.node w.pc w.code.size

/-- **A list of definitions**: each name gets the value of its expression, if the names are new and
    there is room for all of them. -/
theorem steps_equations (p : Pass) (qs : List Equation) (nodup : (qs.map (·.name)).Nodup) :
    ∀ w : Walk, w.Unmoved → (∀ q ∈ qs, ¬ w.ledger.Defines q.name) →
      (w.ledger.defined + qs.length : Int) ≤ w.ledger.limit →
      (steps p (qs.map (·.statement)) w).Unmoved ∧
        (∀ q ∈ qs, (steps p (qs.map (·.statement)) w).ledger.state q.name =
          some (q.value.value p.env, true, .ofName q.name)) ∧
        ((steps p (qs.map (·.statement)) w).Clean ↔ w.Clean ∧ ∀ q ∈ qs, q.value.fault? p.env = none) := by
  induction qs with
  | nil =>
    intro w unmoved _ _
    simp [steps, unmoved]
  | cons q rest ih =>
    intro w unmoved new room
    rw [map_cons, nodup_cons] at nodup
    rw [length_cons] at room
    obtain ⟨moved, limit, count, defines, state, clean⟩ := step_equation p q unmoved
      (new q mem_cons_self) (by unfold Full; omega)
    have fresh : ∀ q' ∈ rest, ¬ (step p q.statement w).ledger.Defines q'.name := by
      intro q' mem known
      rcases (defines q'.name).1 known with same | old
      · exact nodup.1 (same ▸ mem_map_of_mem mem)
      · exact new q' (mem_cons_of_mem _ mem) old
    obtain ⟨final, states, all_clean⟩ := ih nodup.2 (step p q.statement w) moved fresh
      (by rw [limit, count]; push_cast; omega)
    rw [map_cons, steps_cons_of_none unmoved.going]
    refine ⟨final, ?_, ?_⟩
    · rw [forall_mem_cons]
      refine ⟨?_, states⟩
      -- what is defined once stays as it is
      obtain ⟨entry, found, e⟩ := Option.map_eq_some_iff.1 state
      simp only [Prod.mk.injEq] at e
      have kept := (steps_moves p (rest.map (·.statement)) _).constant found e.2.1
        (by rw [e.2.2]; exact Scope.ofName_ne_assigned _)
      simp [Ledger.state, kept, e]
    · rw [all_clean, clean, forall_mem_cons, and_assoc]

end Walk

namespace Assembly

/-- Nothing is predefined, the names are different, and there may be so many of them. -/
structure Admits (s : Settings) (qs : List Equation) : Prop where
  unstocked : s.predefined = []
  nodup : (qs.map (·.name)).Nodup
  room : (qs.length : Int) ≤ s.labelLimit

namespace Admits

variable {s : Settings} {qs : List Equation} (admits : Admits s qs)
include admits

theorem predefined_eq : predefined s = .new s.labelLimit := by
  have none : Sorted.entries s.predefined = [] := by rw [admits.unstocked]; rfl
  rw [predefined, none, foldl_nil]

theorem walked_equations (n : Nat) :
    (walked s (qs.map (·.statement)) n).Unmoved ∧
      (∀ q ∈ qs, (walked s (qs.map (·.statement)) n).ledger.state q.name =
        some (q.value.value (passOf s (qs.map (·.statement)) n).env, true, .ofName q.name)) ∧
      ((walked s (qs.map (·.statement)) n).Clean ↔
        ∀ q ∈ qs, q.value.fault? (passOf s (qs.map (·.statement)) n).env = none) := by
  have clean : ({ ledger := predefined s } : Walk).Clean := by simp [Walk.Clean]
  have start := Walk.steps_equations (passOf s (qs.map (·.statement)) n) qs admits.nodup
    { ledger := predefined s } ⟨rfl, by simp, rfl⟩
    (by simp [admits.predefined_eq, new, Defines])
    (by simpa [admits.predefined_eq, new] using admits.room)
  rwa [and_iff_right clean] at start

theorem table_equation {q : Equation} (mem : q ∈ qs) (n : Nat) :
    ∃ x, (table s (qs.map (·.statement)) (n + 1)).get? q.name = some x ∧ x.defined = true ∧
      x.scope = .ofName q.name ∧
      x.value = q.value.value { lookup := (table s (qs.map (·.statement)) n).value?, pc := 0 } := by
  obtain ⟨x, entry, e⟩ := Option.map_eq_some_iff.1 ((admits.walked_equations (n + 1)).2.1 q mem)
  simp only [Prod.mk.injEq] at e
  refine ⟨_, by rw [table_get? n.succ_pos, entry]; rfl, ?_, ?_, ?_⟩
  · rw [datedSymbol_defined, e.2.1]
  · rw [datedSymbol_scope, e.2.2]
  · rw [datedSymbol_value, e.1]
    rfl

theorem table_other {name : Text} (other : ∀ q ∈ qs, q.name ≠ name) (n : Nat) :
    (table s (qs.map (·.statement)) n).value? name = none := by
  refine table_value?_of_undefined ?_ n name ⟨?_, ?_⟩
  · intro statement mem
    obtain ⟨q, -, rfl⟩ := List.mem_map.1 mem
    rfl
  · simp [admits.predefined_eq, new, Defines]
  · intro statement mem
    obtain ⟨q, known, rfl⟩ := List.mem_map.1 mem
    rw [Equation.statement, Statement.isSome_defines?_act, q.unlabelled]
    rintro (label | ⟨value, same⟩)
    · cases label
    · cases same
      exact other q known rfl

theorem settled_numbers (numbers : ∀ q ∈ qs, q.value.names = []) : Settled s (qs.map (·.statement)) 2 := by
  have steady : ∀ statement ∈ qs.map (·.statement), statement.isSteady = true := by
    intro statement mem
    obtain ⟨q, -, rfl⟩ := List.mem_map.1 mem
    rfl
  have independent : ∀ name, references (qs.map (·.statement)) name = [] := by
    intro name
    rw [references]
    cases found : (qs.map (·.statement)).findSome? (Statement.defines? name) with
    | none => rfl
    | some names =>
      obtain ⟨statement, mem, defines⟩ := exists_of_findSome?_eq_some found
      obtain ⟨q, known, rfl⟩ := List.mem_map.1 mem
      by_cases same : q.name = name
      · simpa [Equation.statement, Statement.defines?, q.unlabelled, same, numbers q known, eq_comm] using defines
      · simp [Equation.statement, Statement.defines?, q.unlabelled, same] at defines
  have nothing : ∀ name, False → (table s (qs.map (·.statement)) 0).agreeOn
      (table s (qs.map (·.statement)) 1) name = true := fun _ h => h.elim
  have based : ∀ name, True → ∀ x ∈ references (qs.map (·.statement)) name, False := by
    intro name _ x mem
    simp [independent name] at mem
  obtain ⟨agree, sizes⟩ := table_agreeOn_succ steady (admits.walked_equations 1).1.going nothing based
  refine ⟨Table.diff_eq_nil_iff.2 fun name => ?_, sizes.symm⟩
  rw [Table.agreeOn_comm]
  exact agree name trivial

/-- **A program that defines numbers is stable** after at most two passes. -/
theorem resolve_numbers (numbers : ∀ q ∈ qs, ∃ value, q.value = .num value)
    (passes : qs = [] ∨ 2 ≤ s.passLimit) {found : Diagnostics} (quiet : ∀ d ∈ found, d.isError = false) :
    ∃ n r, resolve s neverCancelled (qs.map (·.statement)) found (s.passLimit - 1) 1
        (table s (qs.map (·.statement)) 0) (sizesOf s (qs.map (·.statement)) 0) = .finished r ∧
      r.state = .stable ∧ r.symbols = some (table s (qs.map (·.statement)) (n + 1)) := by
  have clean (n : Nat) : (walked s (qs.map (·.statement)) n).Clean := by
    refine (admits.walked_equations n).2.2.2 fun q mem => ?_
    obtain ⟨value, e⟩ := numbers q mem
    rw [e]
    rfl
  have settled : Settled s (qs.map (·.statement)) (if qs = [] then 1 else 2) := by
    by_cases none : qs = []
    · subst none
      refine ⟨Table.diff_eq_nil_iff.2 fun name => ?_, rfl⟩
      exact freeze_agreeOn_freeze _ _ _ _ rfl
    · rw [if_neg none]
      refine admits.settled_numbers fun q mem => ?_
      obtain ⟨value, e⟩ := numbers q mem
      rw [e]
      rfl
  obtain ⟨m, pos, le, before, ends⟩ := resolve_ending s (qs.map (·.statement)) neverCancelled found (s.passLimit - 1) 0
  obtain ⟨n, rfl⟩ : ∃ n, m = n + 1 := ⟨m - 1, by omega⟩
  have going : (walked s (qs.map (·.statement)) (n + 1)).stop = none := (clean (n + 1)).1
  generalize resolve s neverCancelled (qs.map (·.statement)) found (s.passLimit - 1) (0 + 1)
    (table s (qs.map (·.statement)) 0) (sizesOf s (qs.map (·.statement)) 0) = outcome at ends ⊢
  cases ends with
  | cancelled off => cases off
  | outOfBounds stop => rw [going] at stop; cases stop
  | limit stop => rw [going] at stop; cases stop
  | settled _ _ =>
    refine ⟨n, _, rfl, ?_, rfl⟩
    have fine : ∀ d ∈ found ++ (walked s (qs.map (·.statement)) (n + 1)).diagnostics.toList, d.isError = false := by
      intro d mem
      rcases mem_append.1 mem with mem | mem
      · exact quiet d mem
      · exact (clean (n + 1)).2 d mem
    simp only [Result.state, final, compileFault?_eq_none_iff.2 fine, State.ofFault]
  | exhausted _ unsettled last =>
    -- the run would have ended at the settled pass, which is allowed
    exfalso
    by_cases none : qs = []
    · rw [if_pos none] at settled
      rcases Nat.eq_zero_or_pos n with rfl | later
      · exact unsettled settled
      · exact (before 1 (by omega) (by omega)).unsettled settled
    · rw [if_neg none] at settled
      have two := passes.resolve_left none
      rcases Nat.lt_trichotomy n 1 with small | rfl | later
      · omega
      · exact unsettled settled
      · exact (before 2 (by omega) (by omega)).unsettled settled

end Admits

end Assembly

end Z80Asm
