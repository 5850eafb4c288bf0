import Z80Asm.Proofs.Lockstep
import Z80Asm.Proofs.Passes

/-!
# Is the last pass a fixed point?

A stable run ends with a table that reads like the one before it: the same names with the same values.
One more pass that reads the final table then repeats the last pass, with one exception.  A test for a
definition also asks whether the name is defined before the test, and the place of a definition is no
part of what the two tables have in common.
-/

namespace Z80Asm.Assembly

open Walk

def further (s : Settings) (t : Table) (k : Nat) : Pass := { index := k, prev := t, listing := s.listing }

/-- A further pass, which reads the table `t`, repeats the result of pass `n`: it gives the same code and
    the same table without an error, and every test for a definition has the same outcome again. -/
structure Repeats (s : Settings) (program : List Statement) (n : Nat) (r : Result) (t : Table)
    (k : Nat) : Prop where
  clean : ((further s t k).walk (predefined s) program).Clean
  code : ((further s t k).walk (predefined s) program).code = r.code
  table : (((further s t k).walk (predefined s) program).ledger.freeze t k).diff t = []
  tests : branches (further s t k) (visitsOf s program (further s t k)) =
    branches (passOf s program n) (visitsOf s program (passOf s program n))

variable {s : Settings} {program : List Statement} {n : Nat} {r : Result}

/-- Past a pass that changes no symbol, the tables before and after it give the same values. -/
theorem alike_of_unchanged (unchanged : (table s program n).diff (table s program (n - 1)) = []) (k : Nat) :
    (passOf s program n).Alike (further s (table s program n) k) where
  listing := rfl
  value name := Table.value?_eq_of_agreeOn (by rw [Table.agreeOn_comm]; exact Table.diff_eq_nil_iff.1 unchanged name)
  scripted := (Table.definedList_eq_of_agreeOn (table_named s program n)
    (table_named s program (n - 1)) (Table.diff_eq_nil_iff.1 unchanged)).symm

theorem Settled.alike (settled : Settled s program n) (k : Nat) :
    (passOf s program n).Alike (further s (table s program n) k) := alike_of_unchanged settled.1 k

theorem Converged.repeats (h : Converged s program n r) {k : Nat}
    (inStep : InStep (passOf s program n) (further s (table s program n) k)
      (visitsOf s program (passOf s program n))
      (visitsOf s program (further s (table s program n) k)) (walked s program n)
      ((further s (table s program n) k).walk (predefined s) program)) :
    Repeats s program n r (table s program n) k where
  clean := by rw [inStep.walk]; exact redate_clean h.clean
  code := by rw [inStep.walk, h.code]; rfl
  table := by
    obtain ⟨m, rfl⟩ : ∃ m, n = m + 1 := ⟨n - 1, by have := h.pos; omega⟩
    rw [inStep.walk, redate_ledger, table_succ]
    exact Ledger.freeze_diff_freeze _ _ _ _ _
  tests := (h.settled.alike k).branches_eq inStep

theorem Converged.repeats_iff (h : Converged s program n r) (k : Nat) :
    Repeats s program n r (table s program n) k ↔
      ∀ v ∈ visitsOf s program (passOf s program n), v.TestsAlike (table s program (n - 1)) (table s program n) := by
  have course : Course (passOf s program n) (further s (table s program n) k)
      (visitsOf s program (passOf s program n))
      (visitsOf s program (further s (table s program n) k)) (walked s program n)
      ((further s (table s program n) k).walk (predefined s) program) := by
    have := (h.settled.alike k).lockstep_or_fork program { ledger := predefined s }
    rwa [redate_start] at this
  constructor
  · intro repeated
    rcases course with inStep | parted
    · exact inStep.tests
    · -- the code may be the same on both branches, but the outcomes of the tests are not
      exact absurd repeated.tests.symm parted.forks.ne
  · intro tests
    rcases course with inStep | parted
    · exact h.repeats inStep
    · obtain ⟨v, hv, differs⟩ := parted.tests
      exact absurd (tests v hv) differs

/-- **A further pass repeats the result of a stable run** if and only if the tests for definitions in its
    last pass do not depend on which of the last two tables tells where a name is defined. -/
theorem another_pass_repeats_iff {s : Settings} {cancelled : Nat → Bool} {file data : Text} {r : Result}
    (run : assembleText s cancelled file data = .finished r) (stable : r.state = .stable) (k : Nat) :
    ∃ t, r.symbols = some t ∧
      (Repeats s (programOf s file data) r.passes r t k ↔
        ∀ v ∈ visitsOf s (programOf s file data) (passOf s (programOf s file data) r.passes),
          v.TestsAlike (table s (programOf s file data) (r.passes - 1)) t) := by
  have converged := stable_converged run stable
  exact ⟨_, converged.symbols, converged.repeats_iff k⟩

/-- A source that tests for a constant before and after its definition, and that needs four passes. -/
def forwardSource : Text := bytes
  " ifdef X\n db 1\n endif\nX equ finish-start\nstart: ifdef X\n dw finish\n endif\nfinish:\n"

theorem another_pass_repeats_forward : ∃ r t,
    assembleText .bare neverCancelled (bytes "a.asm") forwardSource = .finished r ∧
      r.state = .stable ∧ r.symbols = some t ∧
      Repeats .bare (programOf .bare (bytes "a.asm") forwardSource) r.passes r t (r.passes + 1) := by
  obtain ⟨r, run, h⟩ := Outcome.exists_of_any
    (by decide +kernel : (assembleText .bare neverCancelled (bytes "a.asm") forwardSource).any
      (fun r => r.state = .stable ∧ r.passes = 4) = true)
  obtain ⟨stable, passes⟩ := of_decide_eq_true h
  obtain ⟨t, symbols, repeats_iff⟩ := another_pass_repeats_iff run stable (r.passes + 1)
  refine ⟨r, t, run, stable, symbols, repeats_iff.2 ?_⟩
  have last := (stable_converged run stable).symbols
  rw [symbols, passes, Option.some_inj] at last
  rw [passes, last]
  decide +kernel

/-- A source whose second pass defines a constant in another place than its first one. -/
def movingSource : Text := bytes (" if later\n assert 1\n else\nX equ 1\n endif\n ifdef X\n db 1\n"
  ++ " else\n db 2\n endif\n if later\nX equ 1\n else\n assert 1\n endif\nlater equ 1\n")

/-- A stable run after which another pass would give other code. -/
theorem another_pass_differs : ∃ r t,
    assembleText .bare neverCancelled (bytes "test.asm") movingSource = .finished r ∧
      r.state = .stable ∧ r.symbols = some t ∧ r.code = #[1] ∧
      ((further .bare t (r.passes + 1)).walk (predefined .bare)
        (programOf .bare (bytes "test.asm") movingSource)).code = #[2] := by
  obtain ⟨r, run, h⟩ := Outcome.exists_of_any
    (by decide +kernel : (assembleText .bare neverCancelled (bytes "test.asm") movingSource).any
      (fun r => r.state = .stable ∧ r.code = #[1] ∧ r.symbols.any fun t =>
        ((further .bare t (r.passes + 1)).walk (predefined .bare)
          (programOf .bare (bytes "test.asm") movingSource)).code = #[2]) = true)
  obtain ⟨stable, code, next⟩ := of_decide_eq_true h
  obtain ⟨t, symbols, other⟩ := (Option.any_eq_true _ _).1 next
  exact ⟨r, t, run, stable, symbols, code, of_decide_eq_true other⟩

end Z80Asm.Assembly
