import Z80Asm.Proofs.FixedPoint
import Z80Asm.Proofs.Outcomes
import Z80Asm.Proofs.Turns

/-!
# Blocks that nothing is done for

A block whose test fails leaves nothing in a pass but its size.  So a program with such blocks has the same
symbols and the same code, pass by pass, as the program without them.  What the blocks do change is which pass
settles the sizes, where the turns of a pass are not those of the pass before it; then one run makes a pass more
than the other one.
-/

namespace Z80Asm

open List

variable {α : Type} {program : List Statement} {S : Numbering}

/-! ## Turns and tests for definitions -/

namespace Walk.Placed
variable {R : SizeRel} {p p' : Pass}

theorem filterMap_times {see see' : Visit → Option α} {f g : Walk → Walk} {vs vs' : Walk → List Visit}
    (step : ∀ {w w'}, Placed S R w w' → Placed S R (f w) (g w'))
    (same : ∀ {w w'}, Placed S R w w' → (vs' w').filterMap see' = (vs w).filterMap see) :
    ∀ (n : Nat) {w w' : Walk}, Placed S R w w' →
      (timesVisits g vs' n w').filterMap see' = (timesVisits f vs n w).filterMap see
  | 0, _, _, _ => rfl
  | n + 1, _, _, h => by
    rw [timesVisits, timesVisits, filterMap_append, filterMap_append, same h, filterMap_times step same n (step h)]

section
variable (pass : Pass.Placed S p p') (ordered : S.Ordered) (follows : R.Follows False)
include pass ordered follows

/-- What is the same at each visit of programs at other places is the same in their visits. -/
theorem filterMap_visits {see see' : Visit → Option α}
    (same : ∀ {s s' w w'}, Statement.Placed S False s s' → Placed S R w w' → see' ⟨s', w'⟩ = see ⟨s, w⟩) :
    ∀ program' {program : List Statement}, Statement.AllPlaced S False program program' →
      ∀ {w w' : Walk}, Placed S R w w' →
        (visits p' program' w').filterMap see' = (visits p program w).filterMap see := by
  refine (Statement.tree_induction
    (P := fun s' => ∀ {s}, Statement.Placed S False s s' → ∀ {w w' : Walk}, Placed S R w w' →
      (stepVisits p' s' w').filterMap see' = (stepVisits p s w).filterMap see)
    (fun node' action s placed w w' h => ?_) (fun node' test yes' no' yes_ih no_ih s placed w w' h => ?_)
    (fun node' count body' ih s placed w w' h => ?_) (fun {program} placed w w' h => ?_)
    (fun s' rest' s_ih ih {program} placed w w' h => ?_)).2
  · have here := same placed h
    cases placed <;> simp only [stepVisits, filterMap_cons, here, filterMap_nil]
  · have here := same placed h
    cases placed with
    | @choose node _ placed _ _ _ _ _ yes_placed no_placed =>
      obtain ⟨outcome, entered⟩ := (h.enter p p' placed).test pass ordered placed test
      rw [stepVisits_choose, stepVisits_choose, filterMap_cons, filterMap_cons, here, outcome]
      by_cases taken : ((w.enter p node).test p node test).1
      · rw [if_pos taken, if_pos taken, yes_ih yes_placed entered]
      · rw [if_neg taken, if_neg taken, no_ih no_placed entered]
  · have here := same placed h
    cases placed with
    | @repeated node _ placed _ _ _ body_placed =>
      obtain ⟨rounds, entered⟩ := (h.enter p p' placed).eval pass node node' count
      rw [stepVisits_repeated, stepVisits_repeated, filterMap_cons, filterMap_cons, here, rounds]
      cases Cpu.misfit? ((w.enter p node).eval p node count).1 0 repeatLimit true with
      | some m => rfl
      | none =>
        dsimp only
        rw [filterMap_times (steps pass ordered follows body_placed) (ih body_placed) _ entered]
  · cases placed
    rfl
  · cases placed with
    | cons first others =>
      simp only [visits, h.isSome_stop]
      split
      · rfl
      · rw [filterMap_append, filterMap_append, s_ih first h, ih others (h.step pass ordered follows first)]
    | skip allowed => exact allowed.elim

/-- **The tests for definitions have the same outcomes** in programs at other places. -/
theorem branches_eq : ∀ program' {program : List Statement}, Statement.AllPlaced S False program program' →
      ∀ {w w' : Walk}, Placed S R w w' → branches p' (visits p' program' w') = branches p (visits p program w) := by
  refine filterMap_visits pass ordered follows fun placed h => ?_
  cases placed with
  | act | instruction | repeated => rfl
  | choose placed test =>
    cases test with
    | nonzero e => rfl
    | defined name negated => simp only [Visit.branch?, (h.enter p p' placed).isDefined pass ordered placed]

/-- **The same turns are taken** in programs at other places. -/
theorem turns_eq : ∀ program' {program : List Statement}, Statement.AllPlaced S False program program' →
      ∀ {w w' : Walk}, Placed S R w w' → turns p' (visits p' program' w') = turns p (visits p program w) := by
  refine filterMap_visits pass ordered follows fun placed h => ?_
  cases placed with
  | act | instruction => rfl
  | choose placed test => simp only [Visit.turn?, ((h.enter p p' placed).test pass ordered placed test).1]
  | @repeated node node' placed count =>
    simp only [Visit.turn?, ((h.enter p p' placed).eval pass node node' count).1]

end

end Walk.Placed

/-- Statements whose tests are constant have no tests for definitions. -/
theorem Statement.not_mem_of_allFixed {node : Node} {name : Text} {negated : Bool} : ∀ program,
    allFixed program = true → .choose node (.defined name negated) ∉ flattenAll program := by
  refine (tree_induction (P := fun s => s.isFixed = true → .choose node (.defined name negated) ∉ s.flatten)
    (fun node action => ?_) (fun node test yes no => ?_) (fun node count body => ?_) ?_ fun s rest => ?_).2
  · simp [flatten]
  · cases test <;> simp_all [flatten, isFixed, Test.isConstant]
  · simp_all [flatten, isFixed]
  · simp [flattenAll]
  · simp_all [flattenAll, allFixed]

theorem Walk.branches_fixed (p : Pass) (fixed : Statement.allFixed program = true) (w : Walk) :
    branches p (visits p program w) = [] := by
  refine filterMap_eq_nil_iff.2 fun v mem => ?_
  have stands := heading_of_visit p program w v mem
  obtain ⟨s, w⟩ := v
  rcases s with _ | ⟨node, ⟨e⟩ | ⟨name, negated⟩, yes, no⟩ | _
  · rfl
  · rfl
  · exact absurd stands (Statement.not_mem_of_allFixed program fixed)
  · rfl

/-! ## Passes that repeat -/

theorem Walk.redate_severities (w : Walk) (k : Nat) :
    Diagnostics.severities (w.redate k).diagnostics.toList = Diagnostics.severities w.diagnostics.toList := by
  simp [Walk.redate, Diagnostics.severities, Diagnostic.redate, Function.comp_def]

namespace Assembly

section
variable (s : Settings) (program : List Statement)

/-- The outcomes of the tests for definitions in a pass. -/
def outcomes (n : Nat) : List Bool := branches (passOf s program n) (visitsOf s program (passOf s program n))

def turnsOf (n : Nat) : List Int64 := turns (passOf s program n) (visitsOf s program (passOf s program n))

/-- Pass `n` does not change the state of a symbol. -/
def Unchanged (n : Nat) : Prop := (table s program n).diff (table s program (n - 1)) = []

end

section
variable {s : Settings} {n left : Nat} {found : Diagnostics}

theorem Settled.unchanged (settled : Settled s program n) : Unchanged s program n := settled.1

/-- **The pass after one that changes no symbol repeats it**, if the tests for definitions have the same outcomes
    again. -/
theorem walked_succ (unchanged : Unchanged s program n) (again : outcomes s program (n + 1) = outcomes s program n) :
    walked s program (n + 1) = (walked s program n).redate (n + 1) := by
  have course := (alike_of_unchanged unchanged (n + 1)).lockstep_or_fork program { ledger := predefined s }
  rw [Walk.redate_start] at course
  rcases course with inStep | parted
  · exact inStep.walk
  · exact absurd again.symm parted.forks.ne

theorem settled_succ (pos : 0 < n) (repeated : walked s program (n + 1) = (walked s program n).redate (n + 1)) :
    Settled s program (n + 1) := by
  obtain ⟨m, rfl⟩ : ∃ m, n = m + 1 := ⟨n - 1, by omega⟩
  refine ⟨?_, ?_⟩
  · rw [Nat.add_sub_cancel, table_succ, repeated, Walk.redate_ledger, table_succ]
    exact Ledger.freeze_diff_freeze _ _ _ _ _
  · rw [Nat.add_sub_cancel, sizesOf, repeated, sizesOf]
    rfl

end

/-! ## Two programs -/

def anySizes : SizeRel := fun _ _ => True

theorem anySizes_follows {skips : Prop} : anySizes.Follows skips := ⟨fun _ _ => trivial, fun _ _ _ _ => trivial⟩

theorem start_placed (s : Settings) (known : S (-1) (-1)) :
    Walk.Placed S anySizes { ledger := predefined s } { ledger := predefined s } :=
  ⟨predefined_placed s known, rfl, rfl, rfl, trivial, rfl, .none⟩

/-- Passes that read the same tables, apart from places, do the same over both programs, apart from places and
    sizes. -/
structure SameWalks (S : Numbering) (s : Settings) (program program' : List Statement) : Prop where
  known : S (-1) (-1)
  walk : ∀ {p p'}, Pass.Placed S p p' →
    Walk.Placed S anySizes (p.walk (predefined s) program) (p'.walk (predefined s) program')

namespace SameWalks
variable {s : Settings} {program' : List Statement} (h : SameWalks S s program program')
include h

theorem table (n : Nat) : Table.Placed S (table s program n) (table s program' n) := by
  induction n with
  | zero => exact (predefined_placed s h.known).freeze ..
  | succ n ih =>
    have pass : Pass.Placed S (passOf s program (n + 1)) (passOf s program' (n + 1)) := ⟨rfl, ih⟩
    exact (h.walk pass).ledger.freeze ..

theorem pass (n : Nat) : Pass.Placed S (passOf s program n) (passOf s program' n) := ⟨rfl, h.table (n - 1)⟩

/-- **Each pass does the same in both programs.** -/
theorem walked (n : Nat) : Walk.Placed S anySizes (walked s program n) (walked s program' n) := h.walk (h.pass n)

theorem going (n : Nat) : (Assembly.walked s program' n).stop = none ↔ (Assembly.walked s program n).stop = none := by
  have stop := (h.walked n).isSome_stop
  rw [← Option.isNone_iff_eq_none, ← Option.isNone_iff_eq_none, ← Option.not_isSome, ← Option.not_isSome, stop]

theorem unchanged (n : Nat) : Unchanged s program' n ↔ Unchanged s program n := by
  have same := (h.table n).diff_perm (h.table (n - 1))
  rw [Unchanged, Unchanged, ← length_eq_zero_iff, ← length_eq_zero_iff, same.length_eq]

end SameWalks

section
variable {skips : Prop} (s : Settings) {program' : List Statement} (ordered : S.Ordered) (known : S (-1) (-1))
  (placed : Statement.AllPlaced S skips program program')
include ordered known placed

theorem sameWalks_placed : SameWalks S s program program' where
  known := known
  walk pass := Walk.Placed.steps pass ordered anySizes_follows placed (start_placed s known)

/-- **A pass that takes the turns of the pass before it settles both programs or none.** -/
theorem settled_placed {n : Nat} (before : (walked s program (n + 1)).stop = none)
    (going : (walked s program (n + 2)).stop = none) (same : turnsOf s program (n + 2) = turnsOf s program (n + 1)) :
    Settled s program' (n + 2) ↔ Settled s program (n + 2) := by
  have walks := sameWalks_placed s ordered known placed
  have start : Walk.Abreast S anySizes { ledger := predefined s } { ledger := predefined s }
      { ledger := predefined s } { ledger := predefined s } :=
    ⟨start_placed s known, start_placed s known, Iff.rfl⟩
  have ends := Walk.steps_abreast (walks.pass (n + 2)) (walks.pass (n + 1)) ordered anySizes_follows program' placed
    start going before (congrArg (· ++ []) same)
  exact and_congr (walks.unchanged (n + 2)) ends.2.sizes

end

/-- Where a run comes to a pass that changes no symbol, the pass takes the same turns as the pass before it, or a
    further pass is allowed in which the tests for definitions have the same outcomes again. -/
def TurnsSettle (s : Settings) (program : List Statement) : Prop :=
  ∀ n, 0 < n → n ≤ s.passLimit → (∀ k, 0 < k → k < n → Passed s program neverCancelled k) →
    (walked s program n).stop = none → Unchanged s program n →
      (1 < n ∧ turnsOf s program n = turnsOf s program (n - 1)) ∨
        (n < s.passLimit ∧ outcomes s program (n + 1) = outcomes s program n)

/-- Where tests and counts are constant, two passes are enough. -/
theorem TurnsSettle.of_fixed {s : Settings} (fixed : Statement.allFixed program = true) (two : 1 < s.passLimit) :
    TurnsSettle s program := by
  intro n pos _ before going _
  rcases Nat.lt_or_ge 1 n with later | first
  · have going' := (before (n - 1) (by omega) (by omega)).going
    exact .inl ⟨later, Walk.turns_fixed _ _ program fixed _ _ going going'⟩
  · obtain rfl : n = 1 := by omega
    refine .inr ⟨two, ?_⟩
    rw [outcomes, outcomes, visitsOf, visitsOf, Walk.branches_fixed _ fixed, Walk.branches_fixed _ fixed]

end Assembly

/-- Runs that end in the same way, perhaps after another number of passes. -/
inductive Outcome.Agree : Outcome → Outcome → Prop
  | finished {a a' : Result} (h : a.Same { a' with passes := a.passes }) : Agree (.finished a) (.finished a')
  | outOfBounds : Agree .outOfBounds .outOfBounds

namespace Assembly

theorem final_agree {w w' : Walk} {t t' : Table} (code : w'.code = w.code) (g : Table.Placed S t t')
    (index index' : Nat) {ds ds' : Diagnostics} (reports : ds'.severities = ds.severities) :
    Outcome.Agree (.finished (final index w t ds)) (.finished (final index' w' t' ds')) :=
  .finished (.of_placed (by simp only [final, compileFault?, Diagnostics.errors_eq_of_severities reports]) rfl code
    (.some g) reports)

end Assembly

end Z80Asm
