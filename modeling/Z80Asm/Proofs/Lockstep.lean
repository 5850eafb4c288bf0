import Mathlib.Data.List.Basic
import Z80Asm.Proofs.Trace

/-!
# Walks in lockstep

Two passes that find the same values do the same, up to the pass that their diagnostics name, until a
test for a definition has different outcomes: it is the only thing that reads where a symbol was
defined.
-/

namespace Z80Asm

open List

variable {vs vs' us us' : List Visit} {bs cs : List Bool} {v : Visit} {w w' : Walk} {t u : Table}
  {no yes : List Statement} {node : Node} {name : Text} {negated : Bool}

structure Pass.Alike (p q : Pass) : Prop where
  listing : p.listing = q.listing
  value : ∀ name, p.prev.value? name = q.prev.value? name
  scripted : p.prev.definedList.map (fun s => (s.name, s.value.toInt)) =
    q.prev.definedList.map fun s => (s.name, s.value.toInt)

/-- The diagnostic that another pass would have made. -/
def Diagnostic.redate (k : Nat) (d : Diagnostic) : Diagnostic := { d with pass := k }

def Stop.redate (k : Nat) : Stop → Stop
  | limit d => limit (d.redate k)
  | outOfBounds => outOfBounds

namespace Walk

/-- The walk that another pass would have made. -/
def redate (w : Walk) (k : Nat) : Walk :=
  { w with diagnostics := w.diagnostics.map (.redate k), stop := w.stop.map (.redate k) }

section
variable (w : Walk) (p q : Pass) (node : Node) (severity : Severity) (fault : Fault)

@[simp] theorem redate_pc (k : Nat) : (w.redate k).pc = w.pc := rfl

@[simp] theorem redate_code (k : Nat) : (w.redate k).code = w.code := rfl

@[simp] theorem redate_vars (k : Nat) : (w.redate k).vars = w.vars := rfl

@[simp] theorem redate_ledger (k : Nat) : (w.redate k).ledger = w.ledger := rfl

@[simp] theorem redate_start (ledger : Ledger) (k : Nat) : ({ ledger } : Walk).redate k = { ledger } := by simp [redate]

@[simp] theorem redate_isSome_stop (k : Nat) : (w.redate k).stop.isSome = w.stop.isSome := by simp [redate]

theorem report_redate :
    (w.redate q.index).report q node severity fault = (w.report p node severity fault).redate q.index := by
  simp [report, redate, Diagnostic.redate, Diagnostic.of]

theorem fail_redate : (w.redate q.index).fail q node fault = (w.fail p node fault).redate q.index :=
  w.report_redate p q node .error fault

theorem misfit_redate (m : Cpu.Misfit) : (w.redate q.index).misfit q node m = (w.misfit p node m).redate q.index :=
  w.report_redate p q node _ (.misfit m)

theorem define_redate (name : Text) (value : Int64) (scope : Scope) :
    (w.redate q.index).define q node name value scope = (w.define p node name value scope).redate q.index := by
  have assign : (w.redate q.index).assign name value scope = (w.assign name value scope).redate q.index := by
    unfold Walk.assign; split <;> rfl
  rw [define_eq, define_eq, assign, redate_ledger]
  split
  · rfl
  · split
    · rfl
    · exact fail_redate _ p q node _

theorem defineLabel_redate : (w.redate q.index).defineLabel q node = (w.defineLabel p node).redate q.index := by
  unfold defineLabel
  split
  · exact w.define_redate p q node _ _ _
  · rfl

end

theorem foldl_redate {α : Type} {f g : Walk → α → Walk} {k : Nat}
    (h : ∀ w a, g (w.redate k) a = (f w a).redate k) (as : List α) (w : Walk) :
    as.foldl g (w.redate k) = (as.foldl f w).redate k := by
  induction as generalizing w with
  | nil => rfl
  | cons a as ih => rw [foldl_cons, h, ih, foldl_cons]

theorem redate_clean {k : Nat} (clean : w.Clean) : (w.redate k).Clean := by
  refine ⟨by simp [redate, clean.1], fun d hd => ?_⟩
  simp only [redate, Array.toList_map, List.mem_map] at hd
  obtain ⟨d, hd, rfl⟩ := hd
  exact clean.2 d hd

end Walk

namespace Pass.Alike

open Walk

variable {p q : Pass} (alike : p.Alike q) (w : Walk) (node : Node)
include alike

theorem env : (w.redate q.index).env q = w.env p := by
  unfold Walk.env
  simp only [redate_vars, redate_pc, alike.value]

theorem eval (e : Expr) :
    (w.redate q.index).eval q node e = ((w.eval p node e).1, (w.eval p node e).2.redate q.index) := by
  refine Prod.ext ?_ ?_
  · change e.value ((w.redate q.index).env q) = e.value (w.env p)
    rw [alike.env]
  · rw [eval_eq, eval_eq, alike.env]
    split
    · exact (w.reference node.pos _).fail_redate p q node _
    · rfl

theorem list (address : Int64) (start : Nat) :
    (w.redate q.index).list q node address start = (w.list p node address start).redate q.index := by
  unfold Walk.list
  rw [← alike.listing]
  split <;> rfl

theorem enter : (w.redate q.index).enter q node = (w.enter p node).redate q.index := by
  unfold Walk.enter
  rw [redate_pc, redate_code, alike.list, defineLabel_redate _ p q]

theorem runScript (source : Text) :
    (w.redate q.index).runScript q node source = (w.runScript p node source).redate q.index := by
  have constants : (w.redate q.index).scriptConstants q = w.scriptConstants p := by
    simp only [scriptConstants, redate_vars, alike.scripted]
  have scripted : ∀ (w : Walk) (constant : Text × Int),
      defineScripted q node (w.redate q.index) constant = (defineScripted p node w constant).redate q.index := by
    intro w constant
    simp only [defineScripted]
    split
    · exact w.define_redate p q node _ _ _
    · exact w.fail_redate p q node _
  simp only [Walk.runScript, constants, redate_pc]
  split
  · exact w.fail_redate p q node _
  · exact foldl_redate scripted _ (w.emit _)

theorem act (action : Action) : (w.redate q.index).act q node action = (w.act p node action).redate q.index := by
  have kept : Congruence (fun w w' => w' = w.redate q.index) id (fun _ => True) p q node node := by
    refine ⟨?_, ?_, ?_, ?_, ?_⟩
    · rintro w _ rfl; rfl
    · rintro w _ code rfl; rfl
    · rintro w _ severity fault rfl; exact w.report_redate p q node severity fault
    · rintro w _ rfl; exact w.fail_redate p q node _
    · rintro w _ e - rfl; rw [id, alike.eval]; exact ⟨rfl, rfl⟩
  cases defines : action.defines with
  | false =>
    refine kept.act_same rfl defines (fun _ _ => trivial) ?_ ?_
    · rintro w _ pc rfl; rfl
    · rintro w _ rfl; rfl
  | true =>
    cases action with
    | equate name value assigned => simp only [Walk.act, alike.eval, define_redate _ p q]
    | script source => exact alike.runScript w node source
    | _ => cases defines

theorem step_act (action : Action) :
    step q (.act node action) (w.redate q.index) = (step p (.act node action) w).redate q.index := by
  rw [Walk.step_act, Walk.step_act, defineLabel_redate _ p q, alike.act, redate_pc, redate_code, alike.list]
  rfl

end Pass.Alike

/-! ## Tests for definitions -/

def Table.definesBefore (t : Table) (node : Node) (name : Text) : Bool :=
  match t.get? name with
  | some s => s.defined && s.seq < node.seq
  | none => false

theorem Walk.isDefined_eq (w : Walk) (p : Pass) (node : Node) (name : Text) :
    w.isDefined p node name = (w.vars.contains name || p.prev.definesBefore node name) := rfl

namespace Visit

/-- The visit of another pass at the same statement. -/
def redate (v : Visit) (k : Nat) : Visit := { v with walk := v.walk.redate k }

/-- The name for whose definition the statement tests, unless it is a variable. -/
def tested? (v : Visit) : Option (Node × Text) :=
  match v.statement with
  | .choose node (.defined name _) _ _ => if name ∈ v.walk.vars then none else some (node, name)
  | _ => none

/-- If the statement tests for the definition of a name that is no variable, both tables have it as
    defined before, or none has. -/
def TestsAlike (t u : Table) (v : Visit) : Prop :=
  ∀ test ∈ v.tested?, t.definesBefore test.1 test.2 = u.definesBefore test.1 test.2

instance (t u : Table) : DecidablePred (TestsAlike t u) :=
  fun v => Option.decidableForallMem v.tested?

theorem testsAlike_of_untested (h : v.tested? = none) : v.TestsAlike t u := by
  simp [TestsAlike, h]

theorem testsAlike_defined :
    TestsAlike t u ⟨.choose node (.defined name negated) yes no, w⟩ ↔
      (name ∉ w.vars → t.definesBefore node name = u.definesBefore node name) := by
  by_cases var : name ∈ w.vars <;> simp [TestsAlike, tested?, var]

end Visit

/-- The outcomes of the tests for definitions, in order. -/
def branches (p : Pass) (visits : List Visit) : List Bool := visits.filterMap (Visit.branch? p)

theorem branches_append (p : Pass) (us vs : List Visit) : branches p (us ++ vs) = branches p us ++ branches p vs :=
  filterMap_append

/-- Two courses of tests that part at some test. -/
def Forks (bs cs : List Bool) : Prop :=
  ∃ pre b post post', bs = pre ++ b :: post ∧ cs = pre ++ (!b) :: post'

theorem Forks.ne (h : Forks bs cs) : bs ≠ cs := by
  obtain ⟨pre, b, post, post', rfl, rfl⟩ := h
  simp

theorem Forks.append_left (h : Forks bs cs) (as : List Bool) : Forks (as ++ bs) (as ++ cs) := by
  obtain ⟨pre, b, post, post', rfl, rfl⟩ := h
  exact ⟨as ++ pre, b, post, post', by simp, by simp⟩

theorem Forks.append_right (h : Forks bs cs) (bs' cs' : List Bool) : Forks (bs ++ bs') (cs ++ cs') := by
  obtain ⟨pre, b, post, post', rfl, rfl⟩ := h
  exact ⟨pre, b, post ++ bs', post' ++ cs', by simp, by simp⟩

/-! ## Two courses -/

/-- Two passes have made the same visits, and so the same walk. -/
structure InStep (p q : Pass) (vs vs' : List Visit) (w w' : Walk) : Prop where
  tests : ∀ v ∈ vs, v.TestsAlike p.prev q.prev
  visits : vs' = vs.map (·.redate q.index)
  walk : w' = w.redate q.index

structure Parted (p q : Pass) (vs vs' : List Visit) : Prop where
  tests : ∃ v ∈ vs, ¬ v.TestsAlike p.prev q.prev
  forks : Forks (branches p vs) (branches q vs')

/-- Two passes are in step, or have parted. -/
inductive Course (p q : Pass) (vs vs' : List Visit) (w w' : Walk) : Prop
  | inStep (h : InStep p q vs vs' w w')
  | parted (h : Parted p q vs vs')

namespace Pass.Alike

open Walk

variable {p q : Pass} (alike : p.Alike q)
include alike

theorem test_nonzero (w : Walk) (node : Node) (e : Expr) :
    (w.redate q.index).test q node (.nonzero e) =
      ((w.test p node (.nonzero e)).1, (w.test p node (.nonzero e)).2.redate q.index) := by
  simp only [Walk.test, alike.eval]

/-- Where the tables agree about a definition, a test has the same outcome, and else the other one. -/
theorem isDefined (w : Walk) (node : Node) (name : Text) :
    ((w.redate q.index).enter q node).isDefined q node name =
      if name ∉ w.vars → p.prev.definesBefore node name = q.prev.definesBefore node name
      then (w.enter p node).isDefined p node name
      else !(w.enter p node).isDefined p node name := by
  rw [alike.enter, isDefined_eq, isDefined_eq, redate_vars, enter_vars]
  by_cases var : name ∈ w.vars
  · have present : w.vars.contains name = true := Std.TreeMap.contains_iff_mem.2 var
    simp [var, present]
  · have absent : w.vars.contains name = false := by
      simpa [← Bool.not_eq_true, Std.TreeMap.contains_iff_mem] using var
    cases p.prev.definesBefore node name <;> cases q.prev.definesBefore node name <;>
      simp [var, absent]

theorem branch?_of_testsAlike (tests : v.TestsAlike p.prev q.prev) : (v.redate q.index).branch? q = v.branch? p := by
  obtain ⟨s, w⟩ := v
  rcases s with _ | ⟨node, ⟨e⟩ | ⟨name, negated⟩, yes, no⟩ | _
  · rfl
  · rfl
  · simp only [Visit.branch?, Visit.redate, alike.isDefined, if_pos (Visit.testsAlike_defined.1 tests)]
  · rfl

theorem branches_eq (h : InStep p q vs vs' w w') : branches q vs' = branches p vs := by
  rw [h.visits, branches, branches, filterMap_map]
  exact filterMap_congr fun v hv => alike.branch?_of_testsAlike (h.tests v hv)

/-- A walk that goes on after two passes were in step: they stay so, or part later. -/
theorem course_append {v v' : Walk} (h : InStep p q vs vs' w w')
    (next : w' = w.redate q.index → Course p q us us' v v') : Course p q (vs ++ us) (vs' ++ us') v v' := by
  rcases next h.walk with same | ⟨⟨u, hu, differs⟩, forks⟩
  · refine .inStep ⟨fun u hu => ?_, ?_, same.walk⟩
    · rcases mem_append.1 hu with hu | hu
      · exact h.tests u hu
      · exact same.tests u hu
    · rw [map_append, h.visits, same.visits]
  · refine .parted ⟨⟨u, mem_append_right _ hu, differs⟩, ?_⟩
    rw [branches_append, branches_append, alike.branches_eq h]
    exact forks.append_left _

omit alike in
theorem parted_append (h : Parted p q vs vs') (us us' : List Visit) : Parted p q (vs ++ us) (vs' ++ us') := by
  obtain ⟨⟨u, hu, differs⟩, forks⟩ := h
  refine ⟨⟨u, mem_append_left _ hu, differs⟩, ?_⟩
  rw [branches_append, branches_append]
  exact forks.append_right _ _

theorem course_cons (tests : v.TestsAlike p.prev q.prev) (h : Course p q us us' w w') :
    Course p q (v :: us) (v.redate q.index :: us') w w' := by
  have head : InStep p q [v] [v.redate q.index] v.walk (v.walk.redate q.index) := ⟨by simpa using tests, rfl, rfl⟩
  exact alike.course_append head fun _ => h

omit alike in
theorem course_measure (start : Nat) (h : Course p q vs vs' w w') :
    Course p q vs vs' (w.measure start) (w'.measure start) := by
  rcases h with h | h
  · exact .inStep ⟨h.tests, h.visits, by rw [h.walk]; rfl⟩
  · exact .parted h

theorem course_times {f g : Walk → Walk} {visitsOf visitsOf' : Walk → List Visit}
    (h : ∀ w, Course p q (visitsOf w) (visitsOf' (w.redate q.index)) (f w) (g (w.redate q.index))) :
    ∀ (n : Nat) (w : Walk),
      Course p q (timesVisits f visitsOf n w) (timesVisits g visitsOf' n (w.redate q.index))
        (times f n w) (times g n (w.redate q.index))
  | 0, _ => .inStep ⟨by simp [timesVisits], rfl, rfl⟩
  | n + 1, w => by
    rcases h w with round | parted
    · refine alike.course_append round fun e => ?_
      rw [times, times, e]
      exact course_times h n (f w)
    · exact .parted (parted_append parted _ _)

theorem parted_of_test (var : name ∉ w.vars)
    (differs : p.prev.definesBefore node name ≠ q.prev.definesBefore node name) :
    Parted p q (⟨.choose node (.defined name negated) yes no, w⟩ :: us)
      (⟨.choose node (.defined name negated) yes no, w.redate q.index⟩ :: us') := by
  refine ⟨⟨_, mem_cons_self, fun tests => differs (Visit.testsAlike_defined.1 tests var)⟩, ?_⟩
  have outcome : ¬ (name ∉ w.vars →
      p.prev.definesBefore node name = q.prev.definesBefore node name) := fun h => differs (h var)
  have other : Visit.branch? q ⟨.choose node (.defined name negated) yes no, w.redate q.index⟩ =
      some (!((w.enter p node).isDefined p node name != negated)) := by
    simp only [Visit.branch?, alike.isDefined, if_neg outcome]
    cases (w.enter p node).isDefined p node name <;> cases negated <;> rfl
  refine ⟨[], (w.enter p node).isDefined p node name != negated, branches p us, branches q us', rfl, ?_⟩
  rw [branches, filterMap_cons_some other]
  rfl

/-- **Alike passes visit the same statements with the same walks**, or their tests for definitions come
    out the same way up to one that does not. -/
theorem lockstep_or_fork : ∀ program w,
    Course p q (visits p program w) (visits q program (w.redate q.index))
      (steps p program w) (steps q program (w.redate q.index)) := by
  refine (Statement.tree_induction
    (P := fun s => ∀ w, Course p q (stepVisits p s w) (stepVisits q s (w.redate q.index))
      (step p s w) (step q s (w.redate q.index)))
    (fun node action w => ?_) (fun node test yes no yes_ih no_ih w => ?_)
    (fun node count body ih w => ?_) (fun w => ?_) (fun s rest s_ih ih w => ?_)).2
  · exact .inStep ⟨by simpa [stepVisits] using Visit.testsAlike_of_untested rfl, rfl, alike.step_act w node action⟩
  · rw [stepVisits_choose, stepVisits_choose, step_choose, step_choose]
    refine course_measure _ ?_
    have branch : ∀ ok w, Course p q (visits p (if ok = true then yes else no) w)
        (visits q (if ok = true then yes else no) (w.redate q.index))
        (steps p (if ok = true then yes else no) w)
        (steps q (if ok = true then yes else no) (w.redate q.index)) := by
      intro ok w
      cases ok
      · exact no_ih w
      · exact yes_ih w
    cases test with
    | nonzero e =>
      rw [alike.enter, alike.test_nonzero]
      exact alike.course_cons (Visit.testsAlike_of_untested rfl) (branch _ _)
    | defined name negated =>
      by_cases tests : name ∉ w.vars → p.prev.definesBefore node name = q.prev.definesBefore node name
      · have same : ((w.redate q.index).enter q node).isDefined q node name =
            (w.enter p node).isDefined p node name := by rw [alike.isDefined, if_pos tests]
        simp only [Walk.test, same]
        rw [alike.enter]
        exact alike.course_cons (Visit.testsAlike_defined.2 tests) (branch _ _)
      · push Not at tests
        exact .parted (alike.parted_of_test tests.1 tests.2)
  · rw [stepVisits_repeated, stepVisits_repeated, step_repeated, step_repeated, alike.enter, alike.eval]
    refine course_measure _ (alike.course_cons (Visit.testsAlike_of_untested rfl) ?_)
    dsimp only
    cases Cpu.misfit? ((w.enter p node).eval p node count).1 0 repeatLimit true with
    | some m => exact .inStep ⟨by simp, rfl, misfit_redate _ p q node m⟩
    | none => exact alike.course_times ih _ _
  · exact .inStep ⟨by simp [visits], rfl, rfl⟩
  · by_cases going : w.stop.isSome
    · have going' : (w.redate q.index).stop.isSome := by simpa using going
      simp only [visits, steps, if_pos going, if_pos going']
      exact .inStep ⟨by simp, rfl, rfl⟩
    · have going' : ¬ (w.redate q.index).stop.isSome := by simpa using going
      simp only [visits, steps, if_neg going, if_neg going']
      rcases s_ih w with h | h
      · refine alike.course_append h fun e => ?_
        rw [e]
        exact ih _
      · exact .parted (parted_append h _ _)

end Pass.Alike

end Z80Asm
