import Z80Asm.Proofs.Lockstep
import Z80Asm.Proofs.Placement

/-!
# Turns of passes

At each block a pass takes a turn: a test holds or not, or a block is repeated a number of times.  Two passes that
take the same turns execute the same statements.  So if they are made over two programs, one of which has blocks
that nothing is done for, the sizes of these blocks stand at the same places in both passes, and the two passes
agree in all sizes over both programs or over none.
-/

namespace Z80Asm

open Statement List

variable {program : List Statement} {w : Walk} {p : Pass}

/-- The turn that a pass takes at a visit: whether a test holds, or how often a block is repeated. -/
def Visit.turn? (p : Pass) (v : Visit) : Option Int64 :=
  match v.statement with
  | .act _ _ => none
  | .choose node test _ _ => some (if ((v.walk.enter p node).test p node test).1 then 1 else 0)
  | .repeated node count _ => some ((v.walk.enter p node).eval p node count).1

def turns (p : Pass) (visits : List Visit) : List Int64 := visits.filterMap (Visit.turn? p)

theorem turns_append (p : Pass) (us vs : List Visit) : turns p (us ++ vs) = turns p us ++ turns p vs :=
  filterMap_append

theorem turns_choose (p : Pass) (node : Node) (test : Test) (yes no : List Statement) (w : Walk) (vs : List Visit) :
    turns p (⟨.choose node test yes no, w⟩ :: vs) =
      (if ((w.enter p node).test p node test).1 then 1 else 0) :: turns p vs :=
  rfl

theorem turns_repeated (p : Pass) (node : Node) (count : Expr) (body : List Statement) (w : Walk) (vs : List Visit) :
    turns p (⟨.repeated node count body, w⟩ :: vs) = ((w.enter p node).eval p node count).1 :: turns p vs :=
  rfl

namespace Walk

theorem stop_of_steps (h : (steps p program w).stop = none) : w.stop = none :=
  (steps_moves p program w).stop_eq_none h

theorem stop_of_times (n : Nat) (h : (times (steps p program) n w).stop = none) : w.stop = none :=
  (times_moves (steps_moves p program) n w).stop_eq_none h

theorem steps_append (p : Pass) (xs ys : List Statement) (w : Walk) :
    steps p (xs ++ ys) w = steps p ys (steps p xs w) := by
  induction xs generalizing w with
  | nil => rfl
  | cons x xs ih =>
    by_cases stopped : w.stop.isSome
    · rw [steps_of_stop stopped, steps_of_stop stopped, steps_of_stop stopped]
    · have going : w.stop = none := by simpa using stopped
      rw [cons_append, steps_cons_of_none going, steps_cons_of_none going, ih]

theorem visits_of_stop (stopped : w.stop.isSome) : visits p program w = [] := by
  cases program <;> simp [visits, stopped]

theorem visits_append (p : Pass) (xs ys : List Statement) (w : Walk) :
    visits p (xs ++ ys) w = visits p xs w ++ visits p ys (steps p xs w) := by
  induction xs generalizing w with
  | nil => rfl
  | cons x xs ih =>
    by_cases stopped : w.stop.isSome
    · rw [visits_of_stop stopped, visits_of_stop stopped, steps_of_stop stopped, visits_of_stop stopped]
      rfl
    · have going : w.stop = none := by simpa using stopped
      rw [cons_append, visits_cons_of_none going, visits_cons_of_none going, steps_cons_of_none going, ih, append_assoc]

theorem counted_moves (p : Pass) (node : Node) (count : Expr) (body : List Statement) (w : Walk) :
    Moves p ((w.enter p node).eval p node count).2 (step p (.repeated node count body) w) := by
  rw [step_repeated]
  refine .tail ?_ (.measure _)
  split
  · exact misfit_moves _ p node _
  · exact times_moves (steps_moves p body) _ _

theorem outcome_of_turn {ok ok' : Bool} (turn : (if ok then (1 : Int64) else 0) = if ok' then 1 else 0) : ok = ok' := by
  revert turn
  cases ok <;> cases ok' <;> decide

end Walk

/-! ## Two passes over two programs -/

/-- Two passes `p` and `q`, each made over two programs, whose walks are to stay related. -/
structure Team where
  (p p' q q' : Pass)
  good : Walk → Prop
  rel : Walk → Walk → Walk → Walk → Prop

namespace Team
variable (t : Team)

/-- The relation is one of walks that have come equally far in both programs. -/
structure Level : Prop where
  earlier : ∀ {w v}, Walk.Moves t.p w v → t.good v → t.good w
  earlier' : ∀ {w v}, Walk.Moves t.q w v → t.good v → t.good w
  going : ∀ {w}, t.good w → w.stop = none
  stop : ∀ {w w' v v'}, t.rel w w' v v' → w'.stop.isSome = w.stop.isSome ∧ v'.stop.isSome = v.stop.isSome
  code : ∀ {w w' v v'}, t.rel w w' v v' → w'.code = w.code ∧ v'.code = v.code
  measure : ∀ {w w' v v'}, t.rel w w' v v' → ∀ start start',
    t.rel (w.measure start) (w'.measure start) (v.measure start') (v'.measure start')

/-- As long as the passes take the same turns and come to good walks, the walks stay related.  They start with a walk
    `P` over the second program. -/
def Stays (P : Walk → Prop) (f f' g g' : Walk → Walk) (us vs : Walk → List Visit) : Prop :=
  ∀ ⦃w w' v v' : Walk⦄, t.rel w w' v v' → P w' → t.good (f w) → t.good (g v) → ∀ ⦃r r' : List Int64⦄,
    turns t.p (us w) ++ r = turns t.q (vs v) ++ r' → r = r' ∧ t.rel (f w) (f' w') (g v) (g' v')

abbrev At (P : Walk → Prop) (s s' : Statement) : Prop :=
  t.Stays P (.step t.p s) (.step t.p' s') (.step t.q s) (.step t.q' s') (Walk.stepVisits t.p s) (Walk.stepVisits t.q s)

abbrev Over (P : Walk → Prop) (ss ss' : List Statement) : Prop :=
  t.Stays P (.steps t.p ss) (.steps t.p' ss') (.steps t.q ss) (.steps t.q' ss') (Walk.visits t.p ss)
    (Walk.visits t.q ss)

def Tests (P : Walk → Prop) (node node' : Node) (test : Test) : Prop :=
  ∀ ⦃w w' v v' : Walk⦄, t.rel w w' v v' → P w' → t.good ((w.enter t.p node).test t.p node test).2 →
    t.good ((v.enter t.q node).test t.q node test).2 →
    ((w'.enter t.p' node').test t.p' node' test).1 = ((w.enter t.p node).test t.p node test).1 ∧
    ((v'.enter t.q' node').test t.q' node' test).1 = ((v.enter t.q node).test t.q node test).1 ∧
    t.rel ((w.enter t.p node).test t.p node test).2 ((w'.enter t.p' node').test t.p' node' test).2
      ((v.enter t.q node).test t.q node test).2 ((v'.enter t.q' node').test t.q' node' test).2 ∧
    P ((w'.enter t.p' node').test t.p' node' test).2

def Counts (node node' : Node) (e : Expr) : Prop :=
  ∀ ⦃w w' v v' : Walk⦄, t.rel w w' v v' → t.good ((w.enter t.p node).eval t.p node e).2 →
    t.good ((v.enter t.q node).eval t.q node e).2 →
    ((w'.enter t.p' node').eval t.p' node' e).1 = ((w.enter t.p node).eval t.p node e).1 ∧
    ((v'.enter t.q' node').eval t.q' node' e).1 = ((v.enter t.q node).eval t.q node e).1 ∧
    t.rel ((w.enter t.p node).eval t.p node e).2 ((w'.enter t.p' node').eval t.p' node' e).2
      ((v.enter t.q node).eval t.q node e).2 ((v'.enter t.q' node').eval t.q' node' e).2

variable {t} {P Q : Walk → Prop}

theorem Stays.mono {f f' g g' : Walk → Walk} {us vs : Walk → List Visit} (h : t.Stays Q f f' g g' us vs)
    (imp : ∀ w, P w → Q w) : t.Stays P f f' g g' us vs :=
  fun _ _ _ _ rel start => h rel (imp _ start)

namespace Level
open Walk
variable (level : t.Level) {as as' bs bs' body body' : List Statement} {node node' : Node}
include level

theorem append (first : t.Over P as as') (others : t.Over Q bs bs')
    (next : ∀ ⦃w w' v v'⦄, t.rel w w' v v' → P w' → t.good (steps t.p as w) → Q (steps t.p' as' w')) :
    t.Over P (as ++ bs) (as' ++ bs') := by
  intro w w' v v' h start good good' r r' same
  simp only [steps_append, visits_append, turns_append, append_assoc] at *
  have begun := level.earlier (steps_moves t.p bs _) good
  obtain ⟨same, h'⟩ := first h start begun (level.earlier' (steps_moves t.q bs _) good') same
  exact others h' (next h start begun) good good' same

theorem single {s s' : Statement} (h : t.At P s s') : t.Over P [s] [s'] := by
  intro w w' v v' rel start good good' r r' same
  have begun := level.going (level.earlier (steps_moves t.p _ _) good)
  have begun' := level.going (level.earlier' (steps_moves t.q _ _) good')
  have alone (p : Pass) (s : Statement) {w : Walk} (going : w.stop = none) :
      steps p [s] w = step p s w ∧ visits p [s] w = stepVisits p s w := by
    rw [steps_cons_of_none going, visits_cons_of_none going]
    exact ⟨rfl, append_nil _⟩
  rw [(alone t.p s begun).1] at good ⊢
  rw [(alone t.q s begun').1] at good' ⊢
  rw [(alone t.p s begun).2, (alone t.q s begun').2] at same
  rw [(alone t.p' s' (by simpa [begun] using (level.stop rel).1)).1,
    (alone t.q' s' (by simpa [begun'] using (level.stop rel).2)).1]
  exact h rel start good good' same

theorem cons {s s' : Statement} (first : t.At P s s') (others : t.Over (fun _ => True) as as') :
    t.Over P (s :: as) (s' :: as') :=
  level.append (level.single first) others fun _ _ _ _ _ _ _ => trivial

theorem choose {test : Test} (tests : t.Tests P node node' test) (holds : t.Over P as as') (fails : t.Over P bs bs') :
    t.At P (.choose node test as bs) (.choose node' test as' bs') := by
  intro w w' v v' h start good good' r r' same
  rw [step_choose] at good good'
  have inside := level.earlier (Move.measure (p := t.p) _).moves good
  have inside' := level.earlier' (Move.measure (p := t.q) _).moves good'
  obtain ⟨outcome, outcome', tested, start⟩ := tests h start (level.earlier (steps_moves t.p _ _) inside)
    (level.earlier' (steps_moves t.q _ _) inside')
  rw [stepVisits_choose, stepVisits_choose, turns_choose, turns_choose] at same
  rw [step_choose, step_choose, step_choose, step_choose, outcome, outcome', (level.code h).1, (level.code h).2]
  obtain ⟨turn, same⟩ := cons_eq_cons.1 same
  rw [outcome_of_turn turn] at inside same ⊢
  cases decision : ((v.enter t.q node).test t.q node test).1 with
  | true =>
    simp only [decision, if_true] at inside inside' same
    obtain ⟨same, done⟩ := holds tested start inside inside' same
    exact ⟨same, level.measure done _ _⟩
  | false =>
    simp only [decision, Bool.false_eq_true, if_false] at inside inside' same
    obtain ⟨same, done⟩ := fails tested start inside inside' same
    exact ⟨same, level.measure done _ _⟩

theorem times (round : t.Over (fun _ => True) body body') (n : Nat) :
    t.Stays (fun _ => True) (Walk.times (steps t.p body) n) (Walk.times (steps t.p' body') n)
      (Walk.times (steps t.q body) n) (Walk.times (steps t.q' body') n)
      (timesVisits (steps t.p body) (visits t.p body) n) (timesVisits (steps t.q body) (visits t.q body) n) := by
  induction n with
  | zero => exact fun _ _ _ _ h _ _ _ _ _ same => ⟨same, h⟩
  | succ n ih =>
    intro w w' v v' h _ good good' r r' same
    simp only [timesVisits, turns_append, append_assoc] at same
    obtain ⟨same, h⟩ := round h trivial (level.earlier (times_moves (steps_moves t.p body) n _) good)
      (level.earlier' (times_moves (steps_moves t.q body) n _) good') same
    exact ih h trivial good good' same

theorem repeated {count : Expr} (counts : t.Counts node node' count)
    (misfit : ∀ ⦃w w' v v'⦄, t.rel w w' v v' → ∀ m,
      t.rel (w.misfit t.p node m) (w'.misfit t.p' node' m) (v.misfit t.q node m) (v'.misfit t.q' node' m))
    (round : t.Over (fun _ => True) body body') :
    t.At (fun _ => True) (.repeated node count body) (.repeated node' count body') := by
  intro w w' v v' h _ good good' r r' same
  obtain ⟨rounds, rounds', counted⟩ := counts h (level.earlier (counted_moves t.p node count body w) good)
    (level.earlier' (counted_moves t.q node count body v) good')
  rw [step_repeated] at good good'
  have inside := level.earlier (Move.measure (p := t.p) _).moves good
  have inside' := level.earlier' (Move.measure (p := t.q) _).moves good'
  rw [stepVisits_repeated, stepVisits_repeated, turns_repeated, turns_repeated] at same
  rw [step_repeated, step_repeated, step_repeated, step_repeated, rounds, rounds', (level.code h).1, (level.code h).2]
  obtain ⟨turn, same⟩ := cons_eq_cons.1 same
  rw [turn] at inside same ⊢
  cases fits : Cpu.misfit? ((v.enter t.q node).eval t.q node count).1 0 repeatLimit true with
  | some m =>
    simp only [fits] at same
    exact ⟨same, level.measure (misfit counted m) _ _⟩
  | none =>
    simp only [fits] at inside inside' same
    obtain ⟨same, done⟩ := level.times round _ counted trivial inside inside' same
    exact ⟨same, level.measure done _ _⟩

end Level

end Team

/-! ## Programs at other places -/

namespace Walk

def Exactly (sizes sizes' : Array Nat) : SizeRel := fun a a' => a = sizes ∧ a' = sizes'

/-- The walks of two passes, each over both programs.  The two passes agree in the sizes over both programs or
    over none. -/
structure Abreast (S : Numbering) (R : SizeRel) (w w' v v' : Walk) : Prop where
  first : Placed S R w w'
  second : Placed S R v v'
  sizes : w'.sizes = v'.sizes ↔ w.sizes = v.sizes

variable {S : Numbering} {R : SizeRel} {skips : Prop} {p' q q' : Pass}

/-- What is done for a statement before and after the statements inside does not touch the sizes. -/
theorem Placed.exactly {w' : Walk} (h : Placed S R w w') : Placed S (Exactly w.sizes w'.sizes) w w' :=
  { h with sizes := ⟨rfl, rfl⟩ }

namespace Abreast
variable {w' v v' : Walk}

theorem next (h : Abreast S R w w' v v') {w₁ w₁' v₁ v₁' : Walk}
    (first : ∀ {R : SizeRel}, Placed S R w w' → Placed S R w₁ w₁')
    (second : ∀ {R : SizeRel}, Placed S R v v' → Placed S R v₁ v₁') : Abreast S R w₁ w₁' v₁ v₁' := by
  obtain ⟨sizes₁, sizes₁'⟩ := (first h.first.exactly).sizes
  obtain ⟨sizes₂, sizes₂'⟩ := (second h.second.exactly).sizes
  exact ⟨first h.first, second h.second, by rw [sizes₁, sizes₁', sizes₂, sizes₂', h.sizes]⟩

theorem measure (h : Abreast S R w w' v v') (follows : R.Follows skips) (start start' : Nat) :
    Abreast S R (w.measure start) (w'.measure start) (v.measure start') (v'.measure start') := by
  refine ⟨h.first.measure follows start, h.second.measure follows start', ?_⟩
  simp only [Walk.measure, h.first.code, h.second.code, Array.push_eq_push, h.sizes]

theorem untaken (h : Abreast S R w w' v v') (follows : R.Follows skips) (allowed : skips) {s' : Statement}
    (untaken : s'.Untaken) : Abreast S R w (step p' s' w') v (step q' s' v') := by
  refine ⟨h.first.untaken p' follows allowed untaken, h.second.untaken q' follows allowed untaken, ?_⟩
  obtain ⟨entries, first⟩ := untaken.exists_step p' w'
  obtain ⟨entries', second⟩ := untaken.exists_step q' v'
  simp only [first, second, Walk.measure, Nat.sub_self, Array.push_eq_push, true_and, h.sizes]

def team (S : Numbering) (R : SizeRel) (p p' q q' : Pass) : Team := ⟨p, p', q, q', (·.stop = none), Abreast S R⟩

theorem level (follows : R.Follows skips) (p p' q q' : Pass) : (team S R p p' q q').Level where
  earlier moves going := moves.stop_eq_none going
  earlier' moves going := moves.stop_eq_none going
  going going := going
  stop h := ⟨h.first.isSome_stop, h.second.isSome_stop⟩
  code h := ⟨h.first.code, h.second.code⟩
  measure h := h.measure follows

end Abreast

theorem over_abreast (pass : Pass.Placed S p p') (pass' : Pass.Placed S q q') (ordered : S.Ordered)
    (follows : R.Follows skips) :
    ∀ program' {program : List Statement}, AllPlaced S skips program program' →
      (Abreast.team S R p p' q q').Over (fun _ => True) program program' := by
  have level := Abreast.level (S := S) follows p p' q q'
  refine (tree_induction
    (P := fun s' => ∀ {s}, Statement.Placed S skips s s' → (Abreast.team S R p p' q q').At (fun _ => True) s s')
    (fun node' action s placed => ?_) (fun node' test yes' no' yes_ih no_ih s placed => ?_)
    (fun node' count body' ih s placed => ?_) (fun {program} placed => ?_)
    (fun s' rest' s_ih ih {program} placed => ?_)).2
  · intro w w' v v' abreast _ _ _ r r' same
    have abreast : Abreast S R w w' v v' := abreast
    cases placed with
    | act placed =>
      refine ⟨same, ?_⟩
      simp only [Abreast.team]
      rw [step_act, step_act, step_act, step_act, abreast.first.code, abreast.second.code]
      refine Abreast.measure ?_ follows _ _
      exact abreast.next (fun h => ((h.defineLabel p p' placed).act pass placed action).list ..)
        fun h => ((h.defineLabel q q' placed).act pass' placed action).list ..
    | instruction label label' m args =>
      refine ⟨same, ?_⟩
      simp only [Abreast.team]
      rw [step_act, step_act, step_act, step_act, abreast.first.code, abreast.second.code]
      simp only [Walk.defineLabel, label, label']
      refine Abreast.measure ?_ follows _ _
      exact abreast.next (fun h => (h.act_plain pass _ _ (.instruction m args) rfl).list ..)
        fun h => (h.act_plain pass' _ _ (.instruction m args) rfl).list ..
  · cases placed with
    | choose placed _ yes_placed no_placed =>
      refine level.choose (fun w w' v v' h _ _ _ => ?_) (yes_ih yes_placed) (no_ih no_placed)
      have first {R} {w w'} (h : Placed S R w w') := (h.enter p p' placed).test pass ordered placed test
      have second {R} {v v'} (h : Placed S R v v') := (h.enter q q' placed).test pass' ordered placed test
      exact ⟨(first h.first).1, (second h.second).1, h.next (fun h => (first h).2) fun h => (second h).2, trivial⟩
  · cases placed with
    | @repeated node _ placed _ _ _ body_placed =>
      refine level.repeated (fun w w' v v' h _ _ => ?_) (fun w w' v v' h m => ?_) (ih body_placed)
      · have first {R} {w w'} (h : Placed S R w w') := (h.enter p p' placed).eval pass node node' count
        have second {R} {v v'} (h : Placed S R v v') := (h.enter q q' placed).eval pass' node node' count
        exact ⟨(first h.first).1, (second h.second).1, h.next (fun h => (first h).2) fun h => (second h).2⟩
      · exact h.next (fun h => h.report ..) fun h => h.report ..
  · cases placed
    exact fun _ _ _ _ abreast _ _ _ _ _ same => ⟨same, abreast⟩
  · cases placed with
    | cons first others => exact level.cons (s_ih first) (ih others)
    | skip allowed untaken others =>
      intro w w' v v' abreast _ going going' r r' same
      have goes : w'.stop = none := by
        simpa [stop_of_steps (show (steps p program w).stop = none from going)] using abreast.first.isSome_stop
      have goes' : v'.stop = none := by
        simpa [stop_of_steps (show (steps q program v).stop = none from going')] using abreast.second.isSome_stop
      rw [steps_cons_of_none goes, steps_cons_of_none goes']
      exact ih others (abreast.untaken follows allowed untaken) trivial going going' same

/-- Two passes that take the same turns stay abreast, if neither ends early. -/
def StaysAbreast (S : Numbering) (R : SizeRel) (p q : Pass) (f f' g g' : Walk → Walk)
    (us vs : Walk → List Visit) : Prop :=
  ∀ ⦃w w' v v' : Walk⦄, Abreast S R w w' v v' → (f w).stop = none → (g v).stop = none →
    ∀ ⦃r r' : List Int64⦄, turns p (us w) ++ r = turns q (vs v) ++ r' →
      r = r' ∧ Abreast S R (f w) (f' w') (g v) (g' v')

/-- **Two passes over programs at other places stay abreast as long as they take the same turns.** -/
theorem steps_abreast (pass : Pass.Placed S p p') (pass' : Pass.Placed S q q') (ordered : S.Ordered)
    (follows : R.Follows skips) (program' : List Statement) (placed : AllPlaced S skips program program') :
    StaysAbreast S R p q (steps p program) (steps p' program') (steps q program) (steps q' program')
      (visits p program) (visits q program) := by
  intro w w' v v' abreast going going' r r' same
  exact over_abreast pass pass' ordered follows program' placed abreast trivial going going' same

end Walk

/-! ## Fixed turns -/

def Expr.isConstant : Expr → Bool
  | num _ => true
  | sym _ | pc => false
  | unary _ x => x.isConstant
  | binary _ x y => x.isConstant && y.isConstant

theorem Expr.value_of_isConstant {e : Expr} (h : e.isConstant = true) (env env' : Env) :
    e.value env = e.value env' := by
  induction e with
  | num | sym | pc => simp_all [isConstant, value]
  | unary op x ih => rw [value, value, ih h]
  | binary op x y x_ih y_ih =>
    rw [isConstant, Bool.and_eq_true] at h
    rw [value, value, x_ih h.1, y_ih h.2]

def Test.isConstant : Test → Bool
  | nonzero e => e.isConstant
  | defined _ _ => false

mutual

def Statement.isFixed : Statement → Bool
  | .act _ _ => true
  | .choose _ test yes no => test.isConstant && allFixed yes && allFixed no
  | .repeated _ count body => count.isConstant && allFixed body

def Statement.allFixed : List Statement → Bool
  | [] => true
  | s :: rest => isFixed s && allFixed rest

end

namespace Walk
variable {p q : Pass}

theorem test_of_isConstant {test : Test} (h : test.isConstant = true) (node : Node) (w v : Walk) :
    (w.test p node test).1 = (v.test q node test).1 := by
  cases test with
  | nonzero e =>
    have value := Expr.value_of_isConstant h (w.env p) (v.env q)
    simp only [Walk.test, Walk.eval, value]
  | defined name negated => cases h

theorem turns_times {body : List Statement}
    (h : ∀ w v : Walk, (steps p body w).stop = none → (steps q body v).stop = none →
      turns p (visits p body w) = turns q (visits q body v)) :
    ∀ (n : Nat) (w v : Walk), (times (steps p body) n w).stop = none → (times (steps q body) n v).stop = none →
      turns p (timesVisits (steps p body) (visits p body) n w) =
        turns q (timesVisits (steps q body) (visits q body) n v)
  | 0, _, _, _, _ => rfl
  | n + 1, w, v, going, going' => by
    rw [timesVisits, timesVisits, turns_append, turns_append,
      h w v (stop_of_times n going) (stop_of_times n going'), turns_times h n _ _ going going']

/-- **All passes take the same turns** over statements whose tests and counts are constant, if none ends early. -/
theorem turns_fixed (p q : Pass) : ∀ program, allFixed program = true → ∀ w v : Walk,
    (steps p program w).stop = none → (steps q program v).stop = none →
      turns p (visits p program w) = turns q (visits q program v) := by
  refine (tree_induction
    (P := fun s => s.isFixed = true → ∀ w v : Walk, (step p s w).stop = none → (step q s v).stop = none →
      turns p (stepVisits p s w) = turns q (stepVisits q s v))
    (fun node action _ w v _ _ => rfl) (fun node test yes no yes_ih no_ih fixed w v going going' => ?_)
    (fun node count body ih fixed w v going going' => ?_) (fun _ w v _ _ => rfl)
    (fun s rest s_ih ih fixed w v going going' => ?_)).2
  · rw [isFixed, Bool.and_eq_true, Bool.and_eq_true] at fixed
    have same := test_of_isConstant (p := p) (q := q) fixed.1.1 node (w.enter p node) (v.enter q node)
    rw [step_choose] at going going'
    rw [stepVisits_choose, stepVisits_choose, turns_choose, turns_choose, same]
    rw [same] at going
    congr 1
    cases holds : ((v.enter q node).test q node test).1 with
    | true =>
      simp only [holds, if_true] at going going'
      exact yes_ih fixed.1.2 _ _ going going'
    | false =>
      simp only [holds, Bool.false_eq_true, if_false] at going going'
      exact no_ih fixed.2 _ _ going going'
  · rw [isFixed, Bool.and_eq_true] at fixed
    have same : ((w.enter p node).eval p node count).1 = ((v.enter q node).eval q node count).1 :=
      Expr.value_of_isConstant fixed.1 _ _
    rw [step_repeated] at going going'
    rw [stepVisits_repeated, stepVisits_repeated, turns_repeated, turns_repeated, same]
    rw [same] at going
    congr 1
    cases fits : Cpu.misfit? ((v.enter q node).eval q node count).1 0 repeatLimit true with
    | some m => rfl
    | none =>
      simp only [fits] at going going'
      exact turns_times (ih fixed.2) _ _ _ going going'
  · rw [allFixed, Bool.and_eq_true] at fixed
    have start := stop_of_steps going
    have start' := stop_of_steps going'
    rw [steps_cons_of_none start] at going
    rw [steps_cons_of_none start'] at going'
    rw [visits_cons_of_none start, visits_cons_of_none start', turns_append, turns_append,
      s_ih fixed.1 w v (stop_of_steps going) (stop_of_steps going'), ih fixed.2 _ _ going going']

end Walk

end Z80Asm
