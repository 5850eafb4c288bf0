import Z80Asm.Proofs.ListedCode
import Z80Asm.Proofs.SwappedParts
import Z80Asm.Proofs.UntakenBlocks

/-!
# Passes alongside each other
-/

namespace Z80Asm

open Statement
open List hiding flatten

variable {body body' : List Statement} {node : Node} {test : Test} {P : Walk → Prop}

namespace Walk

/-! ## One program -/

theorem Emits.same {w v : Walk} (h : Emits [] w v) : v.sizes = w.sizes ∧ v.code = w.code :=
  ⟨h.sizes, by simpa using h.code⟩

section
variable (p : Pass) (node : Node) (w : Walk)

theorem list_same (address : Int64) (start : Nat) :
    (w.list p node address start).sizes = w.sizes ∧ (w.list p node address start).code = w.code := by
  obtain ⟨entries, listed⟩ := w.exists_list p node address start
  rw [listed]
  exact ⟨rfl, rfl⟩

theorem enter_same : (w.enter p node).sizes = w.sizes ∧ (w.enter p node).code = w.code := by
  obtain ⟨sizes, code⟩ := ((w.list p node w.pc w.code.size).defineLabel_emits p node).same
  obtain ⟨sizes', code'⟩ := w.list_same p node w.pc w.code.size
  exact ⟨sizes.trans sizes', code.trans code'⟩

theorem tested_same (test : Test) : ((w.enter p node).test p node test).2.sizes = w.sizes ∧
    ((w.enter p node).test p node test).2.code = w.code := by
  obtain ⟨sizes, code⟩ := ((w.enter p node).test_emits p node test).same
  obtain ⟨sizes', code'⟩ := w.enter_same p node
  exact ⟨sizes.trans sizes', code.trans code'⟩

theorem counted_same (count : Expr) : ((w.enter p node).eval p node count).2.sizes = w.sizes ∧
    ((w.enter p node).eval p node count).2.code = w.code := by
  obtain ⟨sizes, code⟩ := ((w.enter p node).eval_emits p node count).same
  obtain ⟨sizes', code'⟩ := w.enter_same p node
  exact ⟨sizes.trans sizes', code.trans code'⟩

theorem step_act_sizes (action : Action) : w.code.size ≤ (step p (.act node action) w).code.size ∧
    (step p (.act node action) w).sizes = w.sizes.push ((step p (.act node action) w).code.size - w.code.size) := by
  obtain ⟨sizes, code⟩ := (w.defineLabel_emits p node).same
  obtain ⟨sizes₂, code₂⟩ := ((w.defineLabel p node).act p node action).list_same p node w.pc w.code.size
  have acted : w.code.size ≤ ((w.defineLabel p node).act p node action).code.size ∧
      ((w.defineLabel p node).act p node action).sizes = w.sizes := by
    rcases (w.defineLabel p node).act_advances p node action with ⟨out, h⟩ | ⟨-, same, -, h⟩
    · have grown := congrArg List.length h.code
      rw [length_append, Array.length_toList, Array.length_toList, code] at grown
      exact ⟨by omega, h.sizes.trans sizes⟩
    · exact ⟨Nat.le_of_eq (by rw [same, code]), h.trans sizes⟩
  rw [step_act]
  simp only [measure, sizes₂, code₂, acted.2, and_true]
  exact acted.1

end

/-- Two passes have executed equally many statements, and if these had the same sizes, then they have emitted
    equally much code. -/
structure Even (w v : Walk) : Prop where
  count : w.sizes.size = v.sizes.size
  code : w.sizes = v.sizes → w.code.size = v.code.size

namespace Even
variable {p q : Pass} {w v w₁ v₁ : Walk}

theorem next (h : Even w v) (left : w₁.sizes = w.sizes ∧ w₁.code = w.code)
    (right : v₁.sizes = v.sizes ∧ v₁.code = v.code) : Even w₁ v₁ := by
  obtain ⟨sizes, code⟩ := left
  obtain ⟨sizes', code'⟩ := right
  exact ⟨by rw [sizes, sizes', h.count], by rw [sizes, sizes', code, code']; exact h.code⟩

theorem measure (h : Even w v) (start start' : Nat) : Even (w.measure start) (v.measure start') where
  count := by simp only [Walk.measure, Array.size_push, h.count]
  code same := by
    rw [Walk.measure, Walk.measure, Array.push_eq_push] at same
    exact h.code same.2

theorem act (h : Even w v) (node : Node) (action : Action) :
    Even (step p (.act node action) w) (step q (.act node action) v) := by
  obtain ⟨le, sizes⟩ := step_act_sizes p node w action
  obtain ⟨le', sizes'⟩ := step_act_sizes q node v action
  refine ⟨by rw [sizes, sizes', Array.size_push, Array.size_push, h.count], fun same => ?_⟩
  rw [sizes, sizes', Array.push_eq_push] at same
  have start := h.code same.2
  omega

end Even

/-- Two passes that take the same turns stay even, if neither ends early. -/
def StaysEven (p q : Pass) (f g : Walk → Walk) (us vs : Walk → List Visit) : Prop :=
  ∀ ⦃w v : Walk⦄, Even w v → (f w).stop = none → (g v).stop = none →
    ∀ ⦃r r' : List Int64⦄, turns p (us w) ++ r = turns q (vs v) ++ r' → r = r' ∧ Even (f w) (g v)

/-! ## Two programs -/

def Has (K : Option Text) (w : Walk) : Prop := ∃ name ∈ K, name ∈ w.ledger.symbols

/-- From two walks `w` and `w'` on, two passes execute the same statements, and leave walks that are related by `W`.
    The second pass does not come to know the name `K`. -/
structure Along (K : Option Text) (W : Walk → Walk → Prop) (w w' v v' : Walk) : Prop where
  walks : W v v'
  sizes : ∃ more : Array Nat, v.sizes = w.sizes ++ more ∧ v'.sizes = w'.sizes ++ more
  name : v'.Has K ↔ w'.Has K

/-- Two passes do the same at the statements `F`: walks that are related by `W` stay so, as long as there is `room`
    in the first one. -/
structure Mirrors (F : Heading → Prop) (room : Walk → Prop) (K : Option Text) (W : Walk → Walk → Prop)
    (p p' : Pass) : Prop where
  earlier : ∀ {w v}, Moves p w v → room v → room w
  stop : ∀ {w w'}, W w w' → w'.stop.isSome = w.stop.isSome
  code : ∀ {w w'}, W w w' → w'.code = w.code
  act : ∀ {w w' node action}, F (.act node action) → W w w' → room (step p (.act node action) w) →
    W (step p (.act node action) w) (step p' (.act node action) w') ∧
      ((step p' (.act node action) w').Has K ↔ w'.Has K)
  test : ∀ {w w' node test}, F (.choose node test) → W w w' → room ((w.enter p node).test p node test).2 →
    ((w'.enter p' node).test p' node test).1 = ((w.enter p node).test p node test).1 ∧
      W ((w.enter p node).test p node test).2 ((w'.enter p' node).test p' node test).2 ∧
      (((w'.enter p' node).test p' node test).2.Has K ↔ w'.Has K)
  count : ∀ {w w' node e}, F (.repeated node e) → W w w' → room ((w.enter p node).eval p node e).2 →
    ((w'.enter p' node).eval p' node e).1 = ((w.enter p node).eval p node e).1 ∧
      W ((w.enter p node).eval p node e).2 ((w'.enter p' node).eval p' node e).2 ∧
      (((w'.enter p' node).eval p' node e).2.Has K ↔ w'.Has K)
  misfit : ∀ {w w'}, W w w' → ∀ node m, W (w.misfit p node m) (w'.misfit p' node m)
  measure : ∀ {w w'}, W w w' → ∀ start, W (w.measure start) (w'.measure start)

namespace Along
variable {K : Option Text} {W : Walk → Walk → Prop} {w w' v v' u u' : Walk}

theorem refl (h : W w w') : Along K W w w' w w' := ⟨h, ⟨#[], by simp, by simp⟩, Iff.rfl⟩

theorem next (h : Along K W w w' v v') (walks : W u u') (left : u.sizes = v.sizes) (right : u'.sizes = v'.sizes)
    (name : u'.Has K ↔ v'.Has K) : Along K W w w' u u' :=
  ⟨walks, by rw [left, right]; exact h.sizes, name.trans h.name⟩

theorem push (h : Along K W w w' v v') (walks : W u u') {size : Nat} (left : u.sizes = v.sizes.push size)
    (right : u'.sizes = v'.sizes.push size) (name : u'.Has K ↔ v'.Has K) : Along K W w w' u u' := by
  obtain ⟨more, sizes, sizes'⟩ := h.sizes
  refine ⟨walks, ⟨more.push size, ?_, ?_⟩, name.trans h.name⟩
  · rw [left, sizes, Array.append_push]
  · rw [right, sizes', Array.append_push]

end Along

namespace Mirrors
variable {F : Heading → Prop} {room : Walk → Prop} {K : Option Text} {W : Walk → Walk → Prop} {p p' : Pass}
  (m : Mirrors F room K W p p') {w w' : Walk}
include m

theorem along (w w' : Walk) : Mirrors F room K (Along K W w w') p p' where
  earlier := m.earlier
  stop h := m.stop h.walks
  code h := m.code h.walks
  act {v v' node action} free h enough := by
    obtain ⟨acted, name⟩ := m.act free h.walks enough
    refine ⟨h.push acted (step_act_sizes p node v action).2 ?_ name, name⟩
    rw [(step_act_sizes p' node v' action).2, m.code acted, m.code h.walks]
  test {v v' node test} free h enough := by
    obtain ⟨outcome, tested, name⟩ := m.test free h.walks enough
    exact ⟨outcome, h.next tested (v.tested_same p node test).1 (v'.tested_same p' node test).1 name, name⟩
  count {v v' node e} free h enough := by
    obtain ⟨value, counted, name⟩ := m.count free h.walks enough
    exact ⟨value, h.next counted (v.counted_same p node e).1 (v'.counted_same p' node e).1 name, name⟩
  misfit h node misfit := h.next (m.misfit h.walks node misfit) rfl rfl Iff.rfl
  measure h start := h.push (m.measure h.walks start) rfl (by rw [Walk.measure, m.code h.walks]) Iff.rfl

theorem related_cons {s s' : Statement} {rest rest' : List Statement} (h : W w w')
    (enough : room (steps p (s :: rest) w)) (first : room (step p s w) → W (step p s w) (step p' s' w'))
    (others : W (step p s w) (step p' s' w') → room (steps p rest (step p s w)) →
      W (steps p rest (step p s w)) (steps p' rest' (step p' s' w'))) :
    W (steps p (s :: rest) w) (steps p' (s' :: rest') w') := by
  by_cases stopped : w.stop.isSome
  · rw [steps_of_stop stopped, steps_of_stop ((m.stop h).trans stopped)]
    exact h
  · have going : w.stop = none := by simpa using stopped
    have going' : w'.stop = none := by simpa [going] using m.stop h
    rw [steps_cons_of_none going] at enough
    rw [steps_cons_of_none going, steps_cons_of_none going']
    exact others (first (m.earlier (steps_moves p rest _) enough)) enough

theorem related_choose {yes yes' no no' : List Statement} (free : F (.choose node test)) (h : W w w')
    (enough : room (step p (.choose node test yes no) w))
    (holds : ∀ {u u'}, W u u' → (u'.Has K → w'.Has K) → room (steps p yes u) → W (steps p yes u) (steps p' yes' u'))
    (fails : ∀ {u u'}, W u u' → (u'.Has K → w'.Has K) → room (steps p no u) → W (steps p no u) (steps p' no' u')) :
    W (step p (.choose node test yes no) w) (step p' (.choose node test yes' no') w') := by
  rw [step_choose] at enough
  have inside := m.earlier (Move.measure (p := p) _).moves enough
  obtain ⟨outcome, tested, name⟩ := m.test free h (m.earlier (steps_moves p _ _) inside)
  rw [step_choose, step_choose, outcome, m.code h]
  refine m.measure ?_ _
  cases decided : ((w.enter p node).test p node test).1 with
  | true =>
    simp only [decided, if_true] at inside
    exact holds tested name.1 inside
  | false =>
    simp only [decided, Bool.false_eq_true, if_false] at inside
    exact fails tested name.1 inside

theorem related_times (round : ∀ {w w'}, W w w' → room (steps p body w) → W (steps p body w) (steps p' body' w')) :
    ∀ (n : Nat) {w w' : Walk}, W w w' → room (times (steps p body) n w) →
      W (times (steps p body) n w) (times (steps p' body') n w')
  | 0, _, _, h, _ => h
  | n + 1, _, _, h, enough =>
    related_times round n (round h (m.earlier (times_moves (steps_moves p body) n _) enough)) enough

theorem related_repeated {count : Expr} (free : F (.repeated node count)) (h : W w w')
    (enough : room (step p (.repeated node count body) w))
    (round : ∀ {u u'}, W u u' → room (steps p body u) → W (steps p body u) (steps p' body' u')) :
    W (step p (.repeated node count body) w) (step p' (.repeated node count body') w') := by
  obtain ⟨rounds, counted, -⟩ := m.count free h (m.earlier (counted_moves p node count body w) enough)
  rw [step_repeated] at enough
  have inside := m.earlier (Move.measure (p := p) _).moves enough
  rw [step_repeated, step_repeated, rounds, m.code h]
  refine m.measure ?_ _
  cases fits : Cpu.misfit? ((w.enter p node).eval p node count).1 0 repeatLimit true with
  | some misfit => exact m.misfit counted node misfit
  | none =>
    simp only [fits] at inside
    exact m.related_times round _ counted inside

/-- **Both passes do the same** at all statements of the kind. -/
theorem step_steps :
    (∀ s, (∀ h ∈ s.flatten, F h) → ∀ {w w' : Walk}, W w w' → room (step p s w) → W (step p s w) (step p' s w')) ∧
    ∀ program, (∀ h ∈ flattenAll program, F h) → ∀ {w w' : Walk}, W w w' → room (steps p program w) →
      W (steps p program w) (steps p' program w') := by
  refine tree_induction
    (fun node action free w w' h enough => (m.act (free _ mem_cons_self) h enough).1)
    (fun node test yes no yes_ih no_ih free w w' h enough => ?_)
    (fun node count body ih free w w' h enough => ?_) (fun _ w w' h _ => h)
    (fun s rest s_ih ih free w w' h enough => ?_)
  · rw [flatten, forall_mem_cons, forall_mem_append] at free
    exact m.related_choose free.1 h enough (fun h _ => yes_ih free.2.1 h) fun h _ => no_ih free.2.2 h
  · rw [flatten, forall_mem_cons] at free
    exact m.related_repeated free.1 h enough (ih free.2)
  · rw [flattenAll, forall_mem_append] at free
    exact m.related_cons h enough (s_ih free.1 h) (ih free.2)

/-! ## One part -/

section
variable {again : Prop} {xs xs' ss ss' : List Statement}

/-- **Passes over programs that differ in one part** leave walks that are related, if the part does. -/
theorem swapped (once : again → K = none)
    (part : ∀ {w w'}, W w w' → ¬ w'.Has K → room (steps p xs w) → W (steps p xs w) (steps p' xs' w'))
    (swap : Swapped again xs xs' ss ss') (free : ∀ h ∈ flattenAll ss, F h) (h : W w w')
    (unknown : ¬ w'.Has K) (enough : room (steps p ss w)) : W (steps p ss w) (steps p' ss' w') := by
  induction swap generalizing w w' with
  | here rest =>
    rw [flattenAll_append, forall_mem_append] at free
    rw [steps_append] at enough
    rw [steps_append, steps_append]
    exact m.step_steps.2 rest free.2 (part h unknown (m.earlier (steps_moves p rest _) enough)) enough
  | later s _ ih =>
    rw [flattenAll, forall_mem_append] at free
    refine m.related_cons h enough (m.step_steps.1 s free.1 h) fun after enough => ih free.2 after ?_ enough
    have first := (m.along w w').step_steps.1 s free.1 (.refl h) (m.earlier (steps_moves p _ _) enough)
    exact mt first.name.1 unknown
  | yes node test _ no rest ih =>
    simp only [flattenAll, flatten, forall_mem_append, forall_mem_cons] at free
    refine m.related_cons h enough (fun enough => ?_) (m.step_steps.2 rest free.2)
    exact m.related_choose free.1.1 h enough (fun h name => ih free.1.2.1 h (mt name unknown)) fun h _ =>
      m.step_steps.2 no free.1.2.2 h
  | no node test yes _ rest ih =>
    simp only [flattenAll, flatten, forall_mem_append, forall_mem_cons] at free
    refine m.related_cons h enough (fun enough => ?_) (m.step_steps.2 rest free.2)
    exact m.related_choose free.1.1 h enough (fun h _ => m.step_steps.2 yes free.1.2.1 h) fun h name =>
      ih free.1.2.2 h (mt name unknown)
  | body allowed node count _ rest ih =>
    simp only [flattenAll, flatten, forall_mem_append, forall_mem_cons] at free
    have never (u : Walk) : ¬ u.Has K := by simp [Has, once allowed]
    refine m.related_cons h enough (fun enough => ?_) (m.step_steps.2 rest free.2)
    exact m.related_repeated free.1.1 h enough fun h => ih free.1.2 h (never _)

end

end Mirrors

/-! ## Two passes over two programs -/

/-- The walks of two passes, each over both programs: the two passes agree in the sizes over both programs or over
    none, and both know the name `K` or none does. -/
structure Parallel (K : Option Text) (W : Walk → Walk → Prop) (w w' v v' : Walk) : Prop where
  first : W w w'
  second : W v v'
  even : Even w v
  sizes : w'.sizes = v'.sizes ↔ w.sizes = v.sizes
  name : w'.Has K ↔ v'.Has K

/-- Two passes that take the same turns stay parallel, if neither ends early.  They start with walks `P` over the
    second program. -/
def StaysParallel (room : Walk → Prop) (K : Option Text) (W : Walk → Walk → Prop) (P : Walk → Prop) (p q : Pass)
    (f f' g g' : Walk → Walk) (us vs : Walk → List Visit) : Prop :=
  ∀ ⦃w w' v v' : Walk⦄, Parallel K W w w' v v' → P w' → room (f w) → room (g v) → (f w).stop = none →
    (g v).stop = none → ∀ ⦃r r' : List Int64⦄, turns p (us w) ++ r = turns q (vs v) ++ r' →
      r = r' ∧ Parallel K W (f w) (f' w') (g v) (g' v')

namespace Parallel
variable {F : Heading → Prop} {room : Walk → Prop} {K : Option Text} {W : Walk → Walk → Prop} {p p' q q' : Pass}
  {w w' v v' w₁ w₁' v₁ v₁' : Walk}

theorem next (h : Parallel K W w w' v v') (first : W w₁ w₁') (second : W v₁ v₁')
    (left : w₁.sizes = w.sizes ∧ w₁.code = w.code) (left' : w₁'.sizes = w'.sizes)
    (right : v₁.sizes = v.sizes ∧ v₁.code = v.code) (right' : v₁'.sizes = v'.sizes) (name : w₁'.Has K ↔ w'.Has K)
    (name' : v₁'.Has K ↔ v'.Has K) : Parallel K W w₁ w₁' v₁ v₁' :=
  ⟨first, second, h.even.next left right, by rw [left', right', left.1, right.1, h.sizes], by rw [name, name', h.name]⟩

/-- Two passes that are made over two programs, as long as neither ends early and there is room. -/
def team (room : Walk → Prop) (K : Option Text) (W : Walk → Walk → Prop) (p p' q q' : Pass) : Team :=
  ⟨p, p', q, q', fun w => room w ∧ w.stop = none, Parallel K W⟩

theorem stays_iff {f f' g g' : Walk → Walk} {us vs : Walk → List Visit} :
    (team room K W p p' q q').Stays P f f' g g' us vs ↔ StaysParallel room K W P p q f f' g g' us vs := by
  constructor
  · intro h w w' v v' rel start enough enough' going going'
    exact h rel start ⟨enough, going⟩ ⟨enough', going'⟩
  · intro h w w' v v' rel start good good'
    exact h rel start good.1 good'.1 good.2 good'.2

section
variable (m : Mirrors F room K W p p') (m' : Mirrors F room K W q q')
include m m'

theorem level : (team room K W p p' q q').Level where
  earlier moves good := ⟨m.earlier moves good.1, moves.stop_eq_none good.2⟩
  earlier' moves good := ⟨m'.earlier moves good.1, moves.stop_eq_none good.2⟩
  going good := good.2
  stop h := ⟨m.stop h.first, m'.stop h.second⟩
  code h := ⟨m.code h.first, m'.code h.second⟩
  measure h start start' := by
    refine ⟨m.measure h.first start, m'.measure h.second start', h.even.measure _ _, ?_, h.name⟩
    simp only [Walk.measure, m.code h.first, m'.code h.second, Array.push_eq_push, h.sizes]

theorem tests (free : F (.choose node test)) (keeps : ∀ {u u' : Walk}, (u'.Has K ↔ u.Has K) → P u → P u') :
    (team room K W p p' q q').Tests P node node test := by
  intro w w' v v' h start good good'
  obtain ⟨outcome, tested, name⟩ := m.test free h.first good.1
  obtain ⟨outcome', tested', name'⟩ := m'.test free h.second good'.1
  exact ⟨outcome, outcome', h.next tested tested' (w.tested_same p node test) (w'.tested_same p' node test).1
    (v.tested_same q node test) (v'.tested_same q' node test).1 name name', keeps name start⟩

theorem repeated {node : Node} {count : Expr} (free : F (.repeated node count))
    (round : (team room K W p p' q q').Over (fun _ => True) body body') :
    (team room K W p p' q q').At (fun _ => True) (.repeated node count body) (.repeated node count body') := by
  refine (level m m').repeated (fun w w' v v' h good good' => ?_) (fun w w' v v' h misfit => ?_) round
  · obtain ⟨rounds, counted, name⟩ := m.count free h.first good.1
    obtain ⟨rounds', counted', name'⟩ := m'.count free h.second good'.1
    exact ⟨rounds, rounds', h.next counted counted' (w.counted_same p node count) (w'.counted_same p' node count).1
      (v.counted_same q node count) (v'.counted_same q' node count).1 name name'⟩
  · exact h.next (m.misfit h.first node misfit) (m'.misfit h.second node misfit) ⟨rfl, rfl⟩ rfl ⟨rfl, rfl⟩ rfl Iff.rfl
      Iff.rfl

/-- **Two passes over two programs stay parallel** at the same statements of the kind. -/
theorem step_steps :
    (∀ s, (∀ h ∈ s.flatten, F h) → (team room K W p p' q q').At (fun _ => True) s s) ∧
    ∀ ss, (∀ h ∈ flattenAll ss, F h) → (team room K W p p' q q').Over (fun _ => True) ss ss := by
  refine tree_induction (fun node action free w w' v v' h _ good good' r r' same => ⟨same, ?_⟩)
    (fun node test yes no yes_ih no_ih free => ?_) (fun node count body ih free => ?_)
    (fun _ _ _ _ _ h _ _ _ _ _ same => ⟨same, h⟩) (fun s rest s_ih ih free => ?_)
  · obtain ⟨acted, name⟩ := m.act (free _ mem_cons_self) h.first good.1
    obtain ⟨acted', name'⟩ := m'.act (free _ mem_cons_self) h.second good'.1
    refine ⟨acted, acted', h.even.act node action, ?_, name.trans (h.name.trans name'.symm)⟩
    simp only [team, (step_act_sizes _ node _ action).2, m.code acted, m.code h.first, m'.code acted', m'.code h.second,
      Array.push_eq_push, h.sizes]
  · rw [flatten, forall_mem_cons, forall_mem_append] at free
    exact (level m m').choose (tests m m' free.1 fun _ _ => trivial) (yes_ih free.2.1) (no_ih free.2.2)
  · rw [flatten, forall_mem_cons] at free
    exact repeated m m' free.1 (ih free.2)
  · rw [flattenAll, forall_mem_append] at free
    exact (level m m').cons (s_ih free.1) (ih free.2)

/-- **Two passes over programs that differ in one part stay parallel** as long as they take the same turns, if they
    do in the part. -/
theorem swapped {again : Prop} {xs xs' ss ss' : List Statement} (once : again → K = none)
    (part : StaysParallel room K W (¬ ·.Has K) p q (steps p xs) (steps p' xs') (steps q xs) (steps q' xs')
      (visits p xs) (visits q xs))
    (swap : Swapped again xs xs' ss ss') (free : ∀ h ∈ flattenAll ss, F h) :
    StaysParallel room K W (¬ ·.Has K) p q (steps p ss) (steps p' ss') (steps q ss) (steps q' ss') (visits p ss)
      (visits q ss) := by
  have part : (team room K W p p' q q').Over (¬ ·.Has K) xs xs' := stays_iff.2 part
  suffices whole : (team room K W p p' q q').Over (¬ ·.Has K) ss ss' from stays_iff.1 whole
  have same {ss : List Statement} (free : ∀ h ∈ flattenAll ss, F h) :
      (team room K W p p' q q').Over (fun _ => True) ss ss := (step_steps m m').2 ss free
  have tests {node : Node} {test : Test} (free : F (.choose node test)) :
      (team room K W p p' q q').Tests (¬ ·.Has K) node node test := tests m m' free fun name => mt name.1
  have level := level m m'
  induction swap with
  | here rest =>
    rw [flattenAll_append, forall_mem_append] at free
    exact level.append part (same free.2) fun _ _ _ _ _ _ _ => trivial
  | later s _ ih =>
    rw [flattenAll, forall_mem_append] at free
    have alone : ∀ h ∈ flattenAll [s], F h := by simpa [flattenAll] using free.1
    exact level.append ((same alone).mono fun _ _ => trivial) (ih free.2) fun _ _ _ _ h unknown good =>
      mt ((m.along _ _).step_steps.2 [s] alone (.refl h.first) good.1).name.1 unknown
  | yes node test _ no rest ih =>
    simp only [flattenAll, flatten, forall_mem_append, forall_mem_cons] at free
    exact level.cons (level.choose (tests free.1.1) (ih free.1.2.1) ((same free.1.2.2).mono fun _ _ => trivial))
      (same free.2)
  | no node test yes _ rest ih =>
    simp only [flattenAll, flatten, forall_mem_append, forall_mem_cons] at free
    exact level.cons (level.choose (tests free.1.1) ((same free.1.2.1).mono fun _ _ => trivial) (ih free.1.2.2))
      (same free.2)
  | body allowed node count _ rest ih =>
    simp only [flattenAll, flatten, forall_mem_append, forall_mem_cons] at free
    have never (u : Walk) : ¬ u.Has K := by simp [Has, once allowed]
    have round := repeated m m' free.1.1 ((ih free.1.2).mono fun w _ => never w)
    exact level.cons (round.mono fun _ _ => trivial) (same free.2)

end

end Parallel

end Walk

end Z80Asm
