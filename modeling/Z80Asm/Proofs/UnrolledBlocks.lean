import Z80Asm.Proofs.Alongside
import Z80Asm.Proofs.RunsAlongside

/-!
# Repetitions that are written out

A repetition whose count is a number executes its body that many times.  A program in which the body is written
out instead does the same in each pass, apart from the size of the repetition as a whole, which it does not note.
-/

namespace Z80Asm

open Walk List

abbrev Numbering.same : Numbering := (· = ·)

theorem Numbering.same_ordered : Numbering.same.Ordered := by
  rintro a _ b _ rfl rfl
  rfl

theorem Node.Placed.refl (node : Node) : node.Placed Numbering.same node := ⟨rfl, rfl, rfl⟩

namespace Walk
variable {p p' q q' : Pass} {w w' v v' : Walk}

open Assembly (anySizes anySizes_follows)

theorem mirrors_placed (pass : Pass.Placed .same p p') :
    Mirrors (fun _ => True) (fun _ => True) none (Placed .same anySizes) p p' := by
  have ordered := Numbering.same_ordered
  have follows : anySizes.Follows False := anySizes_follows
  exact {
    earlier _ _ := trivial
    stop := Placed.isSome_stop
    code := Placed.code
    act {_ _ node action} _ h _ := ⟨h.step pass ordered follows (.act (.refl node) action), by simp [Has]⟩
    test {_ _ node test} _ h _ := by
      obtain ⟨outcome, same⟩ := (h.enter p p' (.refl node)).test pass ordered (.refl node) test
      exact ⟨outcome, same, by simp [Has]⟩
    count {_ _ node e} _ h _ := by
      obtain ⟨value, same⟩ := (h.enter p p' (.refl node)).eval pass node node e
      exact ⟨value, same, by simp [Has]⟩
    misfit h node m := h.report ..
    measure h start := h.measure follows start }

theorem Move.sizes_grow (h : Move p w v) : w.sizes.toList <+: v.sizes.toList := by
  cases h with
  | report | emit | goto | breakOff => exact prefix_rfl
  | eval node e => rw [(w.eval_emits p node e).sizes]
  | define node name value scope => rw [(w.define_emits p node name value scope).sizes]
  | list node address start => rw [(w.list_same p node address start).1]
  | measure start => simp [Walk.measure]

theorem Moves.sizes_grow (h : Moves p w v) : w.sizes.toList <+: v.sizes.toList := by
  induction h with
  | refl => exact prefix_rfl
  | tail _ step ih => exact ih.trans step.sizes_grow

/-! ## One repetition -/

/-- A repetition whose count is a number that is allowed. -/
structure Rolled (node : Node) (count : Int64) (n : Nat) : Prop where
  label : node.label = none
  fits : Cpu.misfit? count 0 repeatLimit true = none
  times : count.toInt.toNat = n

namespace Rolled
variable {node : Node} {count : Int64} {n : Nat} (rolled : Rolled node count n)
include rolled

theorem exists_counted (p : Pass) (w : Walk) :
    ∃ entries, (w.enter p node).eval p node (.num count) = (count, { w with entries }) := by
  obtain ⟨entries, listed⟩ := w.exists_list p node w.pc w.code.size
  refine ⟨entries, ?_⟩
  simp [enter, listed, defineLabel, rolled.label, eval, reference, Expr.value, Expr.fault?, Expr.names]

theorem exists_step (p : Pass) (body : List Statement) (w : Walk) :
    ∃ entries,
      step p (.repeated node (.num count) body) w =
        (Walk.times (steps p body) n { w with entries }).measure w.code.size ∧
      turns p (stepVisits p (.repeated node (.num count) body) w) =
        count :: turns p (timesVisits (steps p body) (visits p body) n { w with entries }) := by
  obtain ⟨entries, counted⟩ := rolled.exists_counted p w
  refine ⟨entries, ?_, ?_⟩
  · simp only [step_repeated, counted, rolled.fits, rolled.times]
  · rw [stepVisits_repeated, turns_repeated]
    simp only [counted, rolled.fits, rolled.times]

end Rolled

theorem steps_replicate (p : Pass) (body : List Statement) (n : Nat) (w : Walk) :
    steps p (List.replicate n body).flatten w = times (steps p body) n w := by
  induction n generalizing w with
  | zero => rfl
  | succ n ih => rw [replicate_succ, flatten_cons, steps_append, ih, times]

section
variable {node : Node} {count : Int64} {n : Nat} (rolled : Rolled node count n) (body : List Statement)
include rolled

/-- **A pass does the same at a repetition and at its copies.** -/
theorem unrolled_walks (pass : Pass.Placed .same p p') (h : Placed .same anySizes w w') :
    Placed .same anySizes (steps p [.repeated node (.num count) body] w)
      (steps p' (List.replicate n body).flatten w') := by
  by_cases stopped : w.stop.isSome
  · rw [steps_of_stop stopped, steps_of_stop (h.isSome_stop.trans stopped)]
    exact h
  · obtain ⟨entries, stepped, -⟩ := rolled.exists_step p body w
    have m := mirrors_placed pass
    have entered : Placed .same anySizes { w with entries } w' := { h with }
    have rounds : Placed .same anySizes (times (steps p body) n { w with entries }) (times (steps p' body) n w') :=
      m.related_times (m.step_steps.2 body fun _ _ => trivial) n entered trivial
    rw [steps_cons_of_none (by simpa using stopped), stepped, steps_replicate]
    exact { rounds with sizes := trivial }

/-- **Two passes stay parallel at a repetition and at its copies.** -/
theorem unrolled_parallel (pass : Pass.Placed .same p p') (pass' : Pass.Placed .same q q') (P : Walk → Prop) :
    StaysParallel (fun _ => True) none (Placed .same anySizes) P p q
      (steps p [.repeated node (.num count) body]) (steps p' (List.replicate n body).flatten)
      (steps q [.repeated node (.num count) body]) (steps q' (List.replicate n body).flatten)
      (visits p [.repeated node (.num count) body]) (visits q [.repeated node (.num count) body]) := by
  intro w w' v v' h _ _ _ going going' r r' same
  have m := mirrors_placed pass
  have m' := mirrors_placed pass'
  obtain ⟨entries, stepped, turned⟩ := rolled.exists_step p body w
  obtain ⟨entries', stepped', turned'⟩ := rolled.exists_step q body v
  have begun := stop_of_steps going
  have begun' := stop_of_steps going'
  have start : Parallel none (Placed .same anySizes) { w with entries } w' { v with entries := entries' } v' :=
    ⟨{ h.first with }, { h.second with }, ⟨h.even.count, h.even.code⟩, h.sizes, h.name⟩
  rw [visits_cons_of_none begun, visits_cons_of_none begun'] at same
  simp only [visits, append_nil, turned, turned', cons_append, cons.injEq, true_and] at same
  rw [steps_cons_of_none begun, stepped] at going ⊢
  rw [steps_cons_of_none begun', stepped'] at going' ⊢
  rw [steps_replicate, steps_replicate]
  obtain ⟨same, done⟩ := (Parallel.level m m').times ((Parallel.step_steps m m').2 body fun _ _ => trivial) n start
    trivial ⟨trivial, going⟩ ⟨trivial, going'⟩ same
  simp only [Parallel.team] at done
  refine ⟨same, { done.first with sizes := trivial }, { done.second with sizes := trivial }, done.even.measure _ _, ?_,
    done.name⟩
  -- the same sizes before and in the rounds give the same size of all rounds together
  have total (alike : (times (steps p body) n { w with entries }).sizes =
      (times (steps q body) n { v with entries := entries' }).sizes) : w.code.size = v.code.size := by
    obtain ⟨more, grown⟩ := (times_moves (steps_moves p body) n { w with entries }).sizes_grow
    obtain ⟨more', grown'⟩ := (times_moves (steps_moves q body) n { v with entries := entries' }).sizes_grow
    rw [alike, ← grown'] at grown
    exact h.even.code (Array.toList_inj.1 (append_inj_left grown (by simpa using h.even.count)))
  simp only [steps, measure, Array.push_eq_push, done.sizes]
  constructor
  · exact fun alike => ⟨by rw [done.even.code alike, total alike], alike⟩
  · exact fun alike => alike.2

end

end Walk

/-! ## Programs -/

namespace Assembly
variable {s : Settings} {again : Prop} {node : Node} {count : Int64} {n : Nat} (rolled : Walk.Rolled node count n)
  {body program program' : List Statement}
  (swap : Statement.Swapped again [.repeated node (.num count) body] (List.replicate n body).flatten program program')
include rolled swap

theorem sameWalks_unrolled (s : Settings) : SameWalks .same s program program' where
  known := rfl
  walk pass := (mirrors_placed pass).swapped (fun _ => rfl) (fun h _ _ => unrolled_walks rolled body pass h)
    swap (fun _ _ => trivial) (start_placed s rfl) (by simp [Has]) trivial

/-- **A pass that takes the turns of the pass before it settles both programs or none.** -/
theorem settled_unrolled (s : Settings) {k : Nat} (before : (walked s program (k + 1)).stop = none)
    (going : (walked s program (k + 2)).stop = none) (same : turnsOf s program (k + 2) = turnsOf s program (k + 1)) :
    Settled s program' (k + 2) ↔ Settled s program (k + 2) := by
  have walks := sameWalks_unrolled rolled swap s
  have later := walks.pass (k + 2)
  have earlier := walks.pass (k + 1)
  have stays := Parallel.swapped (mirrors_placed later) (mirrors_placed earlier) (fun _ => rfl)
    (unrolled_parallel rolled body later earlier _) swap fun _ _ => trivial
  have placed := start_placed (S := .same) s rfl
  have start : Parallel none (Placed .same anySizes) { ledger := predefined s } { ledger := predefined s }
      { ledger := predefined s } { ledger := predefined s } :=
    ⟨placed, placed, ⟨rfl, fun _ => rfl⟩, Iff.rfl, Iff.rfl⟩
  obtain ⟨-, ends⟩ := stays start (by simp [Has]) trivial trivial going before (congrArg (· ++ []) same)
  exact and_congr (walks.unchanged (k + 2)) ends.sizes

/-- **What the passes over both programs have in common.** -/
theorem alongside_unrolled (s : Settings) : Alongside s program program' fun _ => True :=
  .of_sameWalks (sameWalks_unrolled rolled swap s) (settled_unrolled rolled swap s)

end Assembly

/-! ## Runs -/

namespace Walk
variable {p : Pass} {w v : Walk}

theorem sizes_step_pos (p : Pass) (s : Statement) (w : Walk) : 0 < (step p s w).sizes.size := by
  have measured (v : Walk) (start : Nat) : 0 < (v.measure start).sizes.size := by
    simp [Walk.measure]
  cases s with
  | act => exact measured _ _
  | choose =>
    rw [step_choose]
    exact measured _ _
  | repeated =>
    rw [step_repeated]
    exact measured _ _

end Walk

namespace Assembly
variable {s : Settings} {program program' : List Statement}

theorem not_settled_one (nonempty : program ≠ []) : ¬ Settled s program 1 := by
  rintro ⟨-, same⟩
  obtain ⟨first, rest, rfl⟩ := exists_cons_of_ne_nil nonempty
  have executed : (walked s (first :: rest) 1).sizes.size ≠ 0 := by
    rw [walked, Pass.walk, steps_cons_of_none rfl]
    have := (steps_moves (passOf s (first :: rest) 1) rest
      (step (passOf s (first :: rest) 1) first { ledger := predefined s })).sizes_grow.length_le
    have := sizes_step_pos (passOf s (first :: rest) 1) first { ledger := predefined s }
    simp only [Array.length_toList] at *
    omega
  exact executed (congrArg Array.size same)

/-- Where a run comes to a later pass than the first one that changes no symbol, the pass takes the same turns as
    the pass before it. -/
def TurnsKept (s : Settings) (program : List Statement) : Prop :=
  ∀ n, 1 < n → n ≤ s.passLimit → (∀ k, 0 < k → k < n → Passed s program neverCancelled k) →
    (walked s program n).stop = none → Unchanged s program n → turnsOf s program n = turnsOf s program (n - 1)

/-- Or else a further pass is allowed in which the tests for definitions have the same outcomes again. -/
def LaterTurnsSettle (s : Settings) (program : List Statement) : Prop :=
  ∀ n, 1 < n → n ≤ s.passLimit → (∀ k, 0 < k → k < n → Passed s program neverCancelled k) →
    (walked s program n).stop = none → Unchanged s program n →
      turnsOf s program n = turnsOf s program (n - 1) ∨
        (n < s.passLimit ∧ outcomes s program (n + 1) = outcomes s program n)

/-- Where tests and counts are constant, all passes take the same turns. -/
theorem TurnsKept.of_fixed (fixed : Statement.allFixed program = true) : TurnsKept s program := by
  intro n later _ before going _
  exact turns_fixed _ _ program fixed _ _ going (before (n - 1) (by omega) (by omega)).going

section
variable {again : Prop} {node : Node} {count : Int64} {n : Nat} (rolled : Walk.Rolled node count n)
  {body : List Statement} (repeated : 0 < n) (nonempty : body ≠ [])
  (swap : Statement.Swapped again [.repeated node (.num count) body] (List.replicate n body).flatten program program')
include rolled repeated nonempty swap

/-- A pass that changes no symbol settles both programs or none, if it takes the turns of the pass before it or is
    the first one. -/
theorem tied_unrolled {k : Nat} (pos : 0 < k) (before : ∀ i, 0 < i → i < k → Passed s program neverCancelled i)
    (going : (walked s program k).stop = none) (turns : 1 < k → turnsOf s program k = turnsOf s program (k - 1)) :
    Settled s program' k ↔ Settled s program k := by
  rcases Nat.lt_or_ge 1 k with later | first
  · obtain ⟨i, rfl⟩ : ∃ i, k = i + 2 := ⟨k - 2, by omega⟩
    exact settled_unrolled rolled swap s (before (i + 1) i.succ_pos (by omega)).going going (turns later)
  · obtain rfl : k = 1 := by omega
    have copies : (List.replicate n body).flatten ≠ [] := by
      obtain ⟨i, rfl⟩ : ∃ i, n = i + 1 := ⟨n - 1, by omega⟩
      simp [replicate_succ, nonempty]
    have filled : program ≠ [] ∧ program' ≠ [] := by
      cases swap <;> simp [copies]
    exact iff_of_false (not_settled_one filled.2) (not_settled_one filled.1)

variable {found found' : Diagnostics} (reports : found'.severities = found.severities)
include reports

/-- **A repetition can be written out**: the runs end in the same way, and with the same pass. -/
theorem passesOver_unrolled_same (kept : TurnsKept s program) :
    Outcome.Same (passesOver s neverCancelled found program) (passesOver s neverCancelled found' program') := by
  obtain ⟨m, e⟩ := exists_endsAt s program found
  obtain ⟨m', e'⟩ := exists_endsAt s program' found'
  obtain ⟨rfl, tied⟩ := (alongside_unrolled rolled swap s).ends_together
    (fun pos le before going unchanged => tied_unrolled rolled repeated nonempty swap pos before going
      fun later => kept _ later le before going unchanged) e e'
  have walks := sameWalks_unrolled rolled swap s
  exact e.same e' (walks.walked _) (walks.table _) (walks.table _) tied reports

/-- **A repetition can be written out**: the runs end in the same way, perhaps one of them with one pass more. -/
theorem passesOver_unrolled_close (settles : LaterTurnsSettle s program) :
    Outcome.Close (passesOver s neverCancelled found program) (passesOver s neverCancelled found' program') := by
  have meets : Meets s program program' := by
    intro k pos le before going unchanged
    by_cases same : 1 < k → turnsOf s program k = turnsOf s program (k - 1)
    · exact .inl (tied_unrolled rolled repeated nonempty swap pos before going same)
    · rw [Classical.not_imp] at same
      exact .inr ((settles k same.1 le before going unchanged).resolve_left same.2)
  exact (alongside_unrolled rolled swap s).close (sameWalks_unrolled rolled swap s) meets reports

end

end Assembly

end Z80Asm
