import Z80Asm.Proofs.UntakenBlocks

/-!
# Runs alongside each other

Two programs may do the same in every pass, and still need another number of passes: a pass may settle one of them,
while the other one has sizes or symbols that are only settled by the next pass.  If nothing changes between these
two passes but that, then both runs end with the same result.
-/

namespace Z80Asm

open Diagnostics

variable {o o' : Outcome} {S : Numbering} {found found' : Diagnostics} {R : SizeRel}

def Outcome.passes : Outcome → Nat
  | .finished r => r.passes
  | .outOfBounds => 0

/-- Runs that end in the same way, perhaps with one pass more or less. -/
structure Outcome.Close (o o' : Outcome) : Prop where
  agree : o.Agree o'
  more : o'.passes ≤ o.passes + 1
  fewer : o.passes ≤ o'.passes + 1

theorem Outcome.Same.close (h : o.Same o') : o.Close o' := by
  cases h with
  | outOfBounds => exact ⟨.outOfBounds, Nat.zero_le _, Nat.zero_le _⟩
  | finished h =>
    refine ⟨.finished { h with passes := rfl }, ?_, ?_⟩
    · exact Nat.le_succ_of_le (Nat.le_of_eq h.passes)
    · exact Nat.le_succ_of_le (Nat.le_of_eq h.passes.symm)

namespace Pass.Alike
variable {p q : Pass} (alike : p.Alike q)
include alike

theorem turn?_of_testsAlike {v : Visit} (tests : v.TestsAlike p.prev q.prev) :
    (v.redate q.index).turn? q = v.turn? p := by
  obtain ⟨s, w⟩ := v
  rcases s with _ | ⟨node, ⟨e⟩ | ⟨name, negated⟩, yes, no⟩ | ⟨node, count, body⟩
  · rfl
  · simp only [Visit.turn?, Visit.redate, alike.enter, alike.test_nonzero]
  · have same := alike.isDefined w node name
    rw [if_pos (Visit.testsAlike_defined.1 tests)] at same
    have outcome : (((w.redate q.index).enter q node).test q node (.defined name negated)).1 =
        ((w.enter p node).test p node (.defined name negated)).1 := by
      simp only [Walk.test, same]
    simp only [Visit.turn?, Visit.redate, outcome]
  · simp only [Visit.turn?, Visit.redate, alike.enter, alike.eval]

theorem turns_eq {vs vs' : List Visit} {w w' : Walk} (h : InStep p q vs vs' w w') : turns q vs' = turns p vs := by
  rw [h.visits, turns, turns, List.filterMap_map]
  exact List.filterMap_congr fun v hv => alike.turn?_of_testsAlike (h.tests v hv)

end Pass.Alike

namespace Assembly
variable {s : Settings} {program program' : List Statement}

/-- A pass that repeats the one before it takes the same turns. -/
theorem turnsOf_succ {n : Nat} (unchanged : Unchanged s program n)
    (again : outcomes s program (n + 1) = outcomes s program n) :
    turnsOf s program (n + 1) = turnsOf s program n := by
  have alike := alike_of_unchanged unchanged (n + 1)
  have course := alike.lockstep_or_fork program { ledger := predefined s }
  rw [Walk.redate_start] at course
  rcases course with inStep | parted
  · exact alike.turns_eq inStep
  · exact absurd again.symm parted.forks.ne

/-! ## Where runs end -/

/-- A run ends with pass `n`. -/
structure EndsAt (s : Settings) (program : List Statement) (found : Diagnostics) (n : Nat) (o : Outcome) : Prop where
  pos : 0 < n
  le : n ≤ s.passLimit
  before : ∀ k, 0 < k → k < n → Passed s program neverCancelled k
  ending : Ending s program neverCancelled found s.passLimit n o

theorem exists_endsAt (s : Settings) (program : List Statement) (found : Diagnostics) :
    ∃ n, EndsAt s program found n (passesOver s neverCancelled found program) := by
  obtain ⟨n, pos, le, before, ending⟩ := run_ending s program neverCancelled found
  exact ⟨n, pos, le, before, ending⟩

namespace EndsAt
variable {n : Nat}

section
variable (h : EndsAt s program found n o)
include h

theorem settled_or (going : (walked s program n).stop = none) : Settled s program n ∨ n = s.passLimit := by
  cases h.ending with
  | cancelled off => cases off
  | outOfBounds stop => cases going.symm.trans stop
  | limit stop => cases going.symm.trans stop
  | settled _ settled => exact .inl settled
  | exhausted _ _ full => exact .inr full

theorem le_of_settled {k : Nat} (pos : 0 < k) (settled : Settled s program k) : n ≤ k := by
  by_contra later
  exact (h.before k pos (by omega)).unsettled settled

theorem eq_settled (going : (walked s program n).stop = none) (settled : Settled s program n) :
    o = .finished (final n (walked s program n) (table s program n)
      (found ++ (walked s program n).diagnostics.toList)) := by
  cases h.ending with
  | cancelled off => cases off
  | outOfBounds stop => cases going.symm.trans stop
  | limit stop => cases going.symm.trans stop
  | settled => rfl
  | exhausted _ unsettled => exact absurd settled unsettled

theorem eq_exhausted (going : (walked s program n).stop = none) (unsettled : ¬ Settled s program n) :
    o = .finished (final n (walked s program n) (table s program n)
      (found ++ (walked s program n).diagnostics.toList ++
        unstable n (table s program n) ((table s program n).diff (table s program (n - 1))))) := by
  cases h.ending with
  | cancelled off => cases off
  | outOfBounds stop => cases going.symm.trans stop
  | limit stop => cases going.symm.trans stop
  | settled _ settled => exact absurd settled unsettled
  | exhausted => rfl

theorem eq_outOfBounds (stop : (walked s program n).stop = some .outOfBounds) : o = .outOfBounds := by
  cases h.ending with
  | cancelled off => cases off
  | outOfBounds => rfl
  | limit other => cases stop.symm.trans other
  | settled going => cases stop.symm.trans going
  | exhausted going => cases stop.symm.trans going

theorem eq_limit {d : Diagnostic} (stop : (walked s program n).stop = some (.limit d)) :
    o = .finished {
      passes := n, symbols := some (table s program (n - 1)), diagnostics := found ++ [d], fault := d.fault } := by
  cases h.ending with
  | cancelled off => cases off
  | outOfBounds other => cases stop.symm.trans other
  | limit other =>
    cases stop.symm.trans other
    rfl
  | settled going => cases stop.symm.trans going
  | exhausted going => cases stop.symm.trans going

/-- Runs that end with the same pass end in the same way, if the pass does the same, and settles both programs or
    none. -/
theorem same (h' : EndsAt s program' found' n o') (walk : Walk.Placed S R (walked s program n) (walked s program' n))
    (prev : Table.Placed S (table s program (n - 1)) (table s program' (n - 1)))
    (next : Table.Placed S (table s program n) (table s program' n))
    (tied : (walked s program n).stop = none → (Settled s program' n ↔ Settled s program n))
    (reports : found'.severities = found.severities) : o.Same o' := by
  have reports' := severities_append reports walk.diagnostics
  have stop := walk.stop
  generalize left : (walked s program n).stop = x, right : (walked s program' n).stop = y at stop
  cases stop with
  | some stop =>
    cases stop with
    | outOfBounds =>
      rw [h.eq_outOfBounds left, h'.eq_outOfBounds right]
      exact .outOfBounds
    | limit severity fault =>
      rw [h.eq_limit left, h'.eq_limit right]
      have last : severities [_] = severities [_] := congrArg (fun s => [s]) severity
      exact .finished (.of_placed fault rfl rfl (.some prev) (severities_append reports last))
  | none =>
    by_cases settled : Settled s program n
    · rw [h.eq_settled left settled, h'.eq_settled right ((tied left).2 settled)]
      exact .finished (final_placed walk next n reports')
    · rw [h.eq_exhausted left settled, h'.eq_exhausted right (mt (tied left).1 settled)]
      exact .finished (final_placed walk next n (severities_append reports' (unstable_severities next prev n)))

end

end EndsAt

/-! ## Two runs -/

/-- What the passes over two programs have in common, as long as they are `near`. -/
structure Alongside (s : Settings) (program program' : List Statement) (near : Nat → Prop) : Prop where
  going : ∀ {n}, near n → ((walked s program' n).stop = none ↔ (walked s program n).stop = none)
  unchanged : ∀ {n}, near n → Unchanged s program' n → Unchanged s program n
  /-- A pass that takes the turns of the pass before it settles both programs or none. -/
  settled : ∀ {n}, near (n + 2) → (walked s program (n + 1)).stop = none → (walked s program (n + 2)).stop = none →
    turnsOf s program (n + 2) = turnsOf s program (n + 1) →
      (Settled s program' (n + 2) ↔ Settled s program (n + 2))
  /-- The passes of a run over the first program are near, and so is one that repeats the last one. -/
  made : ∀ {n}, 0 < n → n ≤ s.passLimit → (∀ k, 0 < k → k < n → Passed s program neverCancelled k) → near n
  repeats : ∀ {n}, near n → walked s program (n + 1) = (walked s program n).redate (n + 1) → near (n + 1)

/-- Where a run over the first program comes to a pass that changes no symbol, the pass settles both programs or
    none, or a further pass is allowed in which the tests for definitions have the same outcomes again. -/
def Meets (s : Settings) (program program' : List Statement) : Prop :=
  ∀ n, 0 < n → n ≤ s.passLimit → (∀ k, 0 < k → k < n → Passed s program neverCancelled k) →
    (walked s program n).stop = none → Unchanged s program n →
      (Settled s program' n ↔ Settled s program n) ∨
        (n < s.passLimit ∧ outcomes s program (n + 1) = outcomes s program n)

/-- The pass behind pass `n` repeats it. -/
def Recurs (s : Settings) (program : List Statement) (n : Nat) : Prop :=
  walked s program (n + 1) = (walked s program n).redate (n + 1)

namespace Recurs
variable {n : Nat} (h : Recurs s program n)
include h

theorem ledger : (walked s program (n + 1)).ledger = (walked s program n).ledger := by
  rw [h, Walk.redate_ledger]

theorem code : (walked s program (n + 1)).code = (walked s program n).code := by
  rw [h]
  rfl

theorem severities : Diagnostics.severities (walked s program (n + 1)).diagnostics.toList =
    Diagnostics.severities (walked s program n).diagnostics.toList := by
  rw [h, Walk.redate_severities]

theorem settled (pos : 0 < n) (going : (walked s program n).stop = none) :
    Settled s program (n + 1) ∧ (walked s program (n + 1)).stop = none := by
  refine ⟨settled_succ pos h, ?_⟩
  rw [h, Walk.redate, going]
  rfl

end Recurs

theorem table_of_pos {n : Nat} (pos : 0 < n) :
    table s program n = (walked s program n).ledger.freeze (table s program (n - 1)) n := by
  obtain ⟨k, rfl⟩ : ∃ k, n = k + 1 := ⟨n - 1, by omega⟩
  exact table_succ s program k

/-- Runs that settle end in the same way, if one of them goes on with a pass that repeats the one before it. -/
theorem EndsAt.close {m m' : Nat} (h : EndsAt s program found m o) (h' : EndsAt s program' found' m' o')
    (walk : Walk.Placed S R (walked s program m') (walked s program' m'))
    (recurs : m' = m + 1 ∧ Recurs s program m ∨ m = m' + 1 ∧ Recurs s program m')
    (going : (walked s program m).stop = none) (settled : Settled s program m)
    (going' : (walked s program' m').stop = none) (settled' : Settled s program' m')
    (reports : found'.severities = found.severities) : o.Close o' := by
  have same : (walked s program m').ledger = (walked s program m).ledger ∧
      (walked s program m').code = (walked s program m).code ∧
      severities (walked s program m').diagnostics.toList = severities (walked s program m).diagnostics.toList := by
    rcases recurs with ⟨rfl, recurs⟩ | ⟨rfl, recurs⟩
    · exact ⟨recurs.ledger, recurs.code, recurs.severities⟩
    · exact ⟨recurs.ledger.symm, recurs.code.symm, recurs.severities.symm⟩
  have symbols : Table.Placed S (table s program m) (table s program' m') := by
    rw [table_of_pos h.pos, table_of_pos h'.pos, ← same.1]
    exact walk.ledger.freeze ..
  rw [h.eq_settled going settled, h'.eq_settled going' settled']
  refine ⟨final_agree (walk.code.trans same.2.1) symbols _ _
    (severities_append reports (walk.diagnostics.trans same.2.2)), ?_, ?_⟩
  · change m' ≤ m + 1
    omega
  · change m ≤ m' + 1
    omega

namespace Alongside
variable {near : Nat → Prop} {m m' : Nat}

section
variable (h : Alongside s program program' near)
include h

theorem meets (settles : TurnsSettle s program) : Meets s program program' := by
  intro n pos le before going unchanged
  rcases settles n pos le before going unchanged with ⟨later, same⟩ | again
  · obtain ⟨k, rfl⟩ : ∃ k, n = k + 2 := ⟨n - 2, by omega⟩
    exact .inl (h.settled (h.made pos le before) (before (k + 1) k.succ_pos (by omega)).going going same)
  · exact .inr again

/-- **Both runs end with the same pass**, which settles both programs or none, **or one of them with the next one**,
    and then each with a pass that settles its program. -/
theorem ends (meets : Meets s program program')
    (e : EndsAt s program found m o) (e' : EndsAt s program' found' m' o') :
    (m' = m ∧ ((walked s program m).stop = none → (Settled s program' m ↔ Settled s program m))) ∨
      near m' ∧ (m' = m + 1 ∧ Recurs s program m ∨ m = m' + 1 ∧ Recurs s program m') ∧
        (walked s program m).stop = none ∧ Settled s program m ∧
        (walked s program' m').stop = none ∧ Settled s program' m' := by
  have near_m := h.made e.pos e.le e.before
  rcases Nat.lt_trichotomy m m' with lt | rfl | lt
  · right
    have passed' := e'.before m e.pos lt
    have going := (h.going near_m).1 passed'.going
    have settled : Settled s program m := (e.settled_or going).resolve_right fun full => by
      have := e'.le
      omega
    rcases meets m e.pos e.le e.before going settled.unchanged with tied | ⟨-, again⟩
    · exact absurd (tied.2 settled) passed'.unsettled
    · have repeats := walked_succ settled.unchanged again
      obtain ⟨next, going_next⟩ := Recurs.settled repeats e.pos going
      have near_next := h.repeats near_m repeats
      have settled' : Settled s program' (m + 1) := by
        obtain ⟨k, rfl⟩ : ∃ k, m = k + 1 := ⟨m - 1, by have := e.pos; omega⟩
        exact (h.settled near_next going going_next (turnsOf_succ settled.unchanged again)).2 next
      obtain rfl : m' = m + 1 := by
        have := e'.le_of_settled m.succ_pos settled'
        omega
      exact ⟨near_next, .inl ⟨rfl, repeats⟩, going, settled, (h.going near_next).2 going_next, settled'⟩
  · refine .inl ⟨rfl, fun going => ?_⟩
    have going' := (h.going near_m).2 going
    by_cases settled : Settled s program m <;> by_cases settled' : Settled s program' m
    · exact iff_of_true settled' settled
    · rcases meets m e.pos e.le e.before going settled.unchanged with tied | ⟨allowed, -⟩
      · exact tied
      · have := (e'.settled_or going').resolve_left settled'
        omega
    · have unchanged := h.unchanged near_m settled'.unchanged
      rcases meets m e.pos e.le e.before going unchanged with tied | ⟨allowed, -⟩
      · exact tied
      · have := (e.settled_or going).resolve_left settled
        omega
    · exact iff_of_false settled' settled
  · right
    have le' : m' ≤ s.passLimit := e'.le
    have before' : ∀ k, 0 < k → k < m' → Passed s program neverCancelled k :=
      fun k pos early => e.before k pos (by omega)
    have near_m' := h.made e'.pos le' before'
    have passed := e.before m' e'.pos lt
    have going' := (h.going near_m').2 passed.going
    have settled' : Settled s program' m' := (e'.settled_or going').resolve_right fun full => by
      have := e.le
      omega
    have unchanged := h.unchanged near_m' settled'.unchanged
    rcases meets m' e'.pos le' before' passed.going unchanged with tied | ⟨-, again⟩
    · exact absurd (tied.1 settled') passed.unsettled
    · have repeats := walked_succ unchanged again
      obtain ⟨next, going_next⟩ := Recurs.settled repeats e'.pos passed.going
      obtain rfl : m = m' + 1 := by
        have := e.le_of_settled m'.succ_pos next
        omega
      exact ⟨near_m', .inr ⟨rfl, repeats⟩, going_next, next, going', settled'⟩

/-- Runs whose passes do the same end in the same way, perhaps one of them with one pass more. -/
theorem close (walks : SameWalks S s program program') (meets : Meets s program program')
    (reports : found'.severities = found.severities) :
    Outcome.Close (passesOver s neverCancelled found program) (passesOver s neverCancelled found' program') := by
  obtain ⟨m, e⟩ := exists_endsAt s program found
  obtain ⟨m', e'⟩ := exists_endsAt s program' found'
  rcases h.ends meets e e' with ⟨rfl, tied⟩ | ⟨-, recurs, going, settled, going', settled'⟩
  · exact (e.same e' (walks.walked _) (walks.table _) (walks.table _) tied reports).close
  · exact e.close e' (walks.walked _) recurs going settled going' settled' reports

theorem ends_together
    (tied : ∀ {n}, 0 < n → n ≤ s.passLimit → (∀ k, 0 < k → k < n → Passed s program neverCancelled k) →
      (walked s program n).stop = none → Unchanged s program n → (Settled s program' n ↔ Settled s program n))
    (e : EndsAt s program found m o) (e' : EndsAt s program' found' m' o') :
    m' = m ∧ ((walked s program m).stop = none → (Settled s program' m ↔ Settled s program m)) := by
  have meets : Meets s program program' :=
    fun _ pos le before going unchanged => .inl (tied pos le before going unchanged)
  rcases h.ends meets e e' with together | ⟨-, ⟨rfl, -⟩ | ⟨rfl, -⟩, going, settled, going', settled'⟩
  · exact together
  · have settled' := (tied e.pos e.le e.before going settled.unchanged).2 settled
    exact absurd settled' (e'.before m e.pos m.lt_succ_self).unsettled
  · have passed := e.before m' e'.pos m'.lt_succ_self
    have near' := h.made e'.pos e'.le fun k pos early => e.before k pos (Nat.lt_succ_of_lt early)
    have tied' := tied e'.pos e'.le (fun k pos early => e.before k pos (Nat.lt_succ_of_lt early)) passed.going
      (h.unchanged near' settled'.unchanged)
    exact absurd (tied'.1 settled') passed.unsettled

end

theorem of_sameWalks (h : SameWalks S s program program')
    (settled : ∀ {n}, (walked s program (n + 1)).stop = none → (walked s program (n + 2)).stop = none →
      turnsOf s program (n + 2) = turnsOf s program (n + 1) → (Settled s program' (n + 2) ↔ Settled s program (n + 2))) :
    Alongside s program program' fun _ => True where
  going _ := h.going _
  unchanged _ := (h.unchanged _).1
  settled _ := settled
  made _ _ _ := trivial
  repeats _ _ := trivial

end Alongside

/-- **Runs over programs that differ in blocks that nothing is done for end in the same way.** -/
theorem passesOver_agree {skips : Prop} (ordered : S.Ordered) (known : S (-1) (-1))
    (placed : Statement.AllPlaced S skips program program') (reports : found'.severities = found.severities)
    (settles : TurnsSettle s program) :
    Outcome.Agree (passesOver s neverCancelled found program) (passesOver s neverCancelled found' program') := by
  have walks := sameWalks_placed s ordered known placed
  have alongside := Alongside.of_sameWalks walks (settled_placed s ordered known placed)
  exact (alongside.close walks (alongside.meets settles) reports).agree

end Assembly

end Z80Asm
