import Z80Asm.Proofs.Congruence

/-!
# The course of a walk

The statements that a walk executes, and the names that it looks up.
-/

namespace Z80Asm

open List

variable {p : Pass} {f : Walk → Walk} {action : Action} {name : Text} {P : Walk → Prop} {Q : Visit → Prop}

/-- The execution of a statement, with the walk just before it. -/
structure Visit where
  statement : Statement
  walk : Walk

def Visit.assigned? (v : Visit) : Option Text :=
  match v.statement with
  | .act _ (.equate name _ true) => some name
  | _ => none

namespace Walk

/-! ## Executed statements -/

/-- The visits of a repeated function `f`, one round after the other. -/
def timesVisits (f : Walk → Walk) (visits : Walk → List Visit) : Nat → Walk → List Visit
  | 0, _ => []
  | n + 1, w => visits w ++ timesVisits f visits n (f w)

mutual

/-- The statements executed by a statement: itself, and those inside of it. -/
def stepVisits (p : Pass) : Statement → Walk → List Visit
  | .act node action, w => [⟨.act node action, w⟩]
  | .choose node test yes no, w =>
    let (ok, v) := (w.enter p node).test p node test
    ⟨.choose node test yes no, w⟩ :: if ok then visits p yes v else visits p no v
  | .repeated node count body, w =>
    let (n, v) := (w.enter p node).eval p node count
    ⟨.repeated node count body, w⟩ ::
      match Cpu.misfit? n 0 repeatLimit true with
      | some _ => []
      | none => timesVisits (steps p body) (visits p body) n.toInt.toNat v

/-- The statements that are executed when statements are executed one after the other. -/
def visits (p : Pass) : List Statement → Walk → List Visit
  | [], _ => []
  | s :: rest, w => if w.stop.isSome then [] else stepVisits p s w ++ visits p rest (step p s w)

end

theorem stepVisits_choose (p : Pass) (node : Node) (test : Test) (yes no : List Statement) (w : Walk) :
    stepVisits p (.choose node test yes no) w =
      ⟨.choose node test yes no, w⟩ ::
        visits p (if ((w.enter p node).test p node test).1 then yes else no) ((w.enter p node).test p node test).2 := by
  change _ :: (if ((w.enter p node).test p node test).1 then _ else _) = _
  split <;> rfl

theorem stepVisits_repeated (p : Pass) (node : Node) (count : Expr) (body : List Statement) (w : Walk) :
    stepVisits p (.repeated node count body) w =
      ⟨.repeated node count body, w⟩ ::
        match Cpu.misfit? ((w.enter p node).eval p node count).1 0 repeatLimit true with
        | some _ => []
        | none => timesVisits (steps p body) (visits p body)
            ((w.enter p node).eval p node count).1.toInt.toNat ((w.enter p node).eval p node count).2 :=
  rfl

theorem visits_cons_of_none {s : Statement} {rest : List Statement} {w : Walk} (h : w.stop = none) :
    visits p (s :: rest) w = stepVisits p s w ++ visits p rest (step p s w) := by
  simp [visits, h]

/-- A visit lies on the way from `w` to `w'`: its statement is executed in between. -/
structure Between (p : Pass) (w w' : Walk) (v : Visit) : Prop where
  going : v.walk.stop = none
  before : Moves p w v.walk
  after : Moves p (step p v.statement v.walk) w'

theorem Between.mono {w w₁ w₂ w' : Walk} {v : Visit} (h : Between p w₁ w₂ v) (before : Moves p w w₁)
    (after : Moves p w₂ w') : Between p w w' v :=
  ⟨h.going, before.trans h.before, h.after.trans after⟩

theorem between_of_mem_timesVisits {visits : Walk → List Visit} (moves : ∀ w, Moves p w (f w))
    (between : ∀ w, ∀ v ∈ visits w, Between p w (f w) v) :
    ∀ (n : Nat) (w : Walk), ∀ v ∈ timesVisits f visits n w, Between p w (times f n w) v
  | 0, _, _, h => by simp [timesVisits] at h
  | n + 1, w, v, h => by
    rcases mem_append.1 h with h | h
    · exact (between w v h).mono .refl (times_moves moves n (f w))
    · exact (between_of_mem_timesVisits moves between n (f w) v h).mono (moves w) .refl

/-- **Every visited statement is executed on the way of the walk.** -/
theorem between_of_mem_visits (p : Pass) :
    ∀ program w, ∀ v ∈ visits p program w, Between p w (steps p program w) v := by
  refine (Statement.tree_induction
    (P := fun s => ∀ w, w.stop = none → ∀ v ∈ stepVisits p s w, Between p w (step p s w) v)
    (fun node action w going v hv => ?_) (fun node test yes no yes_ih no_ih w going v hv => ?_)
    (fun node count body ih w going v hv => ?_) (fun w v hv => ?_) (fun s rest s_ih ih w v hv => ?_)).2
  · rw [mem_singleton.1 hv]
    exact ⟨going, .refl, .refl⟩
  · rw [stepVisits_choose] at hv
    rcases mem_cons.1 hv with rfl | hv
    · exact ⟨going, .refl, .refl⟩
    · rw [step_choose]
      have start := (enter_moves w p node).trans (test_moves (w.enter p node) p node test)
      split at hv
      next ok => rw [if_pos ok]; exact (yes_ih _ v hv).mono start (Move.measure _).moves
      next ok => rw [if_neg ok]; exact (no_ih _ v hv).mono start (Move.measure _).moves
  · rw [stepVisits_repeated] at hv
    rcases mem_cons.1 hv with rfl | hv
    · exact ⟨going, .refl, .refl⟩
    · rw [step_repeated]
      have start := (enter_moves w p node).tail (.eval node count)
      cases fits : Cpu.misfit? ((w.enter p node).eval p node count).1 0 repeatLimit true with
      | some m => simp [fits] at hv
      | none =>
        rw [fits] at hv
        exact (between_of_mem_timesVisits (steps_moves p body) ih _ _ v hv).mono start (Move.measure _).moves
  · simp [visits] at hv
  · by_cases going : w.stop = none
    · rw [visits_cons_of_none going] at hv
      rw [steps_cons_of_none going]
      rcases mem_append.1 hv with hv | hv
      · exact (s_ih w going v hv).mono .refl (steps_moves p rest _)
      · exact (ih _ v hv).mono (step_moves p s w) .refl
    · simp [visits, Option.isSome_iff_ne_none.2 going] at hv

/-! ## Variables

Only an assignment changes the variables. -/

section
variable (w : Walk) (p : Pass) (node : Node)

theorem list_vars (address : Int64) (start : Nat) : (w.list p node address start).vars = w.vars := by
  unfold list; split <;> rfl

theorem define_vars (name : Text) (value : Int64) (scope : Scope) :
    (w.define p node name value scope).vars = (w.assign name value scope).vars := by
  rcases w.define_cases p node name value scope with ⟨_, _, e⟩ | e | ⟨_, e⟩
  · rw [e]
  · rw [e]
  · rw [e]; rfl

theorem defineLabel_vars : (w.defineLabel p node).vars = w.vars := by
  unfold defineLabel
  split
  next name _ => rw [define_vars, assign_of_ne _ _ _ _ (Scope.ofName_ne_assigned name)]
  next => rfl

theorem enter_vars : (w.enter p node).vars = w.vars := by
  rw [enter, defineLabel_vars, list_vars]

theorem act_vars (plain : action.defines = false) : (w.act p node action).vars = w.vars :=
  Invariant.act (I := fun v => v.vars = w.vars)
    ⟨fun _ same => same, fun _ _ same => same, fun e same => (eval_vars _ p node e).trans same⟩ rfl plain
    (fun _ _ _ same => same) fun _ _ same => same

theorem foldl_vars {α : Type} {f : Walk → α → Walk} (h : ∀ w a, (f w a).vars = w.vars)
    (as : List α) : (as.foldl f w).vars = w.vars := by
  induction as generalizing w with
  | nil => rfl
  | cons a as ih => exact (ih _).trans (h w a)

theorem runScript_vars (source : Text) : (w.runScript p node source).vars = w.vars := by
  simp only [runScript]
  split
  · rfl
  · refine foldl_vars _ (fun w constant => ?_) _
    simp only [defineScripted]
    split
    · rw [define_vars, assign_of_ne _ _ _ _ (by simp)]
    · rfl

theorem mem_act_vars (h : name ∈ (w.act p node action).vars) :
    name ∈ w.vars ∨ ∃ value, action = .equate name value true := by
  cases defines : action.defines with
  | false => exact .inl (by rwa [act_vars w p node defines] at h)
  | true =>
    cases action with
    | equate other value assigned =>
      change name ∈ ((w.eval p node value).2.define p node other _ _).vars at h
      rw [define_vars] at h
      cases assigned with
      | false =>
        rw [assign_of_ne _ _ _ _ (by simpa using Scope.ofName_ne_assigned other), eval_vars] at h
        exact .inl h
      | true =>
        change name ∈ (w.eval p node value).2.vars.insert other _ at h
        rw [Std.TreeMap.mem_insert, eval_vars] at h
        rcases h with same | h
        · exact .inr ⟨value, by rw [Std.LawfulEqCmp.eq_of_compare same]⟩
        · exact .inl h
    | script source => rw [act, runScript_vars] at h; exact .inl h
    | _ => cases defines

end

theorem exists_visit_of_times {visitsOf : Walk → List Visit} (h : ∀ w, P (f w) → P w ∨ ∃ v ∈ visitsOf w, Q v) :
    ∀ (n : Nat) (w : Walk), P (times f n w) → P w ∨ ∃ v ∈ timesVisits f visitsOf n w, Q v
  | 0, _, now => .inl now
  | n + 1, w, now => by
    rcases exists_visit_of_times h n (f w) now with now | ⟨v, hv, made⟩
    · rcases h w now with now | ⟨v, hv, made⟩
      · exact .inl now
      · exact .inr ⟨v, mem_append_left _ hv, made⟩
    · exact .inr ⟨v, mem_append_right _ hv, made⟩

/-- What no evaluation and no end of a block brings about has been brought about by a visited statement. -/
theorem exists_visit_of_steps (act : ∀ node action w, P (step p (.act node action) w) → P w ∨ Q ⟨.act node action, w⟩)
    (enter : ∀ (s : Statement) w, P (w.enter p s.node) → P w ∨ Q ⟨s, w⟩)
    (eval : ∀ node e w, P (w.eval p node e).2 → P w) (misfit : ∀ node m w, P (w.misfit p node m) → P w)
    (measure : ∀ start w, P (w.measure start) → P w) :
    ∀ program w, P (steps p program w) → P w ∨ ∃ v ∈ visits p program w, Q v := by
  refine (Statement.tree_induction
    (P := fun s => ∀ w, P (step p s w) → P w ∨ ∃ v ∈ stepVisits p s w, Q v)
    (fun node action w now => ?_) (fun node test yes no yes_ih no_ih w now => ?_)
    (fun node count body ih w now => ?_) (fun w now => .inl now) (fun s rest s_ih ih w now => ?_)).2
  · rcases act node action w now with now | made
    · exact .inl now
    · exact .inr ⟨_, mem_singleton.2 rfl, made⟩
  · rw [step_choose] at now
    rw [stepVisits_choose]
    have decided : P ((w.enter p node).test p node test).2 → P w ∨ Q ⟨.choose node test yes no, w⟩ := by
      intro now
      cases test with
      | nonzero e => exact enter (.choose node _ yes no) w (eval node e _ now)
      | defined name negated => exact enter (.choose node _ yes no) w now
    have inside : P ((w.enter p node).test p node test).2 ∨ ∃ v ∈ visits p
        (if ((w.enter p node).test p node test).1 then yes else no) ((w.enter p node).test p node test).2, Q v := by
      have now := measure _ _ now
      split at now
      next ok => rw [if_pos ok]; exact yes_ih _ now
      next ok => rw [if_neg ok]; exact no_ih _ now
    rcases inside with now | ⟨v, hv, made⟩
    · exact (decided now).imp_right fun made => ⟨_, mem_cons_self, made⟩
    · exact .inr ⟨v, mem_cons_of_mem _ hv, made⟩
  · rw [step_repeated] at now
    rw [stepVisits_repeated]
    have start (rest : List Visit) (now : P ((w.enter p node).eval p node count).2) :
        P w ∨ ∃ v ∈ ⟨.repeated node count body, w⟩ :: rest, Q v :=
      (enter (.repeated node count body) w (eval node count _ now)).imp_right fun made =>
        ⟨_, mem_cons_self, made⟩
    have now := measure _ _ now
    cases fits : Cpu.misfit? ((w.enter p node).eval p node count).1 0 repeatLimit true with
    | some m =>
      rw [fits] at now
      exact start _ (misfit node m _ now)
    | none =>
      rw [fits] at now
      rcases exists_visit_of_times ih _ _ now with now | ⟨v, hv, made⟩
      · exact start _ now
      · exact .inr ⟨v, mem_cons_of_mem _ hv, made⟩
  · by_cases going : w.stop = none
    · rw [steps_cons_of_none going] at now
      rw [visits_cons_of_none going]
      rcases ih _ now with now | ⟨v, hv, made⟩
      · rcases s_ih w now with now | ⟨v, hv, made⟩
        · exact .inl now
        · exact .inr ⟨v, mem_append_left _ hv, made⟩
      · exact .inr ⟨v, mem_append_right _ hv, made⟩
    · rw [steps_of_stop (Option.isSome_iff_ne_none.2 going)] at now
      exact .inl now

/-- **A variable has been assigned by a visited statement.** -/
theorem mem_steps_vars : ∀ program w,
    name ∈ (steps p program w).vars → name ∈ w.vars ∨ ∃ v ∈ visits p program w, v.assigned? = some name := by
  refine exists_visit_of_steps (P := fun w => name ∈ w.vars) (fun node action w mem => ?_)
    (fun s w mem => .inl ?_) (fun node e w mem => ?_) (fun _ _ _ mem => mem) (fun _ _ mem => mem)
  · change name ∈ (((w.defineLabel p node).act p node action).list p node _ _).vars at mem
    rw [list_vars] at mem
    rcases mem_act_vars _ p node mem with mem | ⟨value, rfl⟩
    · rw [defineLabel_vars] at mem
      exact .inl mem
    · exact .inr rfl
  · rwa [enter_vars] at mem
  · rwa [eval_vars] at mem

/-! ## Names looked up -/

end Walk

/-- A name that was looked up, and the value that was found for it. -/
structure Read where
  name : Text
  value : Option Int64
  deriving DecidableEq

namespace Walk

/-- What the evaluation of an expression looks up. -/
def reads (w : Walk) (p : Pass) (e : Expr) : List Read :=
  e.names.map fun name => ⟨name, (w.env p).lookup name⟩

def optionReads (w : Walk) (p : Pass) : Option Expr → List Read
  | none => []
  | some e => w.reads p e

/-- What a filling byte looks up; it is not evaluated where something does not fit. -/
def fillReads (w : Walk) (p : Pass) (misfit : Option Cpu.Misfit) (fill : Option Expr) : List Read :=
  if misfit.isSome then [] else w.optionReads p fill

def operandReads (p : Pass) (node : Node) : List Arg → Walk → List Read
  | [], _ => []
  | arg :: rest, w =>
    w.optionReads p arg.expr? ++ operandReads p node rest (match arg.expr? with
      | some e => (w.eval p node e).2
      | none => w)

def itemReads (p : Pass) (node : Node) (width : Width) : List Item → Walk → List Read
  | [], _ => []
  | .bytes text :: rest, w => itemReads p node width rest (w.emitItem p node width (.bytes text))
  | .value e :: rest, w =>
    w.reads p e ++ itemReads p node width rest (w.emitItem p node width (.value e))

/-- What a script finds under the names that it sees. -/
def scriptReads (w : Walk) (p : Pass) : List Read :=
  (w.scriptConstants p).map fun (name, value) => ⟨name, some (.ofInt value)⟩

def actReads (w : Walk) (p : Pass) (node : Node) : Action → List Read
  | .label | .bad _ | .message _ => []
  | .instruction _ args => operandReads p node args w
  | .data width items => itemReads p node width items w
  | .space count fill =>
    let (n, v) := w.eval p node count
    w.reads p count ++ v.fillReads p (Cpu.misfit? n 0 spaceLimit true) fill
  | .align boundary fill =>
    let (n, v) := w.eval p node boundary
    w.reads p boundary ++ v.fillReads p (Cpu.misfit? n 1 spaceLimit true) fill
  | .org address => w.reads p address
  | .equate _ value _ => w.reads p value
  | .incbin _ _ offset length =>
    w.optionReads p offset ++ (w.evalOption p node 0 offset).2.optionReads p length
  | .assert condition => w.reads p condition
  | .script _ => w.scriptReads p

end Walk

/-- What the execution of a statement looks up, without the statements inside of it. -/
def Visit.reads (p : Pass) (v : Visit) : List Read :=
  match v.statement with
  | .act node action => (v.walk.defineLabel p node).actReads p node action
  | .choose node (.nonzero e) _ _ => (v.walk.enter p node).reads p e
  | .choose _ (.defined _ _) _ _ => []
  | .repeated node count _ => (v.walk.enter p node).reads p count

def Visit.branch? (p : Pass) (v : Visit) : Option Bool :=
  match v.statement with
  | .choose node (.defined name negated) _ _ =>
    some ((v.walk.enter p node).isDefined p node name != negated)
  | _ => none

namespace Walk

variable {node : Node}

/-- A look-up on the way from `w` to `w'`: by an evaluation whose report, if there is one, is still to
    come, or for a script. -/
inductive LooksUp (p : Pass) (w w' : Walk) (r : Read) : Prop
  | eval {u : Walk} {node : Node} {e : Expr} (mem : r ∈ u.reads p e) (before : Moves p w u)
      (after : Moves p (u.eval p node e).2 w')
  | script {u : Walk} (mem : r ∈ u.scriptReads p) (before : Moves p w u) (after : Moves p u w')

namespace LooksUp
variable {p : Pass} {w w₁ w₂ w' : Walk} {r : Read}

theorem mono (h : LooksUp p w₁ w₂ r) (before : Moves p w w₁) (after : Moves p w₂ w') : LooksUp p w w' r := by
  cases h with
  | eval mem b a => exact .eval mem (before.trans b) (a.trans after)
  | script mem b a => exact .script mem (before.trans b) (a.trans after)

theorem of_eval (node : Node) {e : Expr} (h : r ∈ w.reads p e) :
    LooksUp p w (w.eval p node e).2 r := .eval h .refl .refl

theorem of_option {missing : Int64} :
    ∀ {e : Option Expr}, r ∈ w.optionReads p e → LooksUp p w (w.evalOption p node missing e).2 r
  | none, h => by simp [optionReads] at h
  | some _, h => of_eval _ h

theorem of_operands : ∀ (args : List Arg) (w : Walk), r ∈ operandReads p node args w →
    LooksUp p w (w.operands p node args).2 r
  | [], _, h => by simp [operandReads] at h
  | arg :: rest, w, h => by
    simp only [operandReads] at h
    simp only [operands]
    cases ha : arg.expr? with
    | none =>
      simp only [ha, optionReads, nil_append] at h
      exact of_operands rest w h
    | some e =>
      simp only [ha, optionReads, mem_append] at h
      rcases h with h | h
      · exact (of_eval node h).mono .refl (operands_moves p node rest _)
      · exact (of_operands rest _ h).mono (Move.eval node e).moves .refl

theorem of_items {width : Width} : ∀ (items : List Item) (w : Walk),
    r ∈ itemReads p node width items w → LooksUp p w (items.foldl (·.emitItem p node width ·) w) r
  | [], _, h => by simp [itemReads] at h
  | .bytes text :: rest, w, h =>
    (of_items rest _ h).mono (emitItem_moves w p node width (.bytes text)) .refl
  | .value e :: rest, w, h => by
    have rest_moves := foldl_moves (fun w => emitItem_moves w p node width) rest (w.emitItem p node width (.value e))
    rcases mem_append.1 h with h | h
    · refine (of_eval node h).mono .refl (.trans ?_ rest_moves)
      exact (misfitWith_moves _ p node _).tail (.emit _)
    · exact (of_items rest _ h).mono (emitItem_moves w p node width (.value e)) .refl

theorem of_reserve {count : Int64} {fill : Option Expr} {misfit : Option Cpu.Misfit}
    (h : r ∈ w.fillReads p misfit fill) : LooksUp p w (w.reserve p node misfit count fill) r := by
  cases misfit with
  | some m => simp [fillReads] at h
  | none =>
    cases fill with
    | none => simp [fillReads, optionReads] at h
    | some e =>
      rw [reserve, emitFill_eq]
      exact (of_eval node h).mono .refl ((misfitWith_moves _ p node _).tail (.emit _))

theorem of_act (action : Action) (h : r ∈ w.actReads p node action) : LooksUp p w (w.act p node action) r := by
  cases action with
  | label | bad | message => simp [actReads] at h
  | instruction m args =>
    refine (of_operands args w h).mono .refl ?_
    simp only [act, emitInstruction]
    split
    · exact fail_moves _ p node _
    · exact (misfitWith_moves _ p node _).tail (.emit _)
  | data width items => exact of_items items w h
  | space count fill =>
    rw [act_space]
    rcases mem_append.1 h with h | h
    · exact (of_eval node h).mono .refl (reserve_moves _ p node _ fill _)
    · exact (of_reserve h).mono (Move.eval node count).moves .refl
  | align boundary fill =>
    rw [act_align]
    rcases mem_append.1 h with h | h
    · exact (of_eval node h).mono .refl (reserve_moves _ p node _ fill _)
    · exact (of_reserve h).mono (Move.eval node boundary).moves .refl
  | org address => exact (of_eval node h).mono .refl (Move.goto _).moves
  | equate name value assigned => exact (of_eval node h).mono .refl (Move.define node name _ _).moves
  | incbin name data offset length =>
    have last := emitPart_moves ((w.evalOption p node 0 offset).2.evalOption p node
      (data.length.toInt64 - (w.evalOption p node 0 offset).1) length).2 p node name data
      (w.evalOption p node 0 offset).1 ((w.evalOption p node 0 offset).2.evalOption p node
        (data.length.toInt64 - (w.evalOption p node 0 offset).1) length).1
    rcases mem_append.1 h with h | h
    · exact (of_option h).mono .refl ((evalOption_moves _ p node _ length).trans last)
    · exact (of_option h).mono (evalOption_moves w p node 0 offset) last
  | assert condition =>
    rw [act_assert]
    refine (of_eval node h).mono .refl ?_
    split
    · exact fail_moves _ p node _
    · exact .refl
  | script source => exact .script h .refl (runScript_moves w p node source)

theorem of_visit {v : Visit} (h : r ∈ v.reads p) : LooksUp p v.walk (step p v.statement v.walk) r := by
  obtain ⟨s, w⟩ := v
  cases s with
  | act node action =>
    exact (of_act action h).mono (defineLabel_moves w p node) ((Move.list node _ _).moves.tail (.measure _))
  | choose node test yes no =>
    cases test with
    | nonzero e =>
      rw [step_choose]
      exact (of_eval node h).mono (enter_moves w p node) ((steps_moves p _ _).tail (.measure _))
    | defined name negated => simp [Visit.reads] at h
  | repeated node count body =>
    rw [step_repeated]
    refine (of_eval node h).mono (enter_moves w p node) (.tail ?_ (.measure _))
    split
    · exact misfit_moves _ p node _
    · exact times_moves (steps_moves p body) _ _

end LooksUp

end Walk

end Z80Asm
