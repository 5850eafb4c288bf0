import Z80Asm.Proofs.Passes

/-!
# The code of executed statements

A pass lists each statement when it is executed: a block before the statements inside of it and without code,
any other statement with the code that it emitted.  So the entries are the executed statements in their order,
and what is emitted between two of them is the code of the first.
-/

namespace Z80Asm

open List

namespace Walk

/-! ## What is emitted -/

/-- Code is emitted at the program counter, and nothing is listed or measured. -/
structure Emits (out : List UInt8) (w w' : Walk) : Prop where
  code : w'.code.toList = w.code.toList ++ out
  pc : w'.pc = w.pc + out.length.toInt64
  entries : w'.entries = w.entries
  sizes : w'.sizes = w.sizes

def Advances (w w' : Walk) : Prop := ∃ out, Emits out w w'

namespace Emits
variable {w w₁ w₂ : Walk} {out out' : List UInt8}

theorem advances (h : Emits out w w₁) : Advances w w₁ := ⟨out, h⟩

theorem silent (code : w₁.code = w.code) (pc : w₁.pc = w.pc) (entries : w₁.entries = w.entries)
    (sizes : w₁.sizes = w.sizes) : Emits [] w w₁ :=
  ⟨by simp [code], pc.trans (Int64.add_zero _).symm, entries, sizes⟩

theorem refl (w : Walk) : Emits [] w w := silent rfl rfl rfl rfl

theorem trans (h : Emits out w w₁) (g : Emits out' w₁ w₂) : Emits (out ++ out') w w₂ where
  code := by rw [g.code, h.code, append_assoc]
  pc := by
    rw [g.pc, h.pc, length_append, Int64.add_assoc]
    congr 1
    exact (Int64.ofNat_add ..).symm
  entries := g.entries.trans h.entries
  sizes := g.sizes.trans h.sizes

end Emits

theorem Advances.trans {w w₁ w₂ : Walk} (h : Advances w w₁) (g : Advances w₁ w₂) : Advances w w₂ := by
  obtain ⟨_, h⟩ := h
  obtain ⟨_, g⟩ := g
  exact (h.trans g).advances

section
variable (w : Walk) (p : Pass) (node : Node)

theorem emit_emits (out : List UInt8) : Emits out w (w.emit out) := ⟨by simp [emit], rfl, rfl, rfl⟩

theorem report_emits (severity : Severity) (fault : Fault) : Emits [] w (w.report p node severity fault) :=
  .silent rfl rfl rfl rfl

theorem eval_emits (e : Expr) : Emits [] w (w.eval p node e).2 := by
  unfold eval
  dsimp only
  split <;> exact .silent rfl rfl rfl rfl

theorem define_emits (name : Text) (value : Int64) (scope : Scope) : Emits [] w (w.define p node name value scope) := by
  have assign : Emits [] w (w.assign name value scope) := by
    unfold Walk.assign
    split <;> exact .silent rfl rfl rfl rfl
  rcases w.define_cases p node name value scope with ⟨_, _, e⟩ | e | ⟨_, e⟩
  · rw [e]
    exact assign.trans (.silent rfl rfl rfl rfl)
  · rw [e]
    exact assign.trans (.silent rfl rfl rfl rfl)
  · rw [e]
    exact assign.trans (.silent rfl rfl rfl rfl)

theorem defineLabel_emits : Emits [] w (w.defineLabel p node) := by
  unfold defineLabel
  split
  · exact define_emits w p node _ _ _
  · exact .refl w

theorem test_emits : ∀ test, Emits [] w (w.test p node test).2
  | .nonzero e => eval_emits w p node e
  | .defined _ _ => .refl w

theorem operands_emits (args : List Arg) : Emits [] w (w.operands p node args).2 := by
  induction args generalizing w with
  | nil => exact .refl w
  | cons arg rest ih =>
    simp only [operands]
    cases arg.expr? with
    | none => exact ih w
    | some e => exact (eval_emits w p node e).trans (ih _)

theorem foldl_advances {α : Type} {f : Walk → α → Walk} (h : ∀ w a, Advances w (f w a)) (as : List α) :
    Advances w (as.foldl f w) := by
  induction as generalizing w with
  | nil => exact (Emits.refl w).advances
  | cons a as ih => exact (h w a).trans (ih _)

theorem runScript_advances (source : Text) : Advances w (w.runScript p node source) := by
  simp only [runScript]
  split
  · exact (report_emits w p node _ _).advances
  · refine (emit_emits w _).advances.trans (foldl_advances _ (fun w constant => ?_) _)
    simp only [defineScripted]
    split
    · exact (define_emits w p node _ _ _).advances
    · exact (report_emits w p node _ _).advances

/-- **Every action emits code at the program counter**, except for `org`, which emits none and moves it. -/
theorem act_advances (action : Action) :
    Advances w (w.act p node action) ∨
      (∃ address, action = .org address) ∧ (w.act p node action).code = w.code ∧
        (w.act p node action).entries = w.entries ∧ (w.act p node action).sizes = w.sizes := by
  have along : Invariant (Advances w) p node :=
    ⟨fun code h => h.trans (emit_emits _ code).advances,
      fun severity fault h => h.trans (report_emits _ p node severity fault).advances,
      fun e h => h.trans (eval_emits _ p node e).advances⟩
  have start : Advances w w := (Emits.refl w).advances
  cases action with
  | org address =>
    have evaluated := eval_emits w p node address
    have code : (w.eval p node address).2.code = w.code := by simpa using evaluated.code
    exact .inr ⟨⟨address, rfl⟩, code, evaluated.entries, evaluated.sizes⟩
  | equate name value assigned =>
    exact .inl ((eval_emits w p node value).trans (define_emits _ p node _ _ _)).advances
  | script source => exact .inl (runScript_advances w p node source)
  | _ => exact .inl (along.act start rfl (by simp) fun _ _ h => h.trans ⟨[], .silent rfl rfl rfl rfl⟩)

end

end Walk

/-! ## Trails -/

namespace Visit

/-- The walk after a statement and before the ones inside of it. -/
def passed (p : Pass) (v : Visit) : Walk :=
  match v.statement with
  | .act node action => (v.walk.defineLabel p node).act p node action
  | _ => v.walk

def code (p : Pass) (v : Visit) : List UInt8 := (v.passed p).code.toList.drop v.walk.code.size

def entry (p : Pass) (v : Visit) : ListingEntry :=
  { line := v.statement.node.pos.line, address := v.walk.pc, code := v.code p, text := v.statement.node.text }

def isOrg (v : Visit) : Bool :=
  match v.statement with
  | .act _ (.org _) => true
  | _ => false

theorem passed_code (p : Pass) (v : Visit) :
    (v.passed p).code.toList = v.walk.code.toList ++ v.code p ∧
      (v.isOrg = false → (v.passed p).pc = v.walk.pc + (v.code p).length.toInt64) := by
  have emitted {c : List UInt8} (h : Walk.Emits c v.walk (v.passed p)) : v.code p = c := by
    rw [code, h.code, drop_left' Array.length_toList]
  have done {c : List UInt8} (h : Walk.Emits c v.walk (v.passed p)) :
      (v.passed p).code.toList = v.walk.code.toList ++ v.code p ∧
        (v.isOrg = false → (v.passed p).pc = v.walk.pc + (v.code p).length.toInt64) := by
    rw [emitted h]
    exact ⟨h.code, fun _ => h.pc⟩
  obtain ⟨statement, w⟩ := v
  cases statement with
  | choose | repeated => exact done (.refl w)
  | act node action =>
    have label := w.defineLabel_emits p node
    rcases (w.defineLabel p node).act_advances p node action with ⟨c, h⟩ | ⟨⟨address, rfl⟩, same, -⟩
    · exact done (label.trans h)
    · have same : (passed p ⟨.act node (.org address), w⟩).code.toList = w.code.toList := by
        have labelled := label.code
        rw [append_nil] at labelled
        rw [← labelled, ← same]
        rfl
      refine ⟨?_, nofun⟩
      simp [code, same]

end Visit

/-- Where a walk stands: the program counter and the code so far. -/
def Walk.spot (w : Walk) : Int64 × List UInt8 := (w.pc, w.code.toList)

/-- Executed statements, each of which starts where the one before it ended. -/
inductive Trail (p : Pass) : Int64 × List UInt8 → List Visit → Int64 × List UInt8 → Prop
  | nil (spot : Int64 × List UInt8) : Trail p spot [] spot
  | cons {v : Visit} {vs : List Visit} {here there : Int64 × List UInt8} (starts : v.walk.spot = here)
      (behind : Trail p (v.passed p).spot vs there) : Trail p here (v :: vs) there

namespace Trail
variable {p : Pass} {a b c : Int64 × List UInt8} {vs vs' : List Visit}

theorem append (h : Trail p a vs b) (g : Trail p b vs' c) : Trail p a (vs ++ vs') c := by
  induction h with
  | nil => exact g
  | cons starts _ ih => exact .cons starts (ih g)

theorem code (h : Trail p a vs b) : b.2 = a.2 ++ vs.flatMap (·.code p) := by
  induction h with
  | nil => simp
  | @cons v vs here there starts _ ih =>
    have emitted : (v.passed p).spot.2 = v.walk.spot.2 ++ v.code p := (v.passed_code p).1
    rw [ih, emitted, starts, flatMap_cons, append_assoc]

/-- **Addresses on a trail**: after a statement that does not move the program counter follows the one behind
    its code. -/
theorem addresses (h : Trail p a vs b) :
    vs.IsChain fun v v' => v.isOrg = false → v'.walk.pc = v.walk.pc + (v.code p).length.toInt64 := by
  induction h with
  | nil => exact .nil
  | @cons v vs here there _ behind ih =>
    cases behind with
    | nil => exact .singleton v
    | @cons v' _ _ _ starts _ =>
      have next : v'.walk.pc = (v.passed p).pc := congrArg Prod.fst starts
      exact .cons_cons (fun stays => next.trans ((v.passed_code p).2 stays)) ih

end Trail

/-! ## Entries -/

/-- A walk executes statements from one state to another, and lists them. -/
structure Recorded (p : Pass) (w : Walk) (vs : List Visit) (w' : Walk) : Prop where
  trail : Trail p w.spot vs w'.spot
  entries : w'.entries.toList = w.entries.toList ++ vs.map (·.entry p)

namespace Recorded
variable {p : Pass} {w w₁ w₂ : Walk} {vs vs' : List Visit}

theorem refl (w : Walk) : Recorded p w [] w := ⟨.nil _, by simp⟩

theorem trans (h : Recorded p w vs w₁) (g : Recorded p w₁ vs' w₂) : Recorded p w (vs ++ vs') w₂ :=
  ⟨h.trail.append g.trail, by rw [g.entries, h.entries, append_assoc, map_append]⟩

theorem silent (h : Recorded p w vs w₁) (g : Walk.Emits [] w₁ w₂) : Recorded p w vs w₂ := by
  have pc : w₂.pc = w₁.pc := g.pc.trans (Int64.add_zero _)
  have code : w₂.code.toList = w₁.code.toList := g.code.trans (append_nil _)
  have spot : w₂.spot = w₁.spot := Prod.ext pc code
  exact ⟨spot ▸ h.trail, g.entries ▸ h.entries⟩

theorem measure (h : Recorded p w vs w₁) (start : Nat) : Recorded p w vs (w₁.measure start) := ⟨h.trail, h.entries⟩

end Recorded

namespace Walk
variable {p : Pass}

theorem list_of_listing (listing : p.listing = true) (w : Walk) (node : Node) (address : Int64) (start : Nat) :
    (w.list p node address start).spot = w.spot ∧
      (w.list p node address start).entries.toList = w.entries.toList ++
        [{ line := node.pos.line, address, code := w.code.toList.drop start, text := node.text }] := by
  have whole : (w.code.extract start w.code.size).toList = w.code.toList.drop start := by
    rw [Array.toList_extract, extract_eq_take_drop, take_of_length_le (by simp)]
  rw [list, if_pos listing]
  exact ⟨rfl, by simp only [Array.toList_push, whole]⟩

theorem recorded_enter (listing : p.listing = true) {v : Visit} (block : v.passed p = v.walk) :
    Recorded p v.walk [v] (v.walk.enter p v.statement.node) := by
  obtain ⟨spot, entries⟩ := list_of_listing listing v.walk v.statement.node v.walk.pc v.walk.code.size
  have listed : Recorded p v.walk [v] (v.walk.list p v.statement.node v.walk.pc v.walk.code.size) := by
    refine ⟨.cons rfl ?_, ?_⟩
    · rw [block, spot]
      exact .nil _
    · rw [entries]
      simp [Visit.entry, Visit.code, block]
  exact listed.silent (defineLabel_emits _ p _)

theorem recorded_act (listing : p.listing = true) (node : Node) (action : Action) (w : Walk) :
    Recorded p w [⟨.act node action, w⟩] (step p (.act node action) w) := by
  have passed : Visit.passed p ⟨.act node action, w⟩ = (w.defineLabel p node).act p node action := rfl
  obtain ⟨spot, entries⟩ := list_of_listing listing ((w.defineLabel p node).act p node action) node w.pc w.code.size
  have label := (w.defineLabel_emits p node).entries
  have kept : ((w.defineLabel p node).act p node action).entries = w.entries := by
    rcases (w.defineLabel p node).act_advances p node action with ⟨_, h⟩ | ⟨-, -, h, -⟩
    · exact h.entries.trans label
    · exact h.trans label
  rw [step_act]
  refine Recorded.measure ?_ _
  refine ⟨.cons rfl ?_, ?_⟩
  · rw [passed, spot]
    exact .nil _
  · rw [entries, kept]
    rfl

theorem recorded_times {f : Walk → Walk} {visits : Walk → List Visit} (h : ∀ w, Recorded p w (visits w) (f w)) :
    ∀ (n : Nat) (w : Walk), Recorded p w (timesVisits f visits n w) (times f n w)
  | 0, w => .refl w
  | n + 1, w => (h w).trans (recorded_times h n (f w))

/-- **A walk lists the statements that it executes**, one after the other. -/
theorem recorded_steps (listing : p.listing = true) :
    ∀ program w, Recorded p w (visits p program w) (steps p program w) := by
  refine (Statement.tree_induction (P := fun st => ∀ w, Recorded p w (stepVisits p st w) (step p st w))
    (fun node action w => recorded_act listing node action w)
    (fun node test yes no yes_ih no_ih w => ?_) (fun node count body ih w => ?_) (fun w => .refl w)
    (fun st rest st_ih ih w => ?_)).2
  · have entered := recorded_enter listing (v := ⟨.choose node test yes no, w⟩) rfl
    have decided := entered.silent (test_emits _ p node test)
    rw [step_choose, stepVisits_choose]
    refine Recorded.measure ?_ _
    split
    · exact decided.trans (yes_ih _)
    · exact decided.trans (no_ih _)
  · have entered := recorded_enter listing (v := ⟨.repeated node count body, w⟩) rfl
    have decided := entered.silent (eval_emits _ p node count)
    rw [step_repeated, stepVisits_repeated]
    refine Recorded.measure ?_ _
    cases Cpu.misfit? ((w.enter p node).eval p node count).1 0 repeatLimit true with
    | some m => exact decided.silent (report_emits _ p node _ _)
    | none => exact decided.trans (recorded_times ih _ _)
  · rw [visits, steps]
    split
    · exact .refl w
    · exact (st_ih w).trans (ih _)

end Walk

end Z80Asm
