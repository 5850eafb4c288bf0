import Mathlib.Logic.Relation
import Z80Asm.Pass
import Z80Asm.Proofs.Symbols

/-!
# What a walk can do

Whatever statements a walk executes, it makes moves of a few kinds (`Walk.Move`): it reports, evaluates,
defines, emits, sets the program counter, lists, measures, or breaks off.
-/

namespace Z80Asm

variable {name : Text} {w : Walk} {p : Pass} {node : Node}

theorem Statement.tree_induction {P : Statement → Prop} {Q : List Statement → Prop}
    (act : ∀ node action, P (.act node action))
    (choose : ∀ node test yes no, Q yes → Q no → P (.choose node test yes no))
    (repeated : ∀ node count body, Q body → P (.repeated node count body))
    (nil : Q []) (cons : ∀ s rest, P s → Q rest → Q (s :: rest)) :
    (∀ s, P s) ∧ ∀ program, Q program := by
  have tree : ∀ s, P s := fun s => @Statement.rec P Q act choose repeated nil cons s
  refine ⟨tree, fun program => ?_⟩
  induction program with
  | nil => exact nil
  | cons s rest ih => exact cons s rest (tree s) ih

namespace Walk

/-! ## Statements

The equations of `step`, with the entry of a block apart. -/

/-- The walk that decides about a block: it is listed and its label is defined. -/
def enter (w : Walk) (p : Pass) (node : Node) : Walk :=
  (w.list p node w.pc w.code.size).defineLabel p node

section
variable (w : Walk) (p : Pass) (node : Node) (count : Expr)

theorem step_act (action : Action) (w : Walk) :
    step p (.act node action) w =
      (((w.defineLabel p node).act p node action).list p node w.pc w.code.size).measure w.code.size :=
  rfl

theorem step_choose (test : Test) (yes no : List Statement) (w : Walk) :
    step p (.choose node test yes no) w =
      (steps p (if ((w.enter p node).test p node test).1 then yes else no)
        ((w.enter p node).test p node test).2).measure w.code.size := by
  change Walk.measure (if ((w.enter p node).test p node test).1 then _ else _) _ = _
  split <;> rfl

theorem step_repeated (body : List Statement) (w : Walk) :
    step p (.repeated node count body) w =
      (match Cpu.misfit? ((w.enter p node).eval p node count).1 0 repeatLimit true with
        | some m => ((w.enter p node).eval p node count).2.misfit p node m
        | none => times (steps p body) ((w.enter p node).eval p node count).1.toInt.toNat
            ((w.enter p node).eval p node count).2).measure w.code.size :=
  rfl

/-- Emits a number of filling bytes, unless something does not fit. -/
def reserve (w : Walk) (p : Pass) (node : Node) (misfit : Option Cpu.Misfit) (count : Int64)
    (fill : Option Expr) : Walk :=
  match misfit with
  | some m => w.misfit p node m
  | none => w.emitFill p node count fill

theorem act_space (fill : Option Expr) :
    w.act p node (.space count fill) =
      (w.eval p node count).2.reserve p node
        (Cpu.misfit? (w.eval p node count).1 0 spaceLimit true) (w.eval p node count).1 fill :=
  rfl

theorem act_align (boundary : Expr) (fill : Option Expr) :
    w.act p node (.align boundary fill) =
      (w.eval p node boundary).2.reserve p node
        (Cpu.misfit? (w.eval p node boundary).1 1 spaceLimit true)
        (padding (w.eval p node boundary).2.pc (w.eval p node boundary).1) fill :=
  rfl

theorem act_equate (name : Text) (value : Expr) :
    w.act p node (.equate name value false) =
      (w.eval p node value).2.define p node name (w.eval p node value).1 (.ofName name) :=
  rfl

theorem act_assert (condition : Expr) :
    w.act p node (.assert condition) =
      if (w.eval p node condition).1 = 0 then
        (w.eval p node condition).2.fail p node (.about .assertion node.text)
      else (w.eval p node condition).2 :=
  rfl

theorem emitFill_eq (count : Int64) (fill : Option Expr) :
    w.emitFill p node count fill =
      (w.fillByte p node fill).2.emit (List.replicate count.toInt.toNat (w.fillByte p node fill).1) :=
  emitCopies_eq_emit _ _ _

end

theorem steps_cons_of_none {p : Pass} {s : Statement} {rest : List Statement} {w : Walk}
    (h : w.stop = none) : steps p (s :: rest) w = steps p rest (step p s w) := by
  simp [steps, h]

theorem steps_of_stop {p : Pass} {program : List Statement} {w : Walk} (h : w.stop.isSome) : steps p program w = w := by
  cases program <;> simp [steps, h]

/-! ## Moves -/

inductive Move (p : Pass) (w : Walk) : Walk → Prop
  | report (node : Node) {severity : Severity} (mild : severity ≠ .fatal) (fault : Fault) :
      Move p w (w.report p node severity fault)
  | eval (node : Node) (e : Expr) : Move p w (w.eval p node e).2
  | define (node : Node) (name : Text) (value : Int64) (scope : Scope) :
      Move p w (w.define p node name value scope)
  | emit (code : List UInt8) : Move p w (w.emit code)
  | goto (pc : Int64) : Move p w { w with pc }
  | list (node : Node) (address : Int64) (start : Nat) :
      Move p w (w.list p node address start)
  | measure (start : Nat) : Move p w (w.measure start)
  | breakOff : Move p w { w with stop := some .outOfBounds }

abbrev Moves (p : Pass) : Walk → Walk → Prop := Relation.ReflTransGen (Move p)

variable {v : Walk}

theorem Move.moves (h : Move p w v) : Moves p w v := .single h

section
variable (w : Walk) (p : Pass) (node : Node) (count : Int64)

theorem fail_moves (fault : Fault) : Moves p w (w.fail p node fault) := (Move.report node (by decide) fault).moves

theorem misfit_moves (m : Cpu.Misfit) : Moves p w (w.misfit p node m) :=
  (Move.report node (by split <;> decide) (.misfit m)).moves

theorem misfitWith_moves : ∀ m, Moves p w (w.misfitWith p node m)
  | none => .refl
  | some m => w.misfit_moves p node m

theorem evalOption_moves (missing : Int64) : ∀ e, Moves p w (w.evalOption p node missing e).2
  | none => .refl
  | some e => (Move.eval node e).moves

theorem defineLabel_moves : Moves p w (w.defineLabel p node) := by
  unfold defineLabel
  split
  · exact (Move.define node _ _ _).moves
  · exact .refl

theorem enter_moves : Moves p w (w.enter p node) := (Move.list node _ _).moves.trans (defineLabel_moves _ p node)

theorem emitItem_moves (width : Width) : ∀ item, Moves p w (w.emitItem p node width item)
  | .bytes text => (Move.emit text).moves
  | .value e => ((Move.eval node e).moves.trans (misfitWith_moves _ p node _)).tail (.emit _)

theorem fillByte_moves : ∀ fill, Moves p w (w.fillByte p node fill).2
  | none => .refl
  | some e => (Move.eval node e).moves.trans (misfitWith_moves _ p node _)

theorem emitFill_moves (fill : Option Expr) : Moves p w (w.emitFill p node count fill) := by
  rw [emitFill_eq]
  exact (fillByte_moves w p node fill).tail (.emit _)

theorem reserve_moves (fill : Option Expr) : ∀ misfit, Moves p w (w.reserve p node misfit count fill)
  | some m => misfit_moves w p node m
  | none => emitFill_moves w p node count fill

end

theorem operands_moves (p : Pass) (node : Node) : ∀ (args : List Arg) (w : Walk), Moves p w (w.operands p node args).2
  | [], _ => .refl
  | arg :: rest, w => by
    simp only [operands]
    cases arg.expr? with
    | none => exact operands_moves p node rest w
    | some e => exact .head (.eval node e) (operands_moves p node rest _)

theorem emitInstruction_moves (w : Walk) (p : Pass) (node : Node) (m : Cpu.Mnemonic)
    (args : List Arg) : Moves p w (w.emitInstruction p node m args) := by
  simp only [emitInstruction]
  refine (operands_moves p node args w).trans ?_
  split
  · exact fail_moves _ p node _
  · exact (misfitWith_moves _ p node _).tail (.emit _)

theorem emitPart_moves (w : Walk) (p : Pass) (node : Node) (name data : Text)
    (offset length : Int64) : Moves p w (w.emitPart p node name data offset length) := by
  simp only [emitPart]
  split
  · exact fail_moves w p node _
  · split
    · exact (Move.breakOff).moves
    · exact (Move.emit _).moves

theorem foldl_moves {α : Type} {f : Walk → α → Walk} (h : ∀ w a, Moves p w (f w a)) :
    ∀ (as : List α) (w : Walk), Moves p w (as.foldl f w)
  | [], _ => .refl
  | a :: as, w => (h w a).trans (foldl_moves h as (f w a))

theorem runScript_moves (w : Walk) (p : Pass) (node : Node) (source : Text) :
    Moves p w (w.runScript p node source) := by
  simp only [runScript]
  split
  · exact fail_moves w p node _
  · refine .head (.emit _) (foldl_moves (fun w constant => ?_) _ _)
    simp only [defineScripted]
    split
    · exact (Move.define node _ _ _).moves
    · exact fail_moves w p node _

theorem act_moves (w : Walk) (p : Pass) (node : Node) (action : Action) : Moves p w (w.act p node action) := by
  cases action with
  | label => exact .refl
  | bad fault => exact fail_moves w p node fault
  | instruction m args => exact emitInstruction_moves w p node m args
  | data width items => exact foldl_moves (fun w => emitItem_moves w p node width) items w
  | space count fill =>
    rw [act_space]
    exact .head (.eval node count) (reserve_moves _ p node _ fill _)
  | align boundary fill =>
    rw [act_align]
    exact .head (.eval node boundary) (reserve_moves _ p node _ fill _)
  | org address => exact .head (.eval node address) (Move.goto _).moves
  | equate name value assigned => exact .head (.eval node value) (Move.define node name _ _).moves
  | incbin name data offset length =>
    exact ((evalOption_moves w p node _ offset).trans (evalOption_moves _ p node _ length)).trans
      (emitPart_moves _ p node name data _ _)
  | assert condition =>
    rw [act_assert]
    refine .head (.eval node condition) ?_
    split
    · exact fail_moves _ p node _
    · exact .refl
  | message text => exact fail_moves w p node _
  | script source => exact runScript_moves w p node source

theorem test_moves (w : Walk) (p : Pass) (node : Node) : ∀ test, Moves p w (w.test p node test).2
  | .nonzero e => (Move.eval node e).moves
  | .defined _ _ => .refl

theorem times_moves {f : Walk → Walk} (h : ∀ w, Moves p w (f w)) : ∀ (n : Nat) (w : Walk), Moves p w (times f n w)
  | 0, _ => .refl
  | n + 1, w => (h w).trans (times_moves h n (f w))

theorem step_steps_moves (p : Pass) : (∀ s w, Moves p w (step p s w)) ∧ ∀ program w, Moves p w (steps p program w) := by
  refine Statement.tree_induction (fun node action w => ?_) (fun node test yes no yes_ih no_ih w => ?_)
    (fun node count body ih w => ?_) (fun w => .refl) (fun s rest s_ih ih w => ?_)
  · exact (((defineLabel_moves w p node).trans (act_moves _ p node action)).tail (.list node _ _)).tail (.measure _)
  · rw [step_choose]
    refine (((enter_moves w p node).trans (test_moves _ p node test)).trans ?_).tail (.measure _)
    split
    · exact yes_ih _
    · exact no_ih _
  · rw [step_repeated]
    refine (((enter_moves w p node).tail (.eval node count)).trans ?_).tail (.measure _)
    split
    · exact misfit_moves _ p node _
    · exact times_moves ih _ _
  · simp only [steps]
    split
    · exact .refl
    · exact (s_ih w).trans (ih _)

section
variable (w : Walk) (p : Pass) (node : Node) (e : Expr)

theorem step_moves (s : Statement) (w : Walk) : Moves p w (step p s w) := (step_steps_moves p).1 s w

/-- **The execution of statements is a sequence of moves.** -/
theorem steps_moves (program : List Statement) (w : Walk) : Moves p w (steps p program w) :=
  (step_steps_moves p).2 program w

/-! ## What stays along moves -/

/-- What evaluation changes: the ledger, by references, and the diagnostics. -/
theorem eval_eq :
    (w.eval p node e).2 =
      match e.fault? (w.env p) with
      | some fault => (w.reference node.pos (e.names.filter fun name =>
          ((w.env p).lookup name).isNone)).fail p node fault
      | none => w.reference node.pos (e.names.filter fun name => ((w.env p).lookup name).isNone) :=
  rfl

@[simp] theorem eval_vars : (w.eval p node e).2.vars = w.vars := by
  rw [eval_eq]; split <;> rfl

@[simp] theorem eval_pc : (w.eval p node e).2.pc = w.pc := by
  rw [eval_eq]; split <;> rfl

@[simp] theorem eval_stop : (w.eval p node e).2.stop = w.stop := by
  rw [eval_eq]; split <;> rfl

theorem eval_diagnostics : w.diagnostics.toList <+: (w.eval p node e).2.diagnostics.toList := by
  rw [eval_eq]; split <;> simp [fail, report, reference]

end

def assign (w : Walk) (name : Text) (value : Int64) (scope : Scope) : Walk :=
  if scope = .assigned then { w with vars := w.vars.insert name value } else w

section
variable (w : Walk) (name : Text) (value : Int64) (scope : Scope)

@[simp] theorem assign_ledger : (w.assign name value scope).ledger = w.ledger := by
  unfold assign; split <;> rfl

@[simp] theorem assign_diagnostics : (w.assign name value scope).diagnostics = w.diagnostics := by
  unfold assign; split <;> rfl

@[simp] theorem assign_stop : (w.assign name value scope).stop = w.stop := by
  unfold assign; split <;> rfl

theorem mem_assign_vars {other : Text} (h : other ∈ w.vars) : other ∈ (w.assign name value scope).vars := by
  unfold assign
  split
  · exact Std.TreeMap.mem_insert.2 (.inr h)
  · exact h

theorem assign_of_ne (h : scope ≠ .assigned) : w.assign name value scope = w := if_neg h

end

theorem define_eq (w : Walk) (p : Pass) (node : Node) (name : Text) (value : Int64) (scope : Scope) :
    w.define p node name value scope =
      match w.ledger.define { name, value, scope, pos := node.pos, seq := node.seq } with
      | .ok ledger => { w.assign name value scope with ledger }
      | .error fault =>
        if fault.cause? = some .resourceLimit then
          { w.assign name value scope with stop := some (.limit (.of .fatal node.pos p.index fault)) }
        else (w.assign name value scope).fail p node (.detail fault name) := by
  rw [← w.assign_ledger name value scope]
  rfl

/-- The ways in which a definition ends: it is entered, too many names end the walk, or it is reported
    as a duplicate, since the two definitions are not both those of a variable. -/
theorem define_cases (w : Walk) (p : Pass) (node : Node) (name : Text) (value : Int64) (scope : Scope) :
    (∃ ledger, w.ledger.define { name, value, scope, pos := node.pos, seq := node.seq } = .ok ledger ∧
      w.define p node name value scope = { w.assign name value scope with ledger }) ∨
    w.define p node name value scope = { w.assign name value scope with
      stop := some (.limit (.of .fatal node.pos p.index (.symbolLimit w.ledger.limit))) } ∨
    (∃ old, w.ledger.symbols[name]? = some old ∧ old.defined = true ∧
      ¬ (old.scope = .assigned ∧ scope = .assigned)) ∧
      w.define p node name value scope = (w.assign name value scope).fail p node (.about .labelDuplicate name) := by
  rw [define_eq]
  rcases w.ledger.define_cases { name, value, scope, pos := node.pos, seq := node.seq } with
    ⟨_, _, _, _, _, e⟩ | ⟨old, entry, taken, mixed, e⟩ | ⟨_, _, e⟩ | ⟨_, _, e⟩ <;> rw [e]
  · exact .inl ⟨_, rfl, rfl⟩
  · exact .inr (.inr ⟨⟨old, entry, taken, mixed⟩, rfl⟩)
  · exact .inr (.inl rfl)
  · exact .inl ⟨_, rfl, rfl⟩

theorem Moves.diagnostics_prefix (h : Moves p w v) : w.diagnostics.toList <+: v.diagnostics.toList := by
  induction h with
  | refl => exact List.prefix_refl _
  | @tail u _ _ move ih =>
    refine ih.trans ?_
    cases move with
    | report node mild fault => simp [report]
    | eval node e => exact eval_diagnostics u p node e
    | define node name value scope =>
      rcases u.define_cases p node name value scope with ⟨_, _, e⟩ | e | ⟨_, e⟩ <;>
        simp [e, fail, report]
    | list node address start => unfold list; split <;> exact List.prefix_refl _
    | emit | goto | measure | breakOff => exact List.prefix_refl _

theorem isFatal_of_mild {severity : Severity} (mild : severity ≠ .fatal) (pos : Pos) (pass : Int)
    (fault : Fault) : (Diagnostic.of severity pos pass fault).isFatal = false := by
  simpa [Diagnostic.isFatal, Diagnostic.of] using mild

section
variable (h : Moves p w v)
include h

theorem Moves.reports : ∀ d ∈ v.diagnostics.toList,
    d ∈ w.diagnostics.toList ∨ d.pass = p.index ∧ d.isFatal = false := by
  induction h with
  | refl => exact fun d hd => .inl hd
  | @tail u _ _ move ih =>
    have reported : ∀ (x : Walk) (node : Node) {severity : Severity}, severity ≠ .fatal →
        x.diagnostics = u.diagnostics → ∀ fault, ∀ d ∈ (x.report p node severity fault).diagnostics.toList,
          d ∈ w.diagnostics.toList ∨ d.pass = p.index ∧ d.isFatal = false := by
      intro x node severity mild same fault d hd
      rw [report, Array.toList_push, same, List.mem_append, List.mem_singleton] at hd
      rcases hd with hd | rfl
      · exact ih d hd
      · exact .inr ⟨rfl, isFatal_of_mild mild _ _ _⟩
    cases move with
    | report node mild fault => exact reported u node mild rfl fault
    | eval node e =>
      rw [eval_eq]
      split
      · exact reported _ node (by decide) rfl _
      · exact ih
    | define node name value scope =>
      rcases u.define_cases p node name value scope with ⟨_, _, e⟩ | e | ⟨_, e⟩ <;> rw [e]
      · simpa using ih
      · simpa using ih
      · exact reported _ node (by decide) (by simp) _
    | list node address start => unfold list; split <;> exact ih
    | emit | goto | measure | breakOff => exact ih

theorem Moves.stop_eq_none (going : v.stop = none) : w.stop = none := by
  induction h with
  | refl => exact going
  | @tail u _ _ move ih =>
    apply ih
    cases move with
    | report | emit | goto | measure => exact going
    | eval node e => simpa using going
    | define node name value scope =>
      rcases u.define_cases p node name value scope with ⟨_, _, e⟩ | e | ⟨_, e⟩ <;> rw [e] at going
      · simpa using going
      · cases going
      · simpa [fail, report] using going
    | list node address start => unfold list at going; split at going <;> exact going
    | breakOff => cases going

theorem Moves.stop_limit (start : w.stop = none) {d : Diagnostic} (stop : v.stop = some (.limit d)) :
    ∃ pos limit, d = .of .fatal pos p.index (.symbolLimit limit) := by
  induction h with
  | refl => rw [start] at stop; cases stop
  | @tail u _ _ move ih =>
    cases move with
    | report | emit | goto | measure => exact ih stop
    | eval node e => exact ih (by simpa using stop)
    | define node name value scope =>
      rcases u.define_cases p node name value scope with ⟨_, _, e⟩ | e | ⟨_, e⟩ <;> rw [e] at stop
      · exact ih (by simpa using stop)
      · cases stop; exact ⟨_, _, rfl⟩
      · exact ih (by simpa [fail, report] using stop)
    | list node address start => exact ih (by unfold list at stop; split at stop <;> exact stop)
    | breakOff => cases stop

theorem Moves.mem_vars (mem : name ∈ w.vars) : name ∈ v.vars := by
  induction h with
  | refl => exact mem
  | @tail u _ _ move ih =>
    cases move with
    | report | emit | goto | measure | breakOff => exact ih
    | eval node e => simpa using ih
    | define node other value scope =>
      rcases u.define_cases p node other value scope with ⟨_, _, e⟩ | e | ⟨_, e⟩ <;>
        rw [e] <;> exact mem_assign_vars u other value scope ih
    | list node address start => unfold list; split <;> exact ih

theorem Moves.ledger_induction {P : Ledger → Prop} (start : P w.ledger)
    (reference : ∀ {l : Ledger} (name : Text) (pos : Pos), P l → P (l.reference name pos))
    (define : ∀ {l l' : Ledger} {s : Symbol}, l.define s = .ok l' → P l → P l') : P v.ledger := by
  induction h with
  | refl => exact start
  | @tail u _ _ move ih =>
    have noted (pos : Pos) (names : List Text) : P (u.reference pos names).ledger :=
      List.foldlRecOn (motive := P) names _ ih fun _ h name _ => reference name pos h
    cases move with
    | report | emit | goto | measure | breakOff => exact ih
    | eval node e =>
      rw [eval_eq]
      split <;> exact noted _ _
    | define node name value scope =>
      rcases u.define_cases p node name value scope with ⟨_, h, e⟩ | e | ⟨_, e⟩ <;> rw [e]
      · exact define h ih
      · simpa using ih
      · simpa [fail, report] using ih
    | list node address start => unfold list; split <;> exact ih

theorem Moves.constant {s : Symbol} (entry : w.ledger.symbols[name]? = some s) (defined : s.defined = true)
    (constant : s.scope ≠ .assigned) : v.ledger.symbols[name]? = some s :=
  h.ledger_induction (P := fun l => l.symbols[name]? = some s) entry
    (fun other pos entry => Ledger.get?_reference_of_some entry other pos)
    fun entered entry => Ledger.get?_of_define_constant entered entry defined constant

theorem Moves.defines (defines : w.ledger.Defines name) : v.ledger.Defines name :=
  h.ledger_induction (P := (·.Defines name)) defines
    (fun other pos ⟨s, entry, defined⟩ => ⟨s, Ledger.get?_reference_of_some entry other pos, defined⟩)
    fun entered defines => defines.define entered

theorem Moves.named (named : w.ledger.Named) : v.ledger.Named :=
  h.ledger_induction (P := Ledger.Named) named (fun name pos named => named.reference name pos)
    fun entered named => named.define entered

end

/-! ## Walks without errors -/

def Clean (w : Walk) : Prop := w.stop = none ∧ ∀ d ∈ w.diagnostics.toList, d.isError = false

theorem Moves.clean (h : Moves p w v) (clean : v.Clean) : w.Clean :=
  ⟨h.stop_eq_none clean.1, fun d hd => clean.2 d (h.diagnostics_prefix.subset hd)⟩

theorem not_clean_fail (w : Walk) (p : Pass) (node : Node) (fault : Fault) : ¬ (w.fail p node fault).Clean := by
  intro clean
  have := clean.2 (.of .error node.pos p.index fault) (by simp [fail, report])
  simp [Diagnostic.of, Diagnostic.isError] at this

end Walk

theorem Expr.isSome_lookup_of_fault? {env : Env} {e : Expr} (h : e.fault? env = none) :
    ∀ name ∈ e.names, (env.lookup name).isSome := by
  induction e with
  | num | pc => simp [names]
  | sym name =>
    simp only [fault?] at h
    split at h <;> simp_all [names]
  | unary op x ih => exact ih h
  | binary op x y x_ih y_ih =>
    simp only [fault?, Option.or_eq_none_iff] at h
    intro name hname
    rcases List.mem_append.1 hname with hx | hy
    · exact x_ih h.1.1 name hx
    · exact y_ih h.1.2 name hy

namespace Walk

theorem clean_eval {e : Expr} (clean : (w.eval p node e).2.Clean) :
    (w.eval p node e).2 = w ∧ ∀ name ∈ e.names, ((w.env p).lookup name).isSome := by
  rw [eval_eq] at clean ⊢
  cases hf : e.fault? (w.env p) with
  | some fault => rw [hf] at clean; exact absurd clean (not_clean_fail _ p node fault)
  | none =>
    have known := Expr.isSome_lookup_of_fault? hf
    have missing : e.names.filter (fun name => ((w.env p).lookup name).isNone) = [] := by
      simpa [List.filter_eq_nil_iff, Option.isSome_iff_ne_none] using known
    exact ⟨by simp [missing, reference], known⟩

theorem clean_define {value : Int64} {scope : Scope} (clean : (w.define p node name value scope).Clean) :
    ∃ ledger, w.ledger.define { name, value, scope, pos := node.pos, seq := node.seq } = .ok ledger ∧
      w.define p node name value scope = { w.assign name value scope with ledger } := by
  rcases w.define_cases p node name value scope with entered | e | ⟨_, e⟩
  · exact entered
  · rw [e] at clean; cases clean.1
  · rw [e] at clean; exact absurd clean (not_clean_fail _ p node _)

theorem Moves.all_defined {v : Walk} (h : Moves p w v) (clean : v.Clean)
    (all : ∀ (name : Text) (s : Symbol), w.ledger.symbols[name]? = some s → s.defined = true) :
    ∀ (name : Text) (s : Symbol), v.ledger.symbols[name]? = some s → s.defined = true := by
  induction h with
  | refl => exact all
  | @tail u _ _ move ih =>
    have before := ih (move.moves.clean clean)
    cases move with
    | report | emit | goto | measure | breakOff => exact before
    | eval node e => rw [(clean_eval clean).1]; exact before
    | define node name value scope =>
      obtain ⟨ledger, entered, e⟩ := clean_define clean
      rw [e]
      intro other s hs
      by_cases same : name = other
      · subst same
        obtain ⟨t, ht, _, _, defined, _⟩ := Ledger.get?_of_define entered
        rw [ht] at hs; cases hs; exact defined
      · rw [Ledger.get?_of_define_ne entered same] at hs
        exact before other s hs
    | list node address start => unfold list; split <;> exact before

end Walk

end Z80Asm
