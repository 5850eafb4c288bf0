import Mathlib.Data.List.Forall2
import Z80Asm.Proofs.Blocks
import Z80Asm.Proofs.RenamedRuns

/-!
# Programs at other places

Statements may stand in other rows of a file, under other numbers and with other texts, and still do the
same: a walk reads the label of a statement and the file it stands in, and compares the number of a block
with those of definitions.  So two programs that differ in places alone, and keep the order of definitions
and blocks, have the same runs.
-/

namespace Z80Asm

open Statement Diagnostics Walk Std.TreeMap

variable {found found' : Diagnostics} {name : Text}

/-! ## Statements -/

/-- Which number of a line in one program belongs to which one in the other. -/
abbrev Numbering := Int → Int → Prop

/-- The lines stand in the same order in both programs. -/
def Numbering.Ordered (S : Numbering) : Prop := ∀ ⦃a a' b b'⦄, S a a' → S b b' → (a < b ↔ a' < b')

/-- The same lines stand before these two. -/
def Numbering.SplitsAt (S : Numbering) (a a' : Int) : Prop := ∀ ⦃b b'⦄, S b b' → (b < a ↔ b' < a')

/-- A test for a definition has the same lines before it in both programs. -/
def Heading.Splits (S : Numbering) : Heading → Prop
  | .choose node (.defined _ _) => ∀ ⦃a'⦄, S node.seq a' → S.SplitsAt node.seq a'
  | _ => True

theorem Numbering.Ordered.splits {S : Numbering} (ordered : S.Ordered) (h : Heading) : h.Splits S := by
  rcases h with _ | ⟨node, _ | _⟩ | _
  · trivial
  · trivial
  · exact fun _ here _ _ other => ordered other here
  · trivial

structure Node.Placed (S : Numbering) (node node' : Node) : Prop where
  label : node'.label = node.label
  file : node'.pos.file = node.pos.file
  seq : S node.seq node'.seq

/-- A block that nothing is done for: it has no label, its test fails, and there is no other branch. -/
inductive Statement.Untaken : Statement → Prop
  | choose {node : Node} (label : node.label = none) (yes : List Statement) :
      Untaken (.choose node (.nonzero (.num 0)) yes [])

mutual

inductive Statement.Placed (S : Numbering) (skips : Prop) : Statement → Statement → Prop
  | act {node node' : Node} (h : node.Placed S node') (action : Action) :
      Placed S skips (.act node action) (.act node' action)
  | instruction {node node' : Node} (label : node.label = none) (label' : node'.label = none)
      (m : Cpu.Mnemonic) (args : List Arg) :
      Placed S skips (.act node (.instruction m args)) (.act node' (.instruction m args))
  | choose {node node' : Node} (h : node.Placed S node') (test : Test)
      {yes yes' no no' : List Statement} (yes_placed : AllPlaced S skips yes yes')
      (no_placed : AllPlaced S skips no no') :
      Placed S skips (.choose node test yes no) (.choose node' test yes' no')
  | repeated {node node' : Node} (h : node.Placed S node') (count : Expr) {body body' : List Statement}
      (placed : AllPlaced S skips body body') :
      Placed S skips (.repeated node count body) (.repeated node' count body')

/-- Statements at other places.  Where the second program `skips`, there may be blocks among them that nothing
    is done for. -/
inductive Statement.AllPlaced (S : Numbering) (skips : Prop) : List Statement → List Statement → Prop
  | nil : AllPlaced S skips [] []
  | cons {s s' : Statement} {ss ss' : List Statement} (first : Placed S skips s s')
      (others : AllPlaced S skips ss ss') : AllPlaced S skips (s :: ss) (s' :: ss')
  | skip {s' : Statement} {ss ss' : List Statement} (allowed : skips) (untaken : s'.Untaken)
      (others : AllPlaced S skips ss ss') : AllPlaced S skips ss (s' :: ss')

end

namespace Statement.AllPlaced
variable {S : Numbering} {skips : Prop} {as as' bs bs' : List Statement}

theorem append (h : AllPlaced S skips as as') (g : AllPlaced S skips bs bs') :
    AllPlaced S skips (as ++ bs) (as' ++ bs') := by
  induction as' generalizing as with
  | nil =>
    cases h
    exact g
  | cons s' as' ih =>
    cases h with
    | cons first others => exact .cons first (ih others)
    | skip allowed untaken others => exact .skip allowed untaken (ih others)

theorem reverse (h : AllPlaced S skips as as') : AllPlaced S skips as.reverse as'.reverse := by
  induction as' generalizing as with
  | nil =>
    cases h
    exact .nil
  | cons s' as' ih =>
    rw [List.reverse_cons]
    cases h with
    | cons first others =>
      rw [List.reverse_cons]
      exact (ih others).append (.cons first .nil)
    | skip allowed untaken others => simpa using (ih others).append (.skip allowed untaken .nil)

end Statement.AllPlaced

/-! ## Symbols -/

structure Symbol.Placed (S : Numbering) (name : Text) (s s' : Symbol) : Prop where
  name_left : s.name = name
  name_right : s'.name = name
  value : s'.value = s.value
  defined : s'.defined = s.defined
  scope : s'.scope = s.scope
  seq : s.defined = true → S s.seq s'.seq

theorem Symbol.Placed.sameState {S : Numbering} {s s' t t' : Symbol}
    (h : Placed S name s s') (g : Placed S name t t') : s'.sameState t' = s.sameState t := by
  simp only [Symbol.sameState, h.value, g.value, h.defined, g.defined, h.scope, g.scope]

def SymbolMap.Placed (S : Numbering) (m m' : SymbolMap) : Prop :=
  ∀ name, Option.Rel (Symbol.Placed S name) m[name]? m'[name]?

namespace SymbolMap.Placed
variable {S : Numbering} {m m' : SymbolMap}

theorem cases (h : Placed S m m') (name : Text) :
    (m[name]? = none ∧ m'[name]? = none) ∨
      ∃ s s', m[name]? = some s ∧ m'[name]? = some s' ∧ Symbol.Placed S name s s' := by
  have entry := h name
  generalize m[name]? = x, m'[name]? = y at entry
  cases entry with
  | none => exact .inl ⟨rfl, rfl⟩
  | some same => exact .inr ⟨_, _, rfl, rfl, same⟩

theorem mem_iff (h : Placed S m m') (name : Text) : name ∈ m' ↔ name ∈ m := by
  rw [mem_iff_isSome_getElem?, mem_iff_isSome_getElem?]
  rcases h.cases name with ⟨e, e'⟩ | ⟨_, _, e, e', _⟩ <;> simp [e, e']

theorem insert (h : Placed S m m') {s s' : Symbol} (g : Symbol.Placed S name s s') :
    Placed S (m.insert name s) (m'.insert name s') := by
  intro other
  rw [getElem?_insert, getElem?_insert]
  by_cases same : name = other
  · subst same
    simpa using Option.Rel.some g
  · simpa [same] using h other

end SymbolMap.Placed

/-- The same symbols at the end of a pass, defined at other places. -/
structure Table.Placed (S : Numbering) (t t' : Table) : Prop where
  symbols : SymbolMap.Placed S t.symbols t'.symbols
  defined : t'.defined = t.defined

/-- The same symbols in the course of a pass, defined at other places. -/
structure Ledger.Placed (S : Numbering) (l l' : Ledger) : Prop where
  symbols : SymbolMap.Placed S l.symbols l'.symbols
  defined : l'.defined = l.defined
  limit : l'.limit = l.limit

namespace Table.Placed
variable {S : Numbering} {t t' u u' : Table}

section
variable (h : Placed S t t')
include h

theorem agree (name : Text) : t'.agreeOn t name = true := by
  unfold Table.agreeOn get?
  rcases h.symbols.cases name with ⟨e, e'⟩ | ⟨_, _, e, e', same⟩ <;> rw [e, e']
  exact Symbol.sameState_iff.2 ⟨same.value, same.defined, same.scope⟩

theorem value? (name : Text) : t'.value? name = t.value? name := value?_eq_of_agreeOn (h.agree name)

theorem named_left : t.Named := by
  intro name s found
  rcases h.symbols.cases name with ⟨e, _⟩ | ⟨_, _, e, _, same⟩
  · cases e.symm.trans found
  · cases e.symm.trans found
    exact same.name_left

theorem named_right : t'.Named := by
  intro name s found
  rcases h.symbols.cases name with ⟨_, e⟩ | ⟨_, _, _, e, same⟩
  · cases e.symm.trans found
  · cases e.symm.trans found
    exact same.name_right

theorem definedList :
    t'.definedList.map (fun s => (s.name, s.value.toInt)) = t.definedList.map fun s => (s.name, s.value.toInt) :=
  definedList_eq_of_agreeOn h.named_right h.named_left h.agree

theorem agreeOn (g : Placed S u u') (name : Text) : t'.agreeOn u' name = t.agreeOn u name := by
  unfold Table.agreeOn get?
  rcases h.symbols.cases name with ⟨e, e'⟩ | ⟨_, _, e, e', left⟩ <;>
    rcases g.symbols.cases name with ⟨f, f'⟩ | ⟨_, _, f, f', right⟩ <;> rw [e, e', f, f']
  exact left.sameState right

theorem diff_perm (g : Placed S u u') : (t'.diff u').Perm (t.diff u) := by
  refine (List.perm_ext_iff_of_nodup (nodup_diff t' u') (nodup_diff t u)).2 fun name => ?_
  rw [mem_diff_iff, mem_diff_iff, h.agreeOn g]

end

end Table.Placed

namespace Ledger.Placed
variable {S : Numbering} {l l' : Ledger}

section
variable (h : Placed S l l')
include h

theorem insert {s s' : Symbol} (g : Symbol.Placed S name s s') {n n' : Nat} (count : n' = n) :
    Placed S { l with symbols := l.symbols.insert name s, defined := n }
      { l' with symbols := l'.symbols.insert name s', defined := n' } :=
  ⟨h.symbols.insert g, count, h.limit⟩

/-- A definition is entered at both places, or refused at both for the same reason. -/
theorem define (s s' : Symbol)
    (g : Symbol.Placed S s.name { s with defined := true } { s' with defined := true }) :
    (∃ k k', l.define s = .ok k ∧ l'.define s' = .ok k' ∧ Placed S k k') ∨
      ∃ fault, l.define s = .error fault ∧ l'.define s' = .error fault := by
  have name : s'.name = s.name := g.name_right
  have scope : s'.scope = s.scope := g.scope
  have counted := h.insert g (congrArg (· + 1) h.defined)
  unfold Ledger.define
  simp only [name]
  rcases h.symbols.cases s.name with ⟨e, e'⟩ | ⟨old, old', e, e', same⟩
  · simp only [e, e', h.defined, h.limit]
    split
    · exact .inr ⟨_, rfl, rfl⟩
    · refine .inl ⟨_, _, rfl, rfl, ?_⟩
      simpa only [name, h.defined, h.limit] using counted
  · simp only [e, e', same.defined, same.scope, scope, h.defined, h.limit]
    split
    next taken =>
      split
      · refine .inl ⟨_, _, rfl, rfl, ?_⟩
        have kept : Symbol.Placed S s.name { s with defined := true, pos := old.pos, seq := old.seq }
            { s' with defined := true, pos := old'.pos, seq := old'.seq } :=
          { g with seq := fun _ => same.seq taken }
        simpa only [name, scope, h.defined, h.limit] using h.insert kept h.defined
      · exact .inr ⟨_, rfl, rfl⟩
    · split
      · exact .inr ⟨_, rfl, rfl⟩
      · refine .inl ⟨_, _, rfl, rfl, ?_⟩
        simpa only [name, scope, h.defined, h.limit] using counted

theorem reference (name : Text) (pos pos' : Pos) : Placed S (l.reference name pos) (l'.reference name pos') := by
  have known : l'.symbols.contains name = l.symbols.contains name := by
    rw [Bool.eq_iff_iff, contains_iff_mem, contains_iff_mem, h.symbols.mem_iff]
  have used : Symbol.Placed S name { name, pos, scope := .ofName name }
      { name, pos := pos', scope := .ofName name } := ⟨rfl, rfl, rfl, rfl, rfl, by simp⟩
  unfold Ledger.reference
  rw [known]
  split
  · exact h
  · exact h.insert used h.defined

theorem references (names : List Text) (pos pos' : Pos) :
    Placed S (names.foldl (·.reference · pos) l) (names.foldl (·.reference · pos') l') := by
  induction names generalizing l l' with
  | nil => exact h
  | cons name rest ih => exact ih (h.reference name pos pos')

theorem freeze (prev prev' : Table) (pass pass' : Int) :
    Table.Placed S (l.freeze prev pass) (l'.freeze prev' pass') := by
  refine ⟨fun name => ?_, h.defined⟩
  simp only [Ledger.freeze, getElem?_map]
  rcases h.symbols.cases name with ⟨e, e'⟩ | ⟨_, _, e, e', g⟩ <;> rw [e, e']
  · exact .none
  · exact .some ⟨by simp [g.name_left], by simp [g.name_right], by simp [g.value], by simp [g.defined],
      by simp [g.scope], by simpa using g.seq⟩

end

end Ledger.Placed

/-! ## Walks -/

def Diagnostics.severities (ds : Diagnostics) : List Severity := ds.map (·.severity)

inductive Stop.Same : Stop → Stop → Prop
  | limit {d d' : Diagnostic} (severity : d'.severity = d.severity) (fault : d'.fault = d.fault) :
      Same (.limit d) (.limit d')
  | outOfBounds : Same .outOfBounds .outOfBounds

structure Pass.Placed (S : Numbering) (p p' : Pass) : Prop where
  index : p'.index = p.index
  prev : Table.Placed S p.prev p'.prev

abbrev SizeRel := Array Nat → Array Nat → Prop

/-- The sizes are related after every statement, and if `skips` also after a block that only the second program
    has. -/
structure SizeRel.Follows (R : SizeRel) (skips : Prop) : Prop where
  push : ∀ {sizes sizes' : Array Nat} (n : Nat), R sizes sizes' → R (sizes.push n) (sizes'.push n)
  skip : skips → ∀ {sizes sizes' : Array Nat}, R sizes sizes' → R sizes (sizes'.push 0)

/-- A walk over a program at other places: apart from places, the listing and the sizes it is the same. -/
structure Walk.Placed (S : Numbering) (R : SizeRel) (w w' : Walk) : Prop where
  ledger : Ledger.Placed S w.ledger w'.ledger
  vars : w'.vars = w.vars
  pc : w'.pc = w.pc
  code : w'.code = w.code
  sizes : R w.sizes w'.sizes
  diagnostics : Diagnostics.severities w'.diagnostics.toList = Diagnostics.severities w.diagnostics.toList
  stop : Option.Rel Stop.Same w.stop w'.stop

theorem Walk.exists_list (w : Walk) (p : Pass) (node : Node) (address : Int64) (start : Nat) :
    ∃ entries, w.list p node address start = { w with entries } := by
  unfold list
  split
  · exact ⟨_, rfl⟩
  · exact ⟨w.entries, rfl⟩

/-- Only the listing and the sizes show that a block is executed that nothing is done for. -/
theorem Statement.Untaken.exists_step {s : Statement} (untaken : s.Untaken) (p : Pass) (w : Walk) :
    ∃ entries, step p s w = ({ w with entries } : Walk).measure w.code.size := by
  obtain @⟨node, label, yes⟩ := untaken
  obtain ⟨entries, listed⟩ := w.exists_list p node w.pc w.code.size
  refine ⟨entries, ?_⟩
  simp [step_choose, enter, listed, defineLabel, label, test, eval, reference,
    Expr.value, Expr.fault?, Expr.names, steps]

namespace Walk.Placed
variable {S : Numbering} {R : SizeRel} {skips : Prop} {p p' : Pass} {w w' : Walk} {node node' : Node}

section
variable (h : Placed S R w w')
include h

theorem emit (code : List UInt8) : Placed S R (w.emit code) (w'.emit code) :=
  { h with
    pc := by simp only [Walk.emit, h.pc]
    code := by simp only [Walk.emit, h.code] }

theorem goto (pc : Int64) : Placed S R { w with pc } { w' with pc } := { h with pc := rfl }

theorem measure (follows : R.Follows skips) (start : Nat) : Placed S R (w.measure start) (w'.measure start) :=
  { h with
    sizes := by
      simp only [Walk.measure, h.code]
      exact follows.push _ h.sizes }

theorem report (p p' : Pass) (node node' : Node) (severity : Severity) (fault fault' : Fault) :
    Placed S R (w.report p node severity fault) (w'.report p' node' severity fault') :=
  { h with
    diagnostics := by
      simpa [Walk.report, severities, Diagnostic.of] using h.diagnostics }

theorem list (p p' : Pass) (node node' : Node) (address address' : Int64) (start start' : Nat) :
    Placed S R (w.list p node address start) (w'.list p' node' address' start') := by
  obtain ⟨_, left⟩ := w.exists_list p node address start
  obtain ⟨_, right⟩ := w'.exists_list p' node' address' start'
  rw [left, right]
  exact { h with }

theorem define (p p' : Pass) (placed : node.Placed S node') (name : Text) (value : Int64)
    (scope : Scope) : Placed S R (w.define p node name value scope) (w'.define p' node' name value scope) := by
  have assigned : Placed S R (w.assign name value scope) (w'.assign name value scope) := by
    unfold assign
    split
    · exact { h with vars := by rw [h.vars] }
    · exact h
  have outcome := h.ledger.define { name, value, scope, pos := node.pos, seq := node.seq }
    { name, value, scope, pos := node'.pos, seq := node'.seq }
    ⟨rfl, rfl, rfl, rfl, rfl, fun _ => placed.seq⟩
  rw [define_eq, define_eq]
  rcases outcome with ⟨l, l', e, e', same⟩ | ⟨fault, e, e'⟩ <;> rw [e, e']
  · exact { assigned with ledger := same }
  · dsimp only
    split
    · exact { assigned with stop := .some (.limit rfl rfl) }
    · exact assigned.report ..

theorem defineLabel (p p' : Pass) (placed : node.Placed S node') :
    Placed S R (w.defineLabel p node) (w'.defineLabel p' node') := by
  unfold Walk.defineLabel
  rw [placed.label]
  cases node.label with
  | none => exact h
  | some name =>
    simp only [h.pc]
    exact h.define p p' placed name w.pc _

theorem enter (p p' : Pass) (placed : node.Placed S node') : Placed S R (w.enter p node) (w'.enter p' node') :=
  (h.list ..).defineLabel p p' placed

end

theorem foldl {α : Type} {f g : Walk → α → Walk}
    (step : ∀ {w w'} (a : α), Placed S R w w' → Placed S R (f w a) (g w' a)) :
    ∀ (as : List α) {w w' : Walk}, Placed S R w w' → Placed S R (as.foldl f w) (as.foldl g w')
  | [], _, _, h => h
  | a :: as, _, _, h => foldl step as (step a h)

theorem times {f g : Walk → Walk} (step : ∀ {w w'}, Placed S R w w' → Placed S R (f w) (g w')) :
    ∀ (n : Nat) {w w' : Walk}, Placed S R w w' → Placed S R (times f n w) (times g n w')
  | 0, _, _, h => h
  | n + 1, _, _, h => times step n (step h)

theorem isSome_stop (h : Placed S R w w') : w'.stop.isSome = w.stop.isSome := by
  have stop := h.stop
  generalize w.stop = x, w'.stop = y at stop
  cases stop <;> rfl

theorem untaken (h : Placed S R w w') (p' : Pass) (follows : R.Follows skips) (allowed : skips) {s' : Statement}
    (untaken : s'.Untaken) : Placed S R w (step p' s' w') := by
  obtain ⟨entries, passed⟩ := untaken.exists_step p' w'
  rw [passed]
  refine { h with sizes := ?_ }
  simp only [Walk.measure, Nat.sub_self]
  exact follows.skip allowed h.sizes

section
variable (pass : Pass.Placed S p p')
include pass

section
variable (h : Placed S R w w')
include h

theorem env : w'.env p' = w.env p := by
  simp only [Walk.env, h.vars, h.pc]
  congr 1
  funext name
  rw [pass.prev.value?]

theorem eval (node node' : Node) (e : Expr) :
    (w'.eval p' node' e).1 = (w.eval p node e).1 ∧ Placed S R (w.eval p node e).2 (w'.eval p' node' e).2 := by
  have env := h.env pass
  refine ⟨by simp only [Walk.eval, env], ?_⟩
  rw [eval_eq, eval_eq, env]
  have noted : Placed S R
      (w.reference node.pos (e.names.filter fun name => ((w.env p).lookup name).isNone))
      (w'.reference node'.pos (e.names.filter fun name => ((w.env p).lookup name).isNone)) :=
    { h with ledger := h.ledger.references .. }
  cases e.fault? (w.env p) with
  | none => exact noted
  | some fault => exact noted.report ..

theorem act_plain (node node' : Node) (action : Action) (plain : action.defines = false) :
    Placed S R (w.act p node action) (w'.act p' node' action) := by
  have kept : Congruence (Placed S R) id (fun _ => True) p p' node node' :=
    ⟨fun h => h.pc, fun code h => h.emit code, fun _ _ h => h.report .., fun h => h.report ..,
      fun _ h => h.eval pass node node' _⟩
  exact kept.act_same h plain (fun _ _ => trivial) (fun pc h => h.goto pc)
    fun h => { h with stop := .some .outOfBounds }

theorem runScript (placed : node.Placed S node') (source : Text) :
    Placed S R (w.runScript p node source) (w'.runScript p' node' source) := by
  have constants : w'.scriptConstants p' = w.scriptConstants p := by
    simp only [scriptConstants, pass.prev.definedList, h.vars]
  unfold Walk.runScript
  rw [placed.file, constants, h.pc]
  split
  · exact h.report ..
  · refine foldl (fun constant h => ?_) _ (h.emit _)
    unfold defineScripted
    dsimp only
    split
    · exact h.define p p' placed _ _ _
    · exact h.report ..

theorem act (placed : node.Placed S node') (action : Action) :
    Placed S R (w.act p node action) (w'.act p' node' action) := by
  cases defines : action.defines with
  | false => exact h.act_plain pass node node' action defines
  | true =>
    cases action with
    | equate name value assigned =>
      obtain ⟨same, after⟩ := h.eval pass node node' value
      simp only [Walk.act, same]
      exact after.define p p' placed name _ _
    | script source => exact h.runScript pass placed source
    | _ => cases defines

end

theorem isDefined_of_splits (splits : S.SplitsAt node.seq node'.seq) (h : Placed S R w w') (name : Text) :
    w'.isDefined p' node' name = w.isDefined p node name := by
  unfold isDefined Table.get?
  rw [h.vars]
  rcases pass.prev.symbols.cases name with ⟨e, e'⟩ | ⟨s, s', e, e', same⟩ <;> rw [e, e']
  cases defined : s.defined with
  | false => simp [same.defined, defined]
  | true => simp [same.defined, defined, splits (same.seq defined)]

theorem test_of_splits (placed : node.Placed S node') (h : Placed S R w w') :
    ∀ {test}, (Heading.choose node test).Splits S →
      (w'.test p' node' test).1 = (w.test p node test).1 ∧ Placed S R (w.test p node test).2 (w'.test p' node' test).2
  | .nonzero e, _ => by
    obtain ⟨value, same⟩ := h.eval pass node node' e
    simp only [Walk.test, value, true_and]
    exact same
  | .defined name negated, splits =>
    ⟨by simp only [Walk.test, isDefined_of_splits pass (splits placed.seq) h], h⟩

section
variable (follows : R.Follows skips)
include follows

theorem step_steps_of_splits :
    (∀ s' {s : Statement}, (∀ h ∈ s.flatten, h.Splits S) → Statement.Placed S skips s s' →
      ∀ {w w' : Walk}, Placed S R w w' → Placed S R (Walk.step p s w) (Walk.step p' s' w')) ∧
    ∀ program' {program : List Statement}, (∀ h ∈ Statement.flattenAll program, h.Splits S) →
      Statement.AllPlaced S skips program program' → ∀ {w w' : Walk}, Placed S R w w' →
        Placed S R (Walk.steps p program w) (Walk.steps p' program' w') := by
  refine Statement.tree_induction
    (fun node' action s _ placed w w' h => ?_) (fun node' test yes' no' yes_ih no_ih s splits placed w w' h => ?_)
    (fun node' count body' ih s splits placed w w' h => ?_) (fun {program} _ placed w w' h => ?_)
    (fun s' rest' s_ih ih {program} splits placed w w' h => ?_)
  · cases placed with
    | act placed =>
      rw [step_act, step_act, h.code]
      exact (((h.defineLabel p p' placed).act pass placed action).list ..).measure follows _
    | instruction label label' m args =>
      rw [step_act, step_act, h.code]
      simp only [Walk.defineLabel, label, label']
      exact ((h.act_plain pass _ _ (.instruction m args) rfl).list ..).measure follows _
  · cases placed with
    | choose placed _ yes_placed no_placed =>
      rw [Statement.flatten, List.forall_mem_cons, List.forall_mem_append] at splits
      obtain ⟨outcome, same⟩ := test_of_splits pass placed (h.enter p p' placed) splits.1
      rw [step_choose, step_choose, outcome, h.code]
      refine Placed.measure ?_ follows _
      split
      · exact yes_ih splits.2.1 yes_placed same
      · exact no_ih splits.2.2 no_placed same
  · cases placed with
    | @repeated node _ placed _ _ _ body_placed =>
      rw [Statement.flatten, List.forall_mem_cons] at splits
      obtain ⟨rounds, same⟩ := (h.enter p p' placed).eval pass node node' count
      rw [step_repeated, step_repeated, rounds, h.code]
      refine Placed.measure ?_ follows _
      split
      · exact same.report ..
      · exact times (ih splits.2 body_placed) _ same
  · cases placed
    exact h
  · cases placed with
    | cons first others =>
      rw [Statement.flattenAll, List.forall_mem_append] at splits
      simp only [Walk.steps, h.isSome_stop]
      split
      · exact h
      · exact ih splits.2 others (s_ih splits.1 first h)
    | skip allowed untaken others =>
      rw [Walk.steps, h.isSome_stop]
      split
      next stopped =>
        rw [steps_of_stop stopped]
        exact h
      next => exact ih splits others (h.untaken p' follows allowed untaken)

/-- **A walk over a program at other places does the same**, if its tests for definitions stay in order. -/
theorem steps_of_splits {program program' : List Statement} (splits : ∀ h ∈ flattenAll program, h.Splits S)
    (placed : AllPlaced S skips program program') (h : Placed S R w w') :
    Placed S R (steps p program w) (steps p' program' w') :=
  (step_steps_of_splits pass follows).2 program' splits placed h

end

variable (ordered : S.Ordered)
include ordered

theorem isDefined (h : Placed S R w w') (placed : node.Placed S node') (name : Text) :
    w'.isDefined p' node' name = w.isDefined p node name :=
  isDefined_of_splits pass (fun _ _ other => ordered other placed.seq) h name

theorem test (h : Placed S R w w') (placed : node.Placed S node') (test : Test) :
    (w'.test p' node' test).1 = (w.test p node test).1 ∧ Placed S R (w.test p node test).2 (w'.test p' node' test).2 :=
  test_of_splits pass placed h (ordered.splits _)

variable (follows : R.Follows skips)
include follows

theorem step {s s' : Statement} (placed : Statement.Placed S skips s s') (h : Placed S R w w') :
    Placed S R (Walk.step p s w) (Walk.step p' s' w') :=
  (step_steps_of_splits pass follows).1 s' (fun h _ => ordered.splits h) placed h

theorem steps {program program' : List Statement} (placed : AllPlaced S skips program program')
    (h : Placed S R w w') : Placed S R (Walk.steps p program w) (Walk.steps p' program' w') :=
  steps_of_splits pass follows (fun h _ => ordered.splits h) placed h

end

end Walk.Placed

/-! ## Runs -/

structure Result.Same (a a' : Result) : Prop where
  state : a'.state = a.state
  fault : a'.fault = a.fault
  passes : a'.passes = a.passes
  code : a'.code = a.code
  /-- The same names, each with the same value and scope, and defined in both or in none. -/
  symbols : Option.Rel (fun t t' => ∀ name, t'.agreeOn t name = true) a.symbols a'.symbols
  errors : a'.diagnostics.errors = a.diagnostics.errors
  warnings : a'.diagnostics.warnings = a.diagnostics.warnings

inductive Outcome.Same : Outcome → Outcome → Prop
  | finished {a a' : Result} (h : a.Same a') : Same (.finished a) (.finished a')
  | outOfBounds : Same .outOfBounds .outOfBounds

namespace Diagnostics
variable {ds ds' : Diagnostics}

section
variable (h : ds'.severities = ds.severities)
include h

theorem errors_eq_of_severities : ds'.errors = ds.errors := by
  have counted (ds : Diagnostics) : ds.errors = ds.severities.countP (· != .warning) := by
    rw [severities, List.countP_map]; rfl
  rw [counted, counted, h]

theorem warnings_eq_of_severities : ds'.warnings = ds.warnings := by
  have counted (ds : Diagnostics) : ds.warnings = ds.severities.countP fun s => !(s != .warning) := by
    rw [severities, List.countP_map]; rfl
  rw [counted, counted, h]

theorem severities_append {es es' : Diagnostics}
    (g : es'.severities = es.severities) : severities (ds' ++ es') = severities (ds ++ es) := by
  simp only [severities] at h g ⊢
  rw [List.map_append, List.map_append, h, g]

end

end Diagnostics

theorem Result.Same.of_placed {a a' : Result} {S : Numbering} (fault : a'.fault = a.fault)
    (passes : a'.passes = a.passes) (code : a'.code = a.code)
    (symbols : Option.Rel (Table.Placed S) a.symbols a'.symbols)
    (reports : a'.diagnostics.severities = a.diagnostics.severities) : a.Same a' where
  state := congrArg State.ofFault fault
  fault := fault
  passes := passes
  code := code
  symbols := by
    generalize a.symbols = x, a'.symbols = y at symbols
    cases symbols with
    | none => exact .none
    | some placed => exact .some placed.agree
  errors := errors_eq_of_severities reports
  warnings := warnings_eq_of_severities reports

namespace Assembly
variable {S : Numbering} {s s' : Settings} {program program' : List Statement} {t t' u u' : Table}

theorem unstable_severities (h : Table.Placed S t t') (g : Table.Placed S u u') (index : Nat) :
    (unstable index t' (t'.diff u')).severities = (unstable index t (t.diff u)).severities := by
  have reports (next : Table) (changed : List Text) : (unstable index next changed).severities =
      List.replicate (if changed.isEmpty then 1 else changed.length) .error := by
    unfold unstable severities
    split
    · rfl
    · simp [Function.comp_def, Diagnostic.of]
  rw [reports, reports, (h.diff_perm g).isEmpty_eq, (h.diff_perm g).length_eq]

theorem predefined_placed (s : Settings) (known : S (-1) (-1)) : Ledger.Placed S (predefined s) (predefined s) := by
  refine ⟨fun name => ?_, rfl, rfl⟩
  cases found : (predefined s).symbols[name]? with
  | none => exact .none
  | some sym =>
    obtain ⟨value, -, rfl⟩ := predefined_entry found
    exact .some ⟨rfl, rfl, rfl, rfl, rfl, fun _ => known⟩

theorem final_placed {R : SizeRel} {w w' : Walk} (h : Walk.Placed S R w w') (g : Table.Placed S t t') (index : Nat)
    {ds ds' : Diagnostics} (reports : ds'.severities = ds.severities) :
    (final index w t ds).Same (final index w' t' ds') :=
  .of_placed (by simp only [final, compileFault?, errors_eq_of_severities reports]) rfl h.code (.some g) reports

/-- **The passes over a program at other places end in the same way**, from tables that are placed. -/
theorem resolve_placed (splits : ∀ h ∈ flattenAll program, h.Splits S) (known : S (-1) (-1))
    (same : predefined s' = predefined s) (placed : AllPlaced S False program program') (cancelled : Nat → Bool)
    (reports : found'.severities = found.severities) :
    ∀ (left index : Nat) {t t' : Table}, Table.Placed S t t' → ∀ sizes,
      Outcome.Same (resolve s cancelled program found left index t sizes)
        (resolve s' cancelled program' found' left index t' sizes)
  | left, index, t, t', h, sizes => by
    rw [resolve, resolve]
    have follows : SizeRel.Follows (· = ·) False := ⟨fun n same => by rw [same], fun none => none.elim⟩
    have walk : Walk.Placed S (· = ·) (Pass.walk ⟨index, t, s.listing⟩ (predefined s) program)
        (Pass.walk ⟨index, t', s'.listing⟩ (predefined s') program') := by
      have pass : Pass.Placed S ⟨index, t, s.listing⟩ ⟨index, t', s'.listing⟩ := ⟨rfl, h⟩
      have start : Walk.Placed S (· = ·) { ledger := predefined s } { ledger := predefined s' } :=
        ⟨same ▸ predefined_placed s known, rfl, rfl, rfl, rfl, rfl, .none⟩
      exact Walk.Placed.steps_of_splits pass follows splits placed start
    dsimp only
    generalize Pass.walk _ (predefined s) program = w at walk ⊢
    generalize Pass.walk _ (predefined s') program' = w' at walk ⊢
    have next := walk.ledger.freeze t t' index index
    have reports' := severities_append reports walk.diagnostics
    split
    · exact .finished (.of_placed (S := S) rfl rfl rfl .none (severities_append reports rfl))
    · have stop := walk.stop
      generalize w.stop = x, w'.stop = y at stop
      cases stop with
      | some stop =>
        cases stop with
        | outOfBounds => exact .outOfBounds
        | limit severity fault =>
          have last : severities [_] = severities [_] := congrArg (fun s => [s]) severity
          exact .finished (.of_placed fault rfl rfl (.some h) (severities_append reports last))
      | none =>
        dsimp only
        rw [(next.diff_perm h).isEmpty_eq, ← walk.sizes]
        split
        · exact .finished (final_placed walk next index reports')
        · cases left with
          | zero =>
            exact .finished (final_placed walk next index
              (severities_append reports' (unstable_severities next h index)))
          | succ left =>
            exact resolve_placed splits known same placed cancelled reports left (index + 1) next _

/-- **Runs over programs that differ in places end in the same way**, if tests for definitions stay in order. -/
theorem passesOver_of_splits (splits : ∀ h ∈ flattenAll program, h.Splits S) (known : S (-1) (-1))
    (same : predefined s' = predefined s) (limit : s'.passLimit = s.passLimit)
    (placed : AllPlaced S False program program') (cancelled : Nat → Bool)
    (reports : found'.severities = found.severities) :
    Outcome.Same (passesOver s cancelled found program) (passesOver s' cancelled found' program') := by
  unfold passesOver
  rw [limit, same]
  exact resolve_placed splits known same placed cancelled reports _ _ ((predefined_placed s known).freeze ..) _

theorem passesOver_placed (ordered : S.Ordered) (known : S (-1) (-1))
    (same : predefined s' = predefined s) (limit : s'.passLimit = s.passLimit)
    (placed : AllPlaced S False program program') (cancelled : Nat → Bool)
    (reports : found'.severities = found.severities) :
    Outcome.Same (passesOver s cancelled found program) (passesOver s' cancelled found' program') :=
  passesOver_of_splits (fun h _ => ordered.splits h) known same limit placed cancelled reports

end Assembly

end Z80Asm
