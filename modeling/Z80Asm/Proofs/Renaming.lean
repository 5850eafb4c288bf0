import Mathlib.Data.List.Nodup
import Z80Asm.Proofs.Congruence

/-!
# Renamed programs

A renaming gives new names to the symbols of a program.  If it is injective, a walk over the renamed
program does what the walk over the program does, and enters the same symbols under their new names.
-/

namespace Z80Asm

open Statement Std.TreeMap

/-! ## New names -/

def Expr.rename (r : Text → Text) : Expr → Expr
  | num v => num v
  | sym name => sym (r name)
  | pc => pc
  | unary op x => unary op (x.rename r)
  | binary op x y => binary op (x.rename r) (y.rename r)

def Arg.rename (r : Text → Text) : Arg → Arg
  | reg rr => reg rr
  | ind rr => ind rr
  | cond cc => cond cc
  | imm e => imm (e.rename r)
  | mem e => mem (e.rename r)
  | idx rr e => idx rr (e.rename r)

def Item.rename (r : Text → Text) : Item → Item
  | bytes text => bytes text
  | value e => value (e.rename r)

/-- An action under new names.  What is reported about a line stays as it is. -/
def Action.rename (r : Text → Text) : Action → Action
  | label => label
  | bad fault => bad fault
  | instruction m args => instruction m (args.map (·.rename r))
  | data width items => data width (items.map (·.rename r))
  | space count fill => space (count.rename r) (fill.map (·.rename r))
  | align boundary fill => align (boundary.rename r) (fill.map (·.rename r))
  | org address => org (address.rename r)
  | equate name value assigned => equate (r name) (value.rename r) assigned
  | incbin name file offset length =>
    incbin name file (offset.map (·.rename r)) (length.map (·.rename r))
  | assert condition => assert (condition.rename r)
  | message text => message text
  | script source => script source

theorem Action.rename_eq_map {r : Text → Text} {action : Action} (plain : action.defines = false) :
    action.rename r = action.map (·.rename r) := by
  have arg : Arg.rename r = Arg.map (·.rename r) := funext fun arg => by cases arg <;> rfl
  have item : Item.rename r = Item.map (·.rename r) := funext fun item => by cases item <;> rfl
  cases action with
  | equate | script => cases plain
  | _ => simp [rename, map, arg, item]

def Test.rename (r : Text → Text) : Test → Test
  | nonzero e => nonzero (e.rename r)
  | defined name negated => defined (r name) negated

def Node.rename (r : Text → Text) (node : Node) : Node := { node with label := node.label.map r }

mutual

def Statement.rename (r : Text → Text) : Statement → Statement
  | .act node action => .act (node.rename r) (action.rename r)
  | .choose node test yes no =>
    .choose (node.rename r) (test.rename r) (renameAll r yes) (renameAll r no)
  | .repeated node count body => .repeated (node.rename r) (count.rename r) (renameAll r body)

def Statement.renameAll (r : Text → Text) : List Statement → List Statement
  | [] => []
  | s :: rest => s.rename r :: renameAll r rest

end

def Action.isScriptFree : Action → Bool
  | script _ => false
  | _ => true

mutual

def Statement.isScriptFree : Statement → Bool
  | .act _ action => action.isScriptFree
  | .choose _ _ yes no => allScriptFree yes && allScriptFree no
  | .repeated _ _ body => allScriptFree body

def Statement.allScriptFree : List Statement → Bool
  | [] => true
  | s :: rest => s.isScriptFree && allScriptFree rest

end

/-! ## Symbols under new names -/

/-- The scope of a symbol and the one that it has under a new name. -/
inductive Scope.Image (name name' : Text) : Scope → Scope → Prop
  | written : Image name name' (.ofName name) (.ofName name')
  | assigned : Image name name' .assigned .assigned
  | predefined : Image name name' .predefined .predefined

theorem Scope.ofName_ne_predefined (name : Text) : Scope.ofName name ≠ .predefined := by
  unfold Scope.ofName; split <;> simp

theorem Scope.Image.eq_iff {name name' : Text} {a a' b b' : Scope} (h : Image name name' a a')
    (g : Image name name' b b') : a = b ↔ a' = b' := by
  have var := ofName_ne_assigned
  have pre := ofName_ne_predefined
  cases h <;> cases g <;> simp [var, pre, (var _).symm, (pre _).symm]

/-- A symbol and the one that it becomes under a new name. -/
structure Symbol.Image (r : Text → Text) (key : Text) (s s' : Symbol) : Prop where
  name : s'.name = r key
  value : s'.value = s.value
  defined : s'.defined = s.defined
  pass : s'.pass = s.pass
  scope : Scope.Image key (r key) s.scope s'.scope
  pos : s'.pos = s.pos
  seq : s'.seq = s.seq

theorem Symbol.Image.sameState {r : Text → Text} {name : Text} {s s' t t' : Symbol}
    (h : Image r name s s') (g : Image r name t t') : s'.sameState t' = s.sameState t := by
  rw [Bool.eq_iff_iff, sameState_iff, sameState_iff, h.value, g.value, h.defined, g.defined, h.scope.eq_iff g.scope]

structure SymbolMap.Image (r : Text → Text) (m m' : SymbolMap) : Prop where
  entry : ∀ name, Option.Rel (Symbol.Image r name) m[name]? m'[r name]?
  onto : ∀ name' ∈ m', ∃ name, r name = name'

namespace SymbolMap.Image
variable {r : Text → Text} {m m' : SymbolMap}

theorem cases (h : Image r m m') (name : Text) :
    (m[name]? = none ∧ m'[r name]? = none) ∨
      ∃ s s', m[name]? = some s ∧ m'[r name]? = some s' ∧ Symbol.Image r name s s' := by
  have entry := h.entry name
  generalize m[name]? = x, m'[r name]? = y at entry
  cases entry with
  | none => exact .inl ⟨rfl, rfl⟩
  | some same => exact .inr ⟨_, _, rfl, rfl, same⟩

theorem mem_iff (h : Image r m m') (name : Text) : r name ∈ m' ↔ name ∈ m := by
  rw [mem_iff_isSome_getElem?, mem_iff_isSome_getElem?]
  rcases h.cases name with ⟨e, e'⟩ | ⟨_, _, e, e', _⟩ <;> simp [e, e']

theorem insert (inj : Function.Injective r) (h : Image r m m') {name : Text} {s s' : Symbol}
    (g : Symbol.Image r name s s') : Image r (m.insert name s) (m'.insert (r name) s') where
  entry other := by
    rw [getElem?_insert, getElem?_insert]
    by_cases same : name = other
    · subst same
      simpa using Option.Rel.some g
    · have apart : r name ≠ r other := fun e => same (inj e)
      simpa [same, apart] using h.entry other
  onto name' mem := by
    rcases mem_insert.1 mem with same | mem
    · exact ⟨name, Std.LawfulEqCmp.eq_of_compare same⟩
    · exact h.onto name' mem

end SymbolMap.Image

/-- The same symbols under new names, at the end of a pass. -/
structure Table.Image (r : Text → Text) (t t' : Table) : Prop where
  symbols : SymbolMap.Image r t.symbols t'.symbols
  defined : t'.defined = t.defined

/-- The same symbols under new names, in the course of a pass. -/
structure Ledger.Image (r : Text → Text) (l l' : Ledger) : Prop where
  symbols : SymbolMap.Image r l.symbols l'.symbols
  defined : l'.defined = l.defined
  limit : l'.limit = l.limit

namespace Table.Image
variable {r : Text → Text} {t t' u u' : Table}

theorem value? (h : Image r t t') (name : Text) : t'.value? (r name) = t.value? name := by
  unfold Table.value? get?
  rcases h.symbols.cases name with ⟨e, e'⟩ | ⟨_, _, e, e', same⟩ <;> rw [e, e']
  simp [same.defined, same.value]

theorem agreeOn (h : Image r t t') (g : Image r u u') (name : Text) : t'.agreeOn u' (r name) = t.agreeOn u name := by
  unfold Table.agreeOn get?
  rcases h.symbols.cases name with ⟨e, e'⟩ | ⟨_, _, e, e', left⟩ <;>
    rcases g.symbols.cases name with ⟨f, f'⟩ | ⟨_, _, f, f', right⟩ <;> rw [e, e', f, f']
  exact left.sameState right

/-- The names that differ are the new names of those that differ, in another order. -/
theorem diff_perm (inj : Function.Injective r) (h : Image r t t') (g : Image r u u') :
    (t'.diff u').Perm ((t.diff u).map r) := by
  refine (List.perm_ext_iff_of_nodup (nodup_diff t' u') (List.Nodup.map inj (nodup_diff t u))).2 fun name' => ?_
  have differs_iff : ∀ name, r name ∈ t'.diff u' ↔ name ∈ t.diff u := fun name => by
    rw [mem_diff_iff, mem_diff_iff, h.agreeOn g]
  constructor
  · intro differs
    obtain ⟨name, rfl⟩ : ∃ name, r name = name' := by
      rcases mem_union_iff.1 (mem_keys.1 (List.mem_of_mem_filter differs)) with mem | mem
      · exact h.symbols.onto _ mem
      · exact g.symbols.onto _ mem
    exact List.mem_map_of_mem ((differs_iff name).1 differs)
  · intro mem
    obtain ⟨name, differs, rfl⟩ := List.mem_map.1 mem
    exact (differs_iff name).2 differs

theorem isEmpty_diff (inj : Function.Injective r) (h : Image r t t') (g : Image r u u') :
    (t'.diff u').isEmpty = (t.diff u).isEmpty := by
  rw [(h.diff_perm inj g).isEmpty_eq, List.isEmpty_map]

end Table.Image

namespace Ledger.Image
variable {r : Text → Text} {l l' : Ledger}

section
variable (inj : Function.Injective r)
include inj

theorem insert (h : Image r l l') {name : Text} {s s' : Symbol}
    (g : Symbol.Image r name s s') {n n' : Nat} (count : n' = n) :
    Image r { l with symbols := l.symbols.insert name s, defined := n }
      { l' with symbols := l'.symbols.insert (r name) s', defined := n' } :=
  ⟨h.symbols.insert inj g, count, h.limit⟩

/-- A definition is entered under both names, or refused under both for the same reason. -/
theorem define (h : Image r l l') (s s' : Symbol) (g : Symbol.Image r s.name s s') :
    (∃ k k', l.define s = .ok k ∧ l'.define s' = .ok k' ∧ Image r k k') ∨
      ∃ fault, l.define s = .error fault ∧ l'.define s' = .error fault := by
  have fresh : Symbol.Image r s.name { s with defined := true } { s' with defined := true } :=
    { g with defined := rfl }
  have counted := h.insert inj fresh (congrArg (· + 1) h.defined)
  unfold Ledger.define
  simp only [g.name]
  rcases h.symbols.cases s.name with ⟨e, e'⟩ | ⟨old, old', e, e', same⟩
  · simp only [e, e', h.defined, h.limit]
    split
    · exact .inr ⟨_, rfl, rfl⟩
    · refine .inl ⟨_, _, rfl, rfl, ?_⟩
      simpa only [g.name, h.defined, h.limit] using counted
  · have var : (old'.scope = .assigned ∧ s'.scope = .assigned) ↔ (old.scope = .assigned ∧ s.scope = .assigned) := by
      rw [same.scope.eq_iff .assigned, g.scope.eq_iff .assigned]
    simp only [e, e', same.defined, h.defined, h.limit, Bool.and_eq_true, decide_eq_true_eq, var]
    split
    · split
      · refine .inl ⟨_, _, rfl, rfl, ?_⟩
        have kept : Symbol.Image r s.name { s with defined := true, pos := old.pos, seq := old.seq }
            { s' with defined := true, pos := old'.pos, seq := old'.seq } :=
          { fresh with pos := same.pos, seq := same.seq }
        simpa only [g.name, h.defined, h.limit] using h.insert inj kept h.defined
      · exact .inr ⟨_, rfl, rfl⟩
    · split
      · exact .inr ⟨_, rfl, rfl⟩
      · refine .inl ⟨_, _, rfl, rfl, ?_⟩
        simpa only [g.name, h.defined, h.limit] using counted

theorem reference (h : Image r l l') (name : Text) (pos : Pos) :
    Image r (l.reference name pos) (l'.reference (r name) pos) := by
  have known : l'.symbols.contains (r name) = l.symbols.contains name := by
    rw [Bool.eq_iff_iff, contains_iff_mem, contains_iff_mem, h.symbols.mem_iff]
  have used : Symbol.Image r name { name, pos, scope := .ofName name }
      { name := r name, pos, scope := .ofName (r name) } :=
    ⟨rfl, rfl, rfl, rfl, .written, rfl, rfl⟩
  unfold Ledger.reference
  rw [known]
  split
  · exact h
  · exact h.insert inj used h.defined

theorem references (h : Image r l l') (names : List Text) (pos : Pos) :
    Image r (names.foldl (·.reference · pos) l) ((names.map r).foldl (·.reference · pos) l') := by
  induction names generalizing l l' with
  | nil => exact h
  | cons name rest ih => exact ih (h.reference inj name pos)

end

theorem freeze (h : Image r l l') {prev prev' : Table} (before : Table.Image r prev prev') (pass : Int) :
    Table.Image r (l.freeze prev pass) (l'.freeze prev' pass) where
  symbols := {
    entry := fun name => by
      have dated : ∀ {s s' : Symbol}, Symbol.Image r name s s' →
          Symbol.Image r name (datedSymbol prev pass name s) (datedSymbol prev' pass (r name) s') := by
        intro s s' g
        refine ⟨by simp [g.name], by simp [g.value], by simp [g.defined], ?_, by simpa using g.scope,
          by simp [g.pos], by simp [g.seq]⟩
        unfold datedSymbol Table.get?
        rcases before.symbols.cases name with ⟨e, e'⟩ | ⟨_, _, e, e', old⟩ <;> rw [e, e']
        simp only [old.sameState g, old.pass]
      simp only [Ledger.freeze, getElem?_map]
      rcases h.symbols.cases name with ⟨e, e'⟩ | ⟨_, _, e, e', g⟩ <;> rw [e, e']
      · exact .none
      · exact .some (dated g)
    onto := fun name' mem => by
      refine h.symbols.onto name' ?_
      rw [mem_iff_isSome_getElem?] at mem ⊢
      simpa [Ledger.freeze, getElem?_map] using mem }
  defined := h.defined

end Ledger.Image

/-! ## Expressions -/

def Fault.rename (r : Text → Text) : Fault → Fault
  | labelMissing name => labelMissing (r name)
  | fault => fault

theorem Category.ofFault_rename (r : Text → Text) (fault : Fault) :
    Category.ofFault (fault.rename r) = Category.ofFault fault := by
  cases fault <;> rfl

structure Env.Image (r : Text → Text) (env env' : Env) : Prop where
  lookup : ∀ name, env'.lookup (r name) = env.lookup name
  pc : env'.pc = env.pc

namespace Expr
variable {r : Text → Text} {env env' : Env}

theorem names_rename (r : Text → Text) (e : Expr) : (e.rename r).names = e.names.map r := by
  induction e <;> simp_all [rename, names]

theorem value_rename (h : Env.Image r env env') (e : Expr) : (e.rename r).value env' = e.value env := by
  induction e <;> simp_all [rename, value, h.lookup, h.pc]

theorem fault?_rename (h : Env.Image r env env') (e : Expr) :
    (e.rename r).fault? env' = (e.fault? env).map (.rename r) := by
  induction e with
  | num | pc => rfl
  | sym name =>
    simp only [rename, fault?, h.lookup]
    split <;> rfl
  | unary op x ih => exact ih
  | binary op x y x_ih y_ih =>
    simp only [rename, fault?, x_ih, y_ih, value_rename h, Option.map_or]
    congr 1
    split <;> rfl

theorem missing_rename (h : Env.Image r env env') (e : Expr) :
    (e.rename r).names.filter (fun name => (env'.lookup name).isNone) =
      (e.names.filter fun name => (env.lookup name).isNone).map r := by
  rw [names_rename, List.filter_map]
  simp only [Function.comp_def, h.lookup]

end Expr

/-! ## Walks -/

/-- What a diagnostic is, apart from the wording of its fault. -/
def Diagnostic.outline (d : Diagnostic) : Severity × Category × Pos × Int :=
  (d.severity, d.category, d.pos, d.pass)

/-- A pass over a renamed program: it reads the same table under new names. -/
structure Pass.Image (r : Text → Text) (p p' : Pass) : Prop where
  index : p'.index = p.index
  prev : Table.Image r p.prev p'.prev
  listing : p'.listing = p.listing

/-- A walk over a renamed program: it has entered the same symbols under new names. -/
structure Walk.Image (r : Text → Text) (w w' : Walk) : Prop where
  ledger : Ledger.Image r w.ledger w'.ledger
  vars : ∀ name : Text, w'.vars[r name]? = w.vars[name]?
  pc : w'.pc = w.pc
  code : w'.code = w.code
  sizes : w'.sizes = w.sizes
  diagnostics : w'.diagnostics.toList.map (·.outline) = w.diagnostics.toList.map (·.outline)
  entries : w'.entries = w.entries
  stop : w'.stop = w.stop

namespace Walk.Image

variable {r : Text → Text} {p p' : Pass} {w w' : Walk}

theorem emit (h : Image r w w') (code : List UInt8) : Image r (w.emit code) (w'.emit code) :=
  { h with
    pc := by simp only [Walk.emit, h.pc]
    code := by simp only [Walk.emit, h.code] }

theorem goto (h : Image r w w') (pc : Int64) : Image r { w with pc } { w' with pc } := { h with pc := rfl }

theorem measure (h : Image r w w') (start : Nat) : Image r (w.measure start) (w'.measure start) :=
  { h with sizes := by simp only [Walk.measure, h.sizes, h.code] }

theorem stopWith (h : Image r w w') (stop : Option Stop) :
    Image r { w with stop } { w' with stop } := { h with stop := rfl }

section
variable (pass : Pass.Image r p p')
include pass

theorem report (h : Image r w w') (node : Node) (severity : Severity) {fault fault' : Fault}
    (same : Category.ofFault fault' = .ofFault fault) :
    Image r (w.report p node severity fault) (w'.report p' (node.rename r) severity fault') :=
  { h with
    diagnostics := by
      have added : (Diagnostic.of severity (node.rename r).pos p'.index fault').outline =
          (Diagnostic.of severity node.pos p.index fault).outline := by
        simp only [Diagnostic.outline, Diagnostic.of, same, pass.index, Node.rename]
      simp only [Walk.report, Array.toList_push, List.map_append, h.diagnostics, List.map_cons, added, List.map_nil] }

theorem misfit (h : Image r w w') (node : Node) (m : Cpu.Misfit) :
    Image r (w.misfit p node m) (w'.misfit p' (node.rename r) m) :=
  h.report pass node _ rfl

theorem env (h : Image r w w') : Env.Image r (w.env p) (w'.env p') where
  lookup name := by simp only [Walk.env, h.vars, pass.prev.value?]
  pc := h.pc

variable (inj : Function.Injective r)
include inj

theorem eval (h : Image r w w') (node : Node) (e : Expr) :
    (w'.eval p' (node.rename r) (e.rename r)).1 = (w.eval p node e).1 ∧
      Image r (w.eval p node e).2 (w'.eval p' (node.rename r) (e.rename r)).2 := by
  have env := h.env pass
  refine ⟨Expr.value_rename env e, ?_⟩
  rw [eval_eq, eval_eq, Expr.fault?_rename env, Expr.missing_rename env]
  have noted : Image r (w.reference node.pos (e.names.filter fun name => ((w.env p).lookup name).isNone))
      (w'.reference (node.rename r).pos ((e.names.filter fun name => ((w.env p).lookup name).isNone).map r)) :=
    { h with ledger := h.ledger.references inj _ _ }
  cases e.fault? (w.env p) with
  | none => exact noted
  | some fault => exact noted.report pass node .error (Category.ofFault_rename r fault)

omit pass in
theorem assign (h : Image r w w') (name : Text) (value : Int64) {scope scope' : Scope}
    (same : Scope.Image name (r name) scope scope') :
    Image r (w.assign name value scope) (w'.assign (r name) value scope') := by
  unfold Walk.assign
  simp only [← same.eq_iff .assigned]
  split
  · refine { h with vars := fun other => ?_ }
    rw [getElem?_insert, getElem?_insert]
    simp only [Std.LawfulEqCmp.compare_eq_iff_eq, inj.eq_iff, h.vars]
  · exact h

theorem define (h : Image r w w') (node : Node) (name : Text) (value : Int64) {scope scope' : Scope}
    (same : Scope.Image name (r name) scope scope') :
    Image r (w.define p node name value scope) (w'.define p' (node.rename r) (r name) value scope') := by
  have assigned := h.assign inj name value same
  have outcome := h.ledger.define inj { name, value, scope, pos := node.pos, seq := node.seq }
    { name := r name, value, scope := scope', pos := node.pos, seq := node.seq }
    ⟨rfl, rfl, rfl, rfl, same, rfl, rfl⟩
  rw [define_eq, define_eq, Node.rename]
  rcases outcome with ⟨l, l', e, e', image⟩ | ⟨fault, e, e'⟩ <;> rw [e, e']
  · exact { assigned with ledger := image }
  · dsimp only
    split
    · rw [pass.index]
      exact assigned.stopWith _
    · exact assigned.report pass node .error rfl

theorem defineLabel (h : Image r w w') (node : Node) :
    Image r (w.defineLabel p node) (w'.defineLabel p' (node.rename r)) := by
  unfold Walk.defineLabel
  cases label : node.label with
  | none => simpa [Node.rename, label] using h
  | some name =>
    simp only [Node.rename, label, Option.map_some, h.pc]
    exact h.define pass inj node name w.pc .written

omit inj in
theorem list (h : Image r w w') (node : Node) (address : Int64) (start : Nat) :
    Image r (w.list p node address start) (w'.list p' (node.rename r) address start) := by
  unfold Walk.list
  rw [pass.listing]
  split
  · exact { h with entries := by simp only [h.entries, h.code, Node.rename] }
  · exact h

theorem enter (h : Image r w w') (node : Node) : Image r (w.enter p node) (w'.enter p' (node.rename r)) := by
  unfold Walk.enter
  rw [h.pc, h.code]
  exact (h.list pass node _ _).defineLabel pass inj node

theorem act (h : Image r w w') (node : Node) {action : Action} (free : action.isScriptFree = true) :
    Image r (w.act p node action) (w'.act p' (node.rename r) (action.rename r)) := by
  have kept : Congruence (Image r) (·.rename r) (fun _ => True) p p' node (node.rename r) :=
    ⟨fun h => h.pc, fun code h => h.emit code, fun _ _ h => h.report pass node _ rfl,
      fun h => h.report pass node _ rfl, fun _ h => h.eval pass inj node _⟩
  cases defines : action.defines with
  | false =>
    rw [Action.rename_eq_map defines]
    exact kept.act h defines (fun _ _ => trivial) (fun _ _ _ pc h => h.goto pc) fun _ _ _ h => h.stopWith _
  | true =>
    cases action with
    | equate name value assigned =>
      obtain ⟨same, image⟩ := h.eval pass inj node value
      simp only [Action.rename, Walk.act, same]
      refine image.define pass inj node name _ ?_
      cases assigned
      · exact .written
      · exact .assigned
    | script source => cases free
    | _ => cases defines

omit inj in
theorem isDefined (h : Image r w w') (node : Node) (name : Text) :
    w'.isDefined p' (node.rename r) (r name) = w.isDefined p node name := by
  have var : w'.vars.contains (r name) = w.vars.contains name := by
    rw [contains_eq_isSome_getElem?, contains_eq_isSome_getElem?, h.vars]
  unfold Walk.isDefined Table.get?
  rw [var]
  rcases pass.prev.symbols.cases name with ⟨e, e'⟩ | ⟨_, _, e, e', same⟩ <;> rw [e, e']
  simp only [same.defined, same.seq, Node.rename]

theorem test (h : Image r w w') (node : Node) :
    ∀ test, (w'.test p' (node.rename r) (test.rename r)).1 = (w.test p node test).1 ∧
      Image r (w.test p node test).2 (w'.test p' (node.rename r) (test.rename r)).2
  | .nonzero e => by
    obtain ⟨value, image⟩ := h.eval pass inj node e
    simp only [Walk.test, Test.rename, value, true_and]
    exact image
  | .defined name negated => ⟨by simp only [Walk.test, Test.rename, h.isDefined pass], h⟩

omit pass inj in
theorem times {f g : Walk → Walk} (step : ∀ {w w'}, Image r w w' → Image r (f w) (g w')) :
    ∀ (n : Nat) {w w' : Walk}, Image r w w' → Image r (times f n w) (times g n w')
  | 0, _, _, h => h
  | n + 1, _, _, h => times step n (step h)

/-- **A walk over a renamed program does the same**, and enters the same symbols under new names. -/
theorem steps : ∀ program, allScriptFree program = true → ∀ {w w' : Walk}, Image r w w' →
    Image r (steps p program w) (steps p' (renameAll r program) w') := by
  refine (tree_induction
    (P := fun s => s.isScriptFree = true → ∀ {w w' : Walk}, Image r w w' →
      Image r (step p s w) (step p' (s.rename r) w'))
    (fun node action free w w' h => ?_) (fun node test yes no yes_ih no_ih free w w' h => ?_)
    (fun node count body ih free w w' h => ?_) (fun _ _ _ h => h)
    (fun s rest s_ih ih free w w' h => ?_)).2
  · rw [rename, step_act, step_act, h.pc, h.code]
    exact (((h.defineLabel pass inj node).act pass inj node free).list pass node _ _).measure _
  · simp only [isScriptFree, Bool.and_eq_true] at free
    obtain ⟨outcome, image⟩ := (h.enter pass inj node).test pass inj node test
    rw [rename, step_choose, step_choose, outcome, h.code]
    refine Image.measure ?_ _
    split
    · exact yes_ih free.1 image
    · exact no_ih free.2 image
  · obtain ⟨rounds, image⟩ := (h.enter pass inj node).eval pass inj node count
    rw [rename, step_repeated, step_repeated, rounds, h.code]
    refine Image.measure ?_ _
    split
    · exact image.misfit pass node _
    · exact times (ih free) _ image
  · simp only [allScriptFree, Bool.and_eq_true] at free
    simp only [renameAll, Walk.steps, h.stop]
    split
    · exact h
    · exact ih free.2 (s_ih free.1 h)

end

end Walk.Image

end Z80Asm
