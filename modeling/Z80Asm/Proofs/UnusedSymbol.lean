import Z80Asm.Proofs.Alongside
import Z80Asm.Proofs.Mentions
import Z80Asm.Proofs.RunsAlongside
import Z80Asm.Proofs.SameShape

/-!
# A symbol that nothing uses

A program may define one more symbol.  As long as no other statement mentions its name, and there is room for it,
each pass does the same as without it: all that is left of it is its entry in the table, and the size of its
statement, which is zero.
-/

namespace Z80Asm

open Table Walk Std.TreeMap

variable {n : Nat} {other : Text} {r : Result} {e : Expr} {found found' : Diagnostics}

theorem Expr.fault?_congr {env env' : Env} (pc : env.pc = env'.pc)
    (lookup : ∀ name ∈ e.names, env.lookup name = env'.lookup name) : e.fault? env = e.fault? env' := by
  induction e with
  | num | pc => rfl
  | sym name => simp only [fault?, lookup name (by simp [names])]
  | unary op x ih => exact ih lookup
  | binary op x y x_ih y_ih =>
    simp only [names, List.mem_append] at lookup
    simp only [fault?, x_ih fun name h => lookup name (.inl h), y_ih fun name h => lookup name (.inr h),
      Expr.value_congr (e := y) pc fun name h => lookup name (.inr h)]

/-! ## Symbols -/

/-- The second map has the symbol `entry`, if there is one, under a name that the first one does not have.  All
    other names have the same symbols. -/
structure SymbolMap.Beside (name : Text) (entry : Option Symbol) (m m' : SymbolMap) : Prop where
  others : ∀ other, other ≠ name → m'[other]? = m[other]?
  absent : m[name]? = none
  own : m'[name]? = entry

namespace SymbolMap.Beside
variable {name : Text} {entry : Option Symbol} {m m' : SymbolMap}

section
variable (h : Beside name entry m m')
include h

theorem mem_iff (ne : other ≠ name) : other ∈ m' ↔ other ∈ m := by
  rw [mem_iff_isSome_getElem?, mem_iff_isSome_getElem?, h.others other ne]

theorem own_mem_iff : name ∈ m' ↔ entry.isSome = true := by
  rw [mem_iff_isSome_getElem?, h.own]

theorem insert (ne : other ≠ name) (s : Symbol) : Beside name entry (m.insert other s) (m'.insert other s) where
  others another ne' := by
    rw [getElem?_insert, getElem?_insert, h.others another ne']
  absent := by simpa [getElem?_insert, ne] using h.absent
  own := by simpa [getElem?_insert, ne] using h.own

theorem toList : m'.toList.filter (·.1 != name) = m.toList := by
  have same : (m'.filter fun other _ => other != name).Equiv m := by
    refine .of_forall_constGet?_eq fun other => ?_
    by_cases ne : other = name
    · subst ne
      simp [getElem?_filter, h.absent]
    · rw [getElem?_filter', h.others other ne, bne_iff_ne.2 ne]
      cases m[other]? <;> rfl
  rw [← same.toList_eq, toList_filter]

end

end SymbolMap.Beside

namespace Ledger

/-- The same symbols so far, and the symbol `entry`, if there is one. -/
structure Beside (name : Text) (entry : Option Symbol) (l l' : Ledger) : Prop where
  symbols : SymbolMap.Beside name entry l.symbols l'.symbols
  defined : l'.defined = l.defined + entry.toList.length
  limit : l'.limit = l.limit

namespace Beside
variable {name : Text} {entry : Option Symbol} {l l' : Ledger}

section
variable (h : Beside name entry l l')
include h

theorem define {s : Symbol} (ne : s.name ≠ name) (enough : ∀ k, l.define s = .ok k → ¬ k.Full) (here : ¬ l.Full) :
    (∃ k k', l.define s = .ok k ∧ l'.define s = .ok k' ∧ Beside name entry k k') ∨
      l.define s = .error (.plain .labelDuplicate) ∧ l'.define s = .error (.plain .labelDuplicate) := by
  have same := h.symbols.others s.name ne
  have one : entry.toList.length ≤ 1 := by cases entry <;> simp
  rcases l.define_cases s with ⟨old, found, taken, var, var', e⟩ | ⟨old, found, taken, constant, e⟩ |
    ⟨-, full, -⟩ | ⟨new, -, e⟩
  · rcases l'.define_cases s with ⟨old', found', _, _, _, e'⟩ | ⟨old', found', _, constant, _⟩ | ⟨new, _⟩ | ⟨new, _⟩
    · rw [same, found, Option.some_inj] at found'
      subst found'
      exact .inl ⟨_, _, e, e', h.symbols.insert ne _, h.defined, h.limit⟩
    · rw [same, found, Option.some_inj] at found'
      subst found'
      exact absurd ⟨var, var'⟩ constant
    all_goals exact absurd ⟨old, same.trans found, taken⟩ new
  · rcases l'.define_cases s with ⟨old', found', _, var, var', _⟩ | ⟨_, _, _, _, e'⟩ | ⟨new, _⟩ | ⟨new, _⟩
    · rw [same, found, Option.some_inj] at found'
      subst found'
      exact absurd ⟨var, var'⟩ constant
    · exact .inr ⟨e, e'⟩
    all_goals exact absurd ⟨old, same.trans found, taken⟩ new
  · exact absurd full here
  · have room : ¬ l.limit ≤ (l.defined + 1 : Nat) := enough _ e
    have new' {old : Symbol} (found : l'.symbols[s.name]? = some old) (taken : old.defined = true) : False :=
      new ⟨old, same.symm.trans found, taken⟩
    rcases l'.define_cases s with ⟨_, found', taken, _⟩ | ⟨_, found', taken, _⟩ | ⟨_, full, _⟩ | ⟨_, _, e'⟩
    · exact (new' found' taken).elim
    · exact (new' found' taken).elim
    · rw [h.limit, h.defined] at full
      omega
    · refine .inl ⟨_, _, e, e', h.symbols.insert ne _, ?_, h.limit⟩
      simp only [h.defined]
      omega

theorem reference (ne : other ≠ name) (pos : Pos) :
    Beside name entry (l.reference other pos) (l'.reference other pos) := by
  have known : l'.symbols.contains other = l.symbols.contains other := by
    rw [Bool.eq_iff_iff, contains_iff_mem, contains_iff_mem, h.symbols.mem_iff ne]
  unfold Ledger.reference
  rw [known]
  split
  · exact h
  · exact ⟨h.symbols.insert ne _, h.defined, h.limit⟩

theorem references {names : List Text} (free : name ∉ names) (pos : Pos) :
    Beside name entry (names.foldl (·.reference · pos) l) (names.foldl (·.reference · pos) l') := by
  induction names generalizing l l' with
  | nil => exact h
  | cons other rest ih =>
    rw [List.mem_cons, not_or] at free
    exact ih (h.reference (Ne.symm free.1) pos) free.2

theorem freeze {before : Option Symbol} {prev prev' : Table}
    (earlier : SymbolMap.Beside name before prev.symbols prev'.symbols) (pass : Int) :
    SymbolMap.Beside name (entry.map (datedSymbol prev' pass name)) (l.freeze prev pass).symbols
      (l'.freeze prev' pass).symbols where
  others other ne := by
    have dated : datedSymbol prev' pass other = datedSymbol prev pass other := by
      funext s
      simp only [datedSymbol, Table.get?, earlier.others other ne]
    simp only [Ledger.freeze, Std.TreeMap.getElem?_map, h.symbols.others other ne, dated]
  absent := by simp [Ledger.freeze, Std.TreeMap.getElem?_map, h.symbols.absent]
  own := by simp [Ledger.freeze, Std.TreeMap.getElem?_map, h.symbols.own]

end

end Beside

end Ledger

namespace SymbolMap.Beside
variable {name : Text} {entry before : Option Symbol} {t t' u u' : Table}

section
variable (h : Beside name entry t.symbols t'.symbols)
include h

theorem agreeOn (g : Beside name before u.symbols u'.symbols)
    (ne : other ≠ name) : t'.agreeOn u' other = t.agreeOn u other := by
  simp only [Table.agreeOn, Table.get?, h.others other ne, g.others other ne]

theorem agreeOn_absent (g : Beside name before u.symbols u'.symbols) : t.agreeOn u name = true := by
  simp only [Table.agreeOn, Table.get?, h.absent, g.absent]

theorem definedList (named : t'.Named) (seen : Text → Bool) (hidden : seen name = false) :
    (t'.definedList.map fun s => (s.name, s.value.toInt)).filter (seen ·.1) =
      (t.definedList.map fun s => (s.name, s.value.toInt)).filter (seen ·.1) := by
  have named' : ∀ e ∈ t'.symbols.toList, e.2.name = e.1 := fun e mem =>
    named e.1 e.2 (mem_toList_iff_getElem?_eq_some.1 mem)
  have others : t'.toList.filter (·.name != name) = t.toList := by
    rw [toList_eq_map, toList_eq_map, ← h.toList, List.filter_map]
    exact congrArg _ (List.filter_congr fun e mem => by simp [named' e mem])
  have shown : ∀ s : Symbol, (seen s.name && s.defined) = (seen s.name && (s.defined && s.name != name)) := by
    intro s
    by_cases same : s.name = name
    · simp [same, hidden]
    · rw [bne_iff_ne.2 same, Bool.and_true]
  simp only [Table.definedList, List.filter_map, List.filter_filter, ← others, Function.comp_def]
  exact congrArg _ (List.filter_congr fun s _ => shown s)

end

end SymbolMap.Beside

/-- The symbol that the definition of a number is entered as. -/
def Node.constant (node : Node) (name : Text) (value : Int64) : Symbol :=
  { name, value, defined := true, scope := .ofName name, pos := node.pos, seq := node.seq }

def Ledger.add (l : Ledger) (x : Symbol) : Ledger :=
  { l with symbols := l.symbols.insert x.name x, defined := l.defined + 1 }

theorem Ledger.Beside.add {name : Text} {l l' : Ledger} (h : Beside name none l l') {x : Symbol} (own : x.name = name) :
    Beside name (some x) l (l'.add x) := by
  subst own
  refine ⟨⟨fun other ne => ?_, h.symbols.absent, getElem?_insert_self⟩, ?_, h.limit⟩
  · simp [Ledger.add, getElem?_insert, Ne.symm ne, h.symbols.others other ne]
  · simpa [Ledger.add] using h.defined

/-! ## Walks -/

namespace Walk

def HasRoom (w : Walk) : Prop := ¬ w.ledger.Full

instance (w : Walk) : Decidable w.HasRoom := inferInstanceAs (Decidable (¬ _ ≤ _))

theorem Moves.hasRoom {p : Pass} {w v : Walk} (h : Moves p w v) (enough : v.HasRoom) : w.HasRoom := by
  have grown : v.ledger.limit = w.ledger.limit ∧ w.ledger.defined ≤ v.ledger.defined := by
    refine h.ledger_induction (P := fun l => l.limit = w.ledger.limit ∧ w.ledger.defined ≤ l.defined)
      ⟨rfl, Nat.le_refl _⟩ (fun {l} name pos same => ?_) (fun {l k s} entered same => ?_)
    · exact ⟨(l.references_limit [name] pos).trans same.1, same.2.trans_eq (l.references_defined [name] pos).symm⟩
    · rcases l.define_cases s with ⟨_, _, _, _, _, e⟩ | ⟨_, _, _, _, e⟩ | ⟨_, _, e⟩ | ⟨_, _, e⟩ <;>
        rw [e] at entered <;> cases entered
      · exact same
      · exact ⟨same.1, same.2.trans (Nat.le_succ _)⟩
  simp only [HasRoom, Ledger.Full, grown.1] at enough ⊢
  omega

end Walk

theorem Action.names_subset_mentions (action : Action) (h : e ∈ action.exprs) : e.names ⊆ action.mentions := by
  cases action with
  | label | bad | message | script => cases h
  | instruction m args =>
    obtain ⟨arg, mem, isExpr⟩ := List.mem_filterMap.1 h
    exact fun _ here => List.mem_flatMap.2 ⟨arg, mem, by rwa [Arg.mentions, isExpr]⟩
  | data width items =>
    obtain ⟨_ | _, mem, isExpr⟩ := List.mem_filterMap.1 h
    · cases isExpr
    · cases isExpr
      exact fun _ here => List.mem_flatMap.2 ⟨_, mem, here⟩
  | org | assert => simp_all [exprs, mentions]
  | equate => simp_all [exprs, mentions]
  | space count fill | align boundary fill =>
    rcases List.mem_cons.1 h with rfl | mem
    · exact List.subset_append_left _ _
    · rw [Option.mem_toList.1 mem, mentions]
      exact List.subset_append_right _ _
  | incbin file data offset length =>
    rcases List.mem_append.1 h with mem | mem
    · rw [Option.mem_toList.1 mem, mentions]
      exact List.subset_append_left _ _
    · rw [Option.mem_toList.1 mem, mentions]
      exact List.subset_append_right _ _

/-- A walk with one more symbol: apart from it, the listing and the sizes it is the same. -/
structure Walk.Beside (name : Text) (entry : Option Symbol) (w w' : Walk) : Prop where
  ledger : Ledger.Beside name entry w.ledger w'.ledger
  vars : w'.vars = w.vars
  pc : w'.pc = w.pc
  code : w'.code = w.code
  diagnostics : w'.diagnostics = w.diagnostics
  stop : w'.stop = w.stop

structure Pass.Beside (name : Text) (p p' : Pass) : Prop where
  index : p'.index = p.index
  prev : ∃ entry, SymbolMap.Beside name entry p.prev.symbols p'.prev.symbols
  named : p'.prev.Named

namespace Walk.Beside
variable {name : Text} {entry : Option Symbol} {p p' : Pass} {w w' : Walk} {node : Node}

section
variable (h : Beside name entry w w')
include h

theorem emit (code : List UInt8) : Beside name entry (w.emit code) (w'.emit code) :=
  { h with
    pc := by simp only [Walk.emit, h.pc]
    code := by simp only [Walk.emit, h.code] }

theorem goto (pc : Int64) : Beside name entry { w with pc } { w' with pc } := { h with pc := rfl }

theorem list (p p' : Pass) (node : Node) (address address' : Int64) (start start' : Nat) :
    Beside name entry (w.list p node address start) (w'.list p' node address' start') := by
  obtain ⟨_, left⟩ := w.exists_list p node address start
  obtain ⟨_, right⟩ := w'.exists_list p' node address' start'
  rw [left, right]
  exact { h with }

theorem measure (start : Nat) : Beside name entry (w.measure start) (w'.measure start) := { h with }

theorem has_iff : w'.Has (some name) ↔ entry.isSome = true := by
  simp [Has, h.ledger.symbols.own_mem_iff]

end

theorem foldl {α : Type} {f g : Walk → α → Walk} (moves : ∀ w a, Moves p w (f w a)) :
    ∀ (as : List α), (∀ {w w'}, ∀ a ∈ as, Beside name entry w w' → (f w a).HasRoom → Beside name entry (f w a) (g w' a)) →
      ∀ {w w'}, Beside name entry w w' → (as.foldl f w).HasRoom → Beside name entry (as.foldl f w) (as.foldl g w')
  | [], _, _, _, h, _ => h
  | a :: as, step, _, _, h, enough =>
    foldl moves as (fun b mem => step b (List.mem_cons_of_mem _ mem))
      (step a List.mem_cons_self h ((foldl_moves moves as _).hasRoom enough)) enough

section
variable (pass : Pass.Beside name p p')
include pass

section
variable (h : Beside name entry w w')
include h

theorem report (node : Node) (severity : Severity) (fault : Fault) :
    Beside name entry (w.report p node severity fault) (w'.report p' node severity fault) :=
  { h with diagnostics := by simp only [Walk.report, h.diagnostics, pass.index] }

/-- **Another symbol is defined in both walks or in none.** -/
theorem define (ne : other ≠ name) {value : Int64} {scope : Scope}
    (enough : (w.define p node other value scope).HasRoom) :
    Beside name entry (w.define p node other value scope) (w'.define p' node other value scope) := by
  have assigned : Beside name entry (w.assign other value scope) (w'.assign other value scope) := by
    unfold assign
    split
    · exact { h with vars := by rw [h.vars] }
    · exact h
  have here : w.HasRoom := (Move.define node other value scope).moves.hasRoom enough
  rw [define_eq] at enough
  have outcome := h.ledger.define (s := { name := other, value, scope, pos := node.pos, seq := node.seq }) ne
    (fun k entered => by rwa [entered] at enough) here
  rw [define_eq, define_eq]
  rcases outcome with ⟨k, k', e, e', same⟩ | ⟨e, e'⟩ <;> rw [e, e']
  · exact { assigned with ledger := same }
  · exact assigned.report pass ..

theorem defineLabel (free : name ∉ node.label.toList) (enough : (w.defineLabel p node).HasRoom) :
    Beside name entry (w.defineLabel p node) (w'.defineLabel p' node) := by
  unfold Walk.defineLabel at enough ⊢
  cases label : node.label with
  | none => exact h
  | some other =>
    simp only [label, Option.toList_some, List.mem_singleton] at free enough ⊢
    rw [h.pc]
    exact h.define pass (Ne.symm free) enough

theorem enter (free : name ∉ node.label.toList) (enough : (w.enter p node).HasRoom) :
    Beside name entry (w.enter p node) (w'.enter p' node) :=
  (h.list p p' node ..).defineLabel pass free enough

theorem lookup (ne : other ≠ name) : (w'.env p').lookup other = (w.env p).lookup other := by
  obtain ⟨before, prev⟩ := pass.prev
  simp only [Walk.env, h.vars, Table.value?, Table.get?, prev.others other ne]

theorem eval (node : Node) (free : name ∉ e.names) :
    (w'.eval p' node e).1 = (w.eval p node e).1 ∧ Beside name entry (w.eval p node e).2 (w'.eval p' node e).2 := by
  have same : ∀ other ∈ e.names, (w'.env p').lookup other = (w.env p).lookup other := fun other mem =>
    h.lookup pass (by rintro rfl; exact free mem)
  have missing : (e.names.filter fun other => ((w'.env p').lookup other).isNone) =
      e.names.filter fun other => ((w.env p).lookup other).isNone :=
    List.filter_congr fun other mem => by rw [same other mem]
  have pc : (w'.env p').pc = (w.env p).pc := h.pc
  refine ⟨Expr.value_congr pc same, ?_⟩
  rw [eval_eq, eval_eq, Expr.fault?_congr pc same, missing]
  have noted : Beside name entry
      (w.reference node.pos (e.names.filter fun other => ((w.env p).lookup other).isNone))
      (w'.reference node.pos (e.names.filter fun other => ((w.env p).lookup other).isNone)) :=
    { h with ledger := h.ledger.references (fun mem => free (List.mem_of_mem_filter mem)) _ }
  cases e.fault? (w.env p) with
  | none => exact noted
  | some fault => exact noted.report pass ..

theorem scriptConstants (seen : Text → Bool) (hidden : seen name = false) :
    (w'.scriptConstants p').filter (seen ·.1) = (w.scriptConstants p).filter (seen ·.1) := by
  obtain ⟨before, prev⟩ := pass.prev
  have both := prev.definedList pass.named (fun other => seen other && isScriptName other) (by simp [hidden])
  simp only [Walk.scriptConstants, List.filter_filter, List.filter_append, h.vars]
  rw [both]

theorem runScript {source : Text} (free : name ∉ Script.mentions source)
    (enough : (w.runScript p node source).HasRoom) :
    Beside name entry (w.runScript p node source) (w'.runScript p' node source) := by
  rw [Script.mentions, List.mem_append, not_or] at free
  have sees : Script.run node.pos.file source (w'.scriptConstants p') w.pc.toInt =
      Script.run node.pos.file source (w.scriptConstants p) w.pc.toInt :=
    Script.run_of_names (h.scriptConstants pass (Script.names source).contains (by simpa using free.1)) _ _
  unfold Walk.runScript at enough ⊢
  rw [h.pc, sees]
  cases ran : Script.run node.pos.file source (w.scriptConstants p) w.pc.toInt with
  | error message => exact h.report pass ..
  | ok outcome =>
    simp only [ran] at enough ⊢
    refine foldl (p := p) (fun w constant => ?_) _ (fun constant mem h enough => ?_) (h.emit _) enough
    · unfold defineScripted
      dsimp only
      split
      · exact (Move.define ..).moves
      · exact fail_moves w p node _
    · have other : constant.1 ≠ name := by
        rintro rfl
        exact free.2 (Script.constants_bound ran constant mem)
      unfold defineScripted at enough ⊢
      dsimp only at enough ⊢
      split
      next fits =>
        rw [if_pos fits] at enough
        exact h.define pass other enough
      next => exact h.report pass ..

theorem act {action : Action} (free : name ∉ action.mentions) (enough : (w.act p node action).HasRoom) :
    Beside name entry (w.act p node action) (w'.act p' node action) := by
  have kept : Congruence (Beside name entry) id (name ∉ ·.names) p p' node node :=
    ⟨fun h => h.pc, fun code h => h.emit code, fun _ _ h => h.report pass .., fun h => h.report pass ..,
      fun free h => h.eval pass node free⟩
  cases defines : action.defines with
  | false =>
    exact kept.act_same h defines (fun e mem here => free (action.names_subset_mentions mem here))
      (fun pc h => h.goto pc) fun h => { h with stop := rfl }
  | true =>
    cases action with
    | equate other value assigned =>
      rw [Action.mentions, List.mem_cons, not_or] at free
      obtain ⟨same, after⟩ := h.eval pass node free.2
      simp only [Walk.act, same] at enough ⊢
      exact after.define pass (Ne.symm free.1) enough
    | script source => exact h.runScript pass free enough
    | _ => cases defines

theorem test (node : Node) :
    ∀ {test : Test}, name ∉ test.mentions → (w'.test p' node test).1 = (w.test p node test).1 ∧
      Beside name entry (w.test p node test).2 (w'.test p' node test).2
  | .nonzero e, free => by
    obtain ⟨value, same⟩ := h.eval pass node free
    simp only [Walk.test, value, true_and]
    exact same
  | .defined other negated, free => by
    obtain ⟨before, prev⟩ := pass.prev
    have ne : other ≠ name := by
      rintro rfl
      exact free List.mem_cons_self
    refine ⟨?_, h⟩
    simp only [Walk.test, Walk.isDefined, Table.get?, h.vars, prev.others other ne]

end

end

end Walk.Beside

/-! ## Passes over both programs -/

/-- A symbol of the given value, as it is defined under the name. -/
structure Symbol.Constant (name : Text) (value : Int64) (x : Symbol) : Prop where
  value : x.value = value
  defined : x.defined = true
  scope : x.scope = .ofName name

/-- A walk with one more symbol of the given value, or with none. -/
def Walk.Extends (name : Text) (value : Int64) (w w' : Walk) : Prop :=
  ∃ entry : Option Symbol, (∀ x ∈ entry, x.Constant name value) ∧ Walk.Beside name entry w w'

namespace Walk
variable {name : Text} {value : Int64} {p p' q q' : Pass} {w w' v v' : Walk}

/-- Passes of which one reads one more symbol do the same at all statements that do not mention it. -/
theorem mirrors_beside (pass : Pass.Beside name p p') (value : Int64) :
    Mirrors (fun h => name ∉ h.mentions) HasRoom (some name) (Extends name value) p p' where
  earlier moves enough := moves.hasRoom enough
  stop := by
    rintro _ _ ⟨_, -, h⟩
    rw [h.stop]
  code := by
    rintro _ _ ⟨_, -, h⟩
    exact h.code
  act := by
    rintro w w' node action free ⟨entry, constant, h⟩ enough
    rw [Heading.mentions, List.mem_append, not_or] at free
    rw [step_act] at enough ⊢
    have acted := (Move.list (p := p) node _ _).moves.hasRoom ((Move.measure (p := p) _).moves.hasRoom enough)
    have labelled := h.defineLabel pass free.1 ((act_moves _ p node action).hasRoom acted)
    have after := ((labelled.act pass free.2 acted).list p p' node w.pc w'.pc w.code.size w'.code.size).measure
      w.code.size
    rw [step_act, h.code]
    rw [h.code] at after
    exact ⟨⟨entry, constant, after⟩, after.has_iff.trans h.has_iff.symm⟩
  test := by
    rintro w w' node test free ⟨entry, constant, h⟩ enough
    rw [Heading.mentions, List.mem_append, not_or] at free
    obtain ⟨outcome, after⟩ := (h.enter pass free.1 ((test_moves _ p node test).hasRoom enough)).test pass node free.2
    exact ⟨outcome, ⟨entry, constant, after⟩, after.has_iff.trans h.has_iff.symm⟩
  count := by
    rintro w w' node e free ⟨entry, constant, h⟩ enough
    rw [Heading.mentions, List.mem_append, not_or] at free
    have entered := h.enter pass free.1 ((Move.eval node e).moves.hasRoom enough)
    obtain ⟨outcome, after⟩ := entered.eval pass node free.2
    exact ⟨outcome, ⟨entry, constant, after⟩, after.has_iff.trans h.has_iff.symm⟩
  misfit := by
    rintro _ _ ⟨entry, constant, h⟩ node m
    exact ⟨entry, constant, h.report pass ..⟩
  measure := by
    rintro _ _ ⟨entry, constant, h⟩ start
    exact ⟨entry, constant, h.measure start⟩

section
variable {node : Node} (unlabelled : node.label = none)
include unlabelled

theorem exists_step_constant (p : Pass) {w : Walk} (unknown : w.ledger.symbols[name]? = none) (enough : w.HasRoom) :
    ∃ entries, step p (.act node (.equate name (.num value) false)) w =
      { w with ledger := w.ledger.add (node.constant name value), sizes := w.sizes.push 0, entries } := by
  have room : ¬ w.ledger.limit ≤ w.ledger.defined := enough
  have entered : w.ledger.define { name, value, scope := .ofName name, pos := node.pos, seq := node.seq } =
      .ok (w.ledger.add (node.constant name value)) := by
    simp [Ledger.define, unknown, room, Ledger.add, Node.constant]
  have acted : w.act p node (.equate name (.num value) false) =
      { w with ledger := w.ledger.add (node.constant name value) } := by
    have number : w.eval p node (.num value) = (value, w) := rfl
    rw [act_equate, number, define_eq, assign_of_ne _ _ _ _ (Scope.ofName_ne_assigned name), entered]
  obtain ⟨entries, listed⟩ :=
    exists_list { w with ledger := w.ledger.add (node.constant name value) } p node w.pc w.code.size
  refine ⟨entries, ?_⟩
  rw [step_act, defineLabel, unlabelled]
  simp only [acted, listed, measure, Nat.sub_self]

theorem extends_step (p' : Pass) (h : Extends name value w w') (unknown : ¬ w'.Has (some name)) (enough : w.HasRoom) :
    ∃ entries, step p' (.act node (.equate name (.num value) false)) w' =
        { w' with ledger := w'.ledger.add (node.constant name value), sizes := w'.sizes.push 0, entries } ∧
      Extends name value w (step p' (.act node (.equate name (.num value) false)) w') ∧
      (step p' (.act node (.equate name (.num value) false)) w').Has (some name) := by
  obtain ⟨entry, -, h⟩ := h
  obtain rfl : entry = none := by simpa using mt h.has_iff.2 unknown
  have enough' : w'.HasRoom := by
    simpa [HasRoom, Ledger.Full, h.ledger.limit, h.ledger.defined] using enough
  obtain ⟨entries, stepped⟩ : ∃ entries, step p' (.act node (.equate name (.num value) false)) w' = _ :=
    exists_step_constant unlabelled p' h.ledger.symbols.own enough'
  have after : Beside name (some (node.constant name value)) w
      (step p' (.act node (.equate name (.num value) false)) w') := by
    rw [stepped]
    exact { h with ledger := h.ledger.add rfl }
  have constant : (node.constant name value).Constant name value := ⟨rfl, rfl, rfl⟩
  exact ⟨entries, stepped, ⟨_, by simpa using constant, after⟩, after.has_iff.2 rfl⟩

/-- **A pass that defines one more symbol does the same.** -/
theorem extends_defined (p' : Pass) (h : Extends name value w w') (unknown : ¬ w'.Has (some name))
    (enough : w.HasRoom) :
    Extends name value w (steps p' [.act node (.equate name (.num value) false)] w') := by
  by_cases stopped : w'.stop.isSome
  · rwa [steps_of_stop stopped]
  · obtain ⟨-, -, after, -⟩ := extends_step unlabelled p' h unknown enough
    rwa [steps_cons_of_none (by simpa using stopped)]

/-- **Two passes that define one more symbol stay parallel.** -/
theorem parallel_defined (pass : Pass.Beside name p p') (pass' : Pass.Beside name q q') :
    StaysParallel HasRoom (some name) (Extends name value) (¬ ·.Has (some name)) p q (steps p [])
      (steps p' [.act node (.equate name (.num value) false)]) (steps q [])
      (steps q' [.act node (.equate name (.num value) false)]) (visits p []) (visits q []) := by
  intro w w' v v' h unknown enough enough' going going' r r' same
  have goes : w'.stop = none := by simpa [show w.stop = none from going] using (mirrors_beside pass value).stop h.first
  have goes' : v'.stop = none := by
    simpa [show v.stop = none from going'] using (mirrors_beside pass' value).stop h.second
  obtain ⟨entries, stepped, first, known⟩ := extends_step unlabelled p' h.first unknown enough
  obtain ⟨entries', stepped', second, known'⟩ := extends_step unlabelled q' h.second (mt h.name.2 unknown) enough'
  rw [steps_cons_of_none goes, steps_cons_of_none goes']
  refine ⟨same, first, second, h.even, ?_, iff_of_true known known'⟩
  have sizes : (w'.sizes.push 0 = v'.sizes.push 0) ↔ w.sizes = v.sizes := by
    rw [Array.push_eq_push, h.sizes]
    exact and_iff_right rfl
  simpa only [steps, stepped, stepped'] using sizes

end

end Walk

/-! ## Runs -/

/-- The second result has the same code, and the same symbols apart from the name, which is not known in the first
    one, and is known in the second one as a constant of the given value, if at all. -/
structure Result.Extends (name : Text) (value : Int64) (a a' : Result) : Prop where
  state : a'.state = a.state
  code : a'.code = a.code
  symbols : ∃ t t', a.symbols = some t ∧ a'.symbols = some t' ∧ t.get? name = none ∧
    (∀ other, other ≠ name → t'.agreeOn t other = true) ∧ ∀ x ∈ t'.get? name, x.Constant name value
  errors : a'.diagnostics.errors = a.diagnostics.errors
  warnings : a'.diagnostics.warnings = a.diagnostics.warnings
  more : a'.passes ≤ a.passes + 1
  fewer : a.passes ≤ a'.passes + 1

namespace Assembly

/-- In every pass that a run makes there is room for one more symbol. -/
def LeavesRoom (s : Settings) (program : List Statement) : Prop :=
  ∀ n, 0 < n → n ≤ s.passLimit → (∀ k, 0 < k → k < n → Passed s program neverCancelled k) →
    (walked s program n).HasRoom

/-- There is room in all passes up to this one. -/
structure Near (s : Settings) (program : List Statement) (n : Nat) : Prop where
  pos : 0 < n
  enough : ∀ k, 0 < k → k ≤ n → (walked s program k).HasRoom

theorem start_beside {s : Settings} {name : Text} (fresh : (predefined s).symbols[name]? = none) :
    Beside name none { ledger := predefined s } { ledger := predefined s } :=
  ⟨⟨⟨fun _ _ => rfl, fresh, fresh⟩, rfl, rfl⟩, rfl, rfl, rfl, rfl, rfl⟩

section
variable {s : Settings} {name : Text} {value : Int64} {node : Node} (unlabelled : node.label = none)
  {program program' : List Statement}
  (swap : Statement.Swapped False [] [.act node (.equate name (.num value) false)] program program')
  (free : ∀ h ∈ Statement.flattenAll program, name ∉ h.mentions) (fresh : (predefined s).symbols[name]? = none)
include unlabelled swap free fresh

theorem walk_beside {p p' : Pass} (pass : Pass.Beside name p p') (enough : (p.walk (predefined s) program).HasRoom) :
    Extends name value (p.walk (predefined s) program) (p'.walk (predefined s) program') := by
  have start := start_beside fresh
  have part {w w' : Walk} (h : Extends name value w w') (unknown : ¬ w'.Has (some name)) (enough : w.HasRoom) :
      Extends name value (steps p [] w) (steps p' [.act node (.equate name (.num value) false)] w') :=
    extends_defined unlabelled p' h unknown enough
  exact (mirrors_beside pass value).swapped (fun never => never.elim) part swap free ⟨none, by simp, start⟩
    (mt start.has_iff.1 (by simp)) enough

theorem table_beside (near : ∀ k, 0 < k → k ≤ n → (walked s program k).HasRoom) :
    ∃ entry : Option Symbol, (∀ x ∈ entry, x.Constant name value) ∧
      SymbolMap.Beside name entry (table s program n).symbols (table s program' n).symbols := by
  induction n with
  | zero =>
    have empty : SymbolMap.Beside name none Table.empty.symbols Table.empty.symbols := by
      constructor <;> simp [Table.empty]
    exact ⟨none, by simp, (start_beside fresh).ledger.freeze empty 0⟩
  | succ n ih =>
    obtain ⟨before, -, prev⟩ := ih fun k pos le => near k pos (Nat.le_succ_of_le le)
    have pass : Pass.Beside name (passOf s program (n + 1)) (passOf s program' (n + 1)) :=
      ⟨rfl, ⟨before, prev⟩, table_named s program' n⟩
    obtain ⟨entry, constant, walk⟩ :=
      walk_beside unlabelled swap free fresh pass (near (n + 1) n.succ_pos (Nat.le_refl _))
    refine ⟨_, ?_, walk.ledger.freeze prev (n + 1)⟩
    intro x mem
    obtain ⟨y, isEntry, rfl⟩ := Option.mem_map.1 mem
    have given := constant y isEntry
    exact ⟨by simp [given.value], by simp [given.defined], by simp [given.scope]⟩

theorem passOf_beside (near : Near s program n) : Pass.Beside name (passOf s program n) (passOf s program' n) := by
  obtain ⟨before, -, prev⟩ := table_beside unlabelled swap free fresh (n := n - 1)
    fun k pos le => near.enough k pos (by omega)
  exact ⟨rfl, ⟨before, prev⟩, table_named s program' _⟩

theorem walked_beside (near : Near s program n) : Extends name value (walked s program n) (walked s program' n) :=
  walk_beside unlabelled swap free fresh (passOf_beside unlabelled swap free fresh near)
    (near.enough n near.pos (Nat.le_refl _))

theorem unchanged_of_beside (near : Near s program n) (unchanged : Unchanged s program' n) : Unchanged s program n := by
  obtain ⟨_, -, next⟩ := table_beside unlabelled swap free fresh near.enough
  obtain ⟨_, -, prev⟩ := table_beside unlabelled swap free fresh (n := n - 1)
    fun k pos le => near.enough k pos (by omega)
  refine diff_eq_nil_iff.2 fun other => ?_
  by_cases ne : other = name
  · rw [ne]
    exact next.agreeOn_absent prev
  · rw [← next.agreeOn prev ne]
    exact diff_eq_nil_iff.1 unchanged other

/-- The name is in the table of a pass if the pass knows it. -/
theorem unchanged_beside (near : Near s program (n + 2))
    (name_iff : (walked s program' (n + 2)).Has (some name) ↔ (walked s program' (n + 1)).Has (some name)) :
    Unchanged s program' (n + 2) ↔ Unchanged s program (n + 2) := by
  refine ⟨unchanged_of_beside unlabelled swap free fresh near, fun unchanged => ?_⟩
  obtain ⟨entry, constant, next⟩ := table_beside unlabelled swap free fresh near.enough
  obtain ⟨before, constant', prev⟩ := table_beside unlabelled swap free fresh (n := n + 1)
    fun k pos le => near.enough k pos (by omega)
  have known (k : Nat) : name ∈ (table s program' (k + 1)).symbols ↔ (walked s program' (k + 1)).Has (some name) := by
    simp [table_succ, Ledger.freeze, Walk.Has]
  have both : entry.isSome = before.isSome := by
    rw [Bool.eq_iff_iff, ← next.own_mem_iff, ← prev.own_mem_iff, known, known, name_iff]
  refine Table.diff_eq_nil_iff.2 fun other => ?_
  change (table s program' (n + 2)).agreeOn (table s program' (n + 1)) other = true
  by_cases ne : other = name
  · subst ne
    simp only [Table.agreeOn, Table.get?, next.own, prev.own]
    cases entry with
    | none =>
      obtain rfl : before = none := by simpa using both
      rfl
    | some x =>
      obtain ⟨y, rfl⟩ := Option.isSome_iff_exists.1 both.symm
      have here := constant x rfl
      have there := constant' y rfl
      exact Symbol.sameState_iff.2 ⟨by rw [here.value, there.value], by rw [here.defined, there.defined],
        by rw [here.scope, there.scope]⟩
  · rw [next.agreeOn prev ne]
    exact Table.diff_eq_nil_iff.1 unchanged other

theorem settled_beside (near : Near s program (n + 2)) (before : (walked s program (n + 1)).stop = none)
    (going : (walked s program (n + 2)).stop = none) (same : turnsOf s program (n + 2) = turnsOf s program (n + 1)) :
    Settled s program' (n + 2) ↔ Settled s program (n + 2) := by
  have near' : Near s program (n + 1) := ⟨n.succ_pos, fun k pos le => near.enough k pos (Nat.le_succ_of_le le)⟩
  have later := passOf_beside unlabelled swap free fresh near
  have earlier := passOf_beside unlabelled swap free fresh near'
  have stays := Parallel.swapped (mirrors_beside later value) (mirrors_beside earlier value)
    (fun never => never.elim) (parallel_defined unlabelled later earlier) swap free
  have alone := start_beside fresh
  have extended : Extends name value { ledger := predefined s } { ledger := predefined s } := ⟨none, by simp, alone⟩
  obtain ⟨-, ends⟩ := stays ⟨extended, extended, ⟨rfl, fun _ => rfl⟩, Iff.rfl, Iff.rfl⟩
    (mt alone.has_iff.1 (by simp)) (near.enough _ near.pos (Nat.le_refl _))
    (near'.enough _ near'.pos (Nat.le_refl _)) going before (congrArg (· ++ []) same)
  exact and_congr (unchanged_beside unlabelled swap free fresh near ends.name) ends.sizes

theorem alongside_beside (room : LeavesRoom s program) : Alongside s program program' (Near s program) where
  going near := by
    obtain ⟨_, -, walk⟩ := walked_beside unlabelled swap free fresh near
    rw [walk.stop]
  unchanged := unchanged_of_beside unlabelled swap free fresh
  settled near before going same := settled_beside unlabelled swap free fresh near before going same
  made pos le before := ⟨pos, fun k pos' le' => room k pos' (by omega) fun i ipos early => before i ipos (by omega)⟩
  repeats {n} near recurs := by
    refine ⟨n.succ_pos, fun k pos le => ?_⟩
    rcases Nat.lt_or_eq_of_le le with early | rfl
    · exact near.enough k pos (by omega)
    · rw [HasRoom, Recurs.ledger recurs]
      exact near.enough n near.pos (Nat.le_refl _)

omit unlabelled swap in
theorem table_absent (near : ∀ k, 0 < k → k ≤ n → (walked s program k).HasRoom) :
    (table s program n).get? name = none := by
  induction n with
  | zero => simp [table, Ledger.freeze_get?, fresh]
  | succ n ih =>
    have absent := ih fun k pos le => near k pos (Nat.le_succ_of_le le)
    have pass : Pass.Beside name (passOf s program (n + 1)) (passOf s program (n + 1)) :=
      ⟨rfl, ⟨none, fun _ _ => rfl, absent, absent⟩, table_named s program n⟩
    obtain ⟨_, -, walk⟩ := (mirrors_beside pass 0).step_steps.2 program free ⟨none, by simp, start_beside fresh⟩
      (near (n + 1) n.succ_pos (Nat.le_refl _))
    rw [table_succ, Ledger.freeze_get?]
    exact congrArg (Option.map _) walk.ledger.symbols.absent

/-- The result of a pass over the second program, against that of a pass over the first one which has the same
    symbols and code as the pass of the same number. -/
theorem final_extends {m n : Nat} (near : Near s program m) (near' : Near s program n)
    (agree : ∀ other, (table s program n).agreeOn (table s program m) other = true)
    (code : (walked s program n).code = (walked s program m).code)
    (severities : Diagnostics.severities (walked s program n).diagnostics.toList =
      Diagnostics.severities (walked s program m).diagnostics.toList)
    (reports : found'.severities = found.severities) (more : n ≤ m + 1) (fewer : m ≤ n + 1) :
    Result.Extends name value
      (final m (walked s program m) (table s program m) (found ++ (walked s program m).diagnostics.toList))
      (final n (walked s program' n) (table s program' n) (found' ++ (walked s program' n).diagnostics.toList)) := by
  obtain ⟨_, -, first⟩ := table_beside unlabelled swap free fresh near.enough
  obtain ⟨entry, constant, second⟩ := table_beside unlabelled swap free fresh near'.enough
  obtain ⟨_, -, walk⟩ := walked_beside unlabelled swap free fresh near'
  have reports' : Diagnostics.severities (found' ++ (walked s program' n).diagnostics.toList) =
      Diagnostics.severities (found ++ (walked s program m).diagnostics.toList) := by
    rw [walk.diagnostics]
    exact Diagnostics.severities_append reports severities
  have errors := Diagnostics.errors_eq_of_severities reports'
  refine ⟨?_, walk.code.trans code, ⟨_, _, rfl, rfl, first.absent, fun other ne => ?_, ?_⟩, errors,
    Diagnostics.warnings_eq_of_severities reports', more, fewer⟩
  · simp only [Result.state, final, compileFault?, errors]
  · have same : (table s program' n).agreeOn (table s program n) other = true := by
      simp only [Table.agreeOn, Table.get?, second.others other ne]
      cases (table s program n).symbols[other]? with
      | none => rfl
      | some x => exact Symbol.sameState_iff.2 ⟨rfl, rfl, rfl⟩
    exact Table.agreeOn_iff.2 ((Table.agreeOn_iff.1 same).trans (Table.agreeOn_iff.1 (agree other)))
  · simpa only [Table.get?, second.own] using constant

omit unlabelled swap in
theorem passesOver_extends_self (room : LeavesRoom s program)
    (run : passesOver s neverCancelled found program = .finished r) (stable : r.state = .stable) :
    r.Extends name value r := by
  obtain ⟨m, e⟩ := exists_endsAt s program found
  have near : ∀ k, 0 < k → k ≤ m → (walked s program k).HasRoom := fun k pos le =>
    room k pos (Nat.le_trans le e.le) fun i ipos early => e.before i ipos (by omega)
  rw [run] at e
  obtain ⟨going, settled, -, rfl⟩ := e.ending.of_stable stable
  have absent := table_absent free fresh near
  exact ⟨rfl, rfl, ⟨_, _, rfl, rfl, absent, fun _ _ => agreeOn_iff.2 rfl, by simp [absent]⟩, rfl, rfl,
    Nat.le_succ _, Nat.le_succ _⟩

/-- **A run that is stable stays so with one more symbol**: it has the same code, and the same other symbols. -/
theorem passesOver_extends (room : LeavesRoom s program) (settles : TurnsSettle s program)
    (reports : found'.severities = found.severities) (run : passesOver s neverCancelled found program = .finished r)
    (stable : r.state = .stable) :
    ∃ r', passesOver s neverCancelled found' program' = .finished r' ∧ r.Extends name value r' := by
  obtain ⟨m, e⟩ := exists_endsAt s program found
  obtain ⟨n, e'⟩ := exists_endsAt s program' found'
  have alongside := alongside_beside unlabelled swap free fresh room
  have near := alongside.made e.pos e.le e.before
  rw [run] at e
  obtain ⟨going, settled, -, rfl⟩ := e.ending.of_stable stable
  have refl (k : Nat) (other : Text) : (table s program k).agreeOn (table s program k) other = true :=
    agreeOn_iff.2 rfl
  rcases alongside.ends (alongside.meets settles) e e' with
    ⟨rfl, tied⟩ | ⟨near', ⟨rfl, recurs⟩ | ⟨rfl, recurs⟩, -, -, going', settled'⟩
  · refine ⟨_, e'.eq_settled ((alongside.going near).2 going) ((tied going).2 settled), ?_⟩
    exact final_extends unlabelled swap free fresh near near (refl _) rfl rfl reports (by omega) (by omega)
  · have next := (recurs.settled e.pos going).1.unchanged
    refine ⟨_, e'.eq_settled going' settled', ?_⟩
    exact final_extends unlabelled swap free fresh near near' (diff_eq_nil_iff.1 next) recurs.code
      recurs.severities reports (by omega) (by omega)
  · refine ⟨_, e'.eq_settled going' settled', ?_⟩
    refine final_extends unlabelled swap free fresh near near' (fun other => ?_) recurs.code.symm
      recurs.severities.symm reports (by omega) (by omega)
    rw [agreeOn_comm]
    exact diff_eq_nil_iff.1 settled.unchanged other

end

end Assembly

end Z80Asm
