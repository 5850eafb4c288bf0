import Z80Asm.Proofs.Dependencies
import Z80Asm.Proofs.EncodingSize
import Z80Asm.Proofs.Moves
import Z80Asm.Proofs.Reports

/-!
# Walks of the same shape

A program is *steady* if the values of its symbols do not decide how much code there is, nor where it
goes: no blocks, and literal addresses, counts and boundaries.  Two passes over such a program have walks
of the same shape (`SameShape`), whatever values they find: the same addresses, sizes and definitions.
The symbols have the same values as far as what they are computed from has.
-/

namespace Z80Asm

open Ledger List Cpu

variable {statement : Statement} {fault : Fault} {e : Expr} {name : Text} {w : Walk} {l : Ledger} {m : Cpu.Mnemonic}
  {args : List Arg} {rest : List Statement}

/-! ## Steady programs -/

def Expr.isLiteral (e : Expr) : Bool := e.names.isEmpty

/-- The action emits an amount of code, and goes to an address, that do not depend on symbols. -/
def Action.isSteady : Action → Bool
  | .label | .data _ _ => true
  | .instruction m args =>
    !Cpu.valueBound m (args.map (Arg.resolve fun _ => 0)) || args.all (·.expr?.all Expr.isLiteral)
  | .space e _ | .align e _ | .org e => e.isLiteral
  | .equate _ _ assigned => !assigned
  | _ => false

def Statement.isSteady : Statement → Bool
  | .act _ action => action.isSteady
  | .choose _ _ _ _ | .repeated _ _ _ => false

/-! ## Expressions -/

/-- The value of an expression depends on the values of its names and on the program counter. -/
theorem Expr.value_congr {env env' : Env} (pc : env.pc = env'.pc)
    (lookup : ∀ name ∈ e.names, env.lookup name = env'.lookup name) : e.value env = e.value env' := by
  induction e with
  | num v => rfl
  | sym name => simp only [value, lookup name (by simp [names])]
  | pc => exact pc
  | unary op x ih => simp only [value, ih lookup]
  | binary op x y x_ih y_ih =>
    simp only [names, mem_append] at lookup
    simp only [value, x_ih fun name h => lookup name (.inl h), y_ih fun name h => lookup name (.inr h)]

theorem Expr.fault?_isOrdinary {env : Env} (h : e.fault? env = some fault) : fault.IsOrdinary := by
  induction e with
  | num | pc => cases h
  | sym name =>
    simp only [fault?] at h
    split at h <;> cases h
    simp [Fault.IsOrdinary, Fault.cause?]
  | unary op x ih => exact ih h
  | binary op x y x_ih y_ih =>
    simp only [fault?, Option.or_eq_some_iff] at h
    rcases h with (h | ⟨_, h⟩) | ⟨_, h⟩
    · exact x_ih h
    · exact y_ih h
    · split at h <;> cases h
      exact .plain (by decide)

/-- A report that is not about symbols that never settle. -/
def Diagnostic.IsOrdinary (d : Diagnostic) : Prop := ∀ fault ∈ d.fault, fault.IsOrdinary

theorem SourceReport.isOrdinary {d : Diagnostic} (h : SourceReport d) : d.IsOrdinary := by
  cases h with
  | error pos h => rintro _ ⟨⟩; exact h
  | missingFile pos name reason => rintro _ ⟨⟩; simp [Fault.IsOrdinary, Fault.cause?]

/-! ## Ledgers -/

namespace Ledger

theorem defines_iff_state : l.Defines name ↔ ∃ value scope, l.state name = some (value, true, scope) := by
  unfold Defines state
  cases l.symbols[name]? with
  | none => simp
  | some s => cases h : s.defined <;> simp [h]

/-- There is no room for another definition. -/
def Full (l : Ledger) : Prop := l.limit ≤ l.defined

section
variable (l : Ledger) (names : List Text) (pos : Pos)

theorem references_limit : (names.foldl (·.reference · pos) l).limit = l.limit := by
  induction names generalizing l with
  | nil => rfl
  | cons name rest ih =>
    rw [foldl_cons, ih]
    unfold reference; split <;> rfl

theorem references_defined : (names.foldl (·.reference · pos) l).defined = l.defined := by
  induction names generalizing l with
  | nil => rfl
  | cons name rest ih =>
    rw [foldl_cons, ih]
    unfold reference; split <;> rfl

theorem references_state (name : Text) :
    (names.foldl (·.reference · pos) l).state name =
      (l.state name).or (if name ∈ names then some (0, false, .ofName name) else none) := by
  induction names generalizing l with
  | nil => simp
  | cons other rest ih =>
    rw [foldl_cons, ih]
    have head : (l.reference other pos).state name =
        (l.state name).or (if name = other then some (0, false, .ofName name) else none) := by
      unfold state
      rw [get?_reference]
      by_cases same : other = name
      · subst same
        cases entry : l.symbols[other]? with
        | none =>
          have absent : other ∉ l.symbols := by
            rw [Std.TreeMap.mem_iff_isSome_getElem?, entry]; simp
          simp [absent]
        | some s =>
          have present : other ∈ l.symbols := by
            rw [Std.TreeMap.mem_iff_isSome_getElem?, entry]; rfl
          simp [present]
      · simp [same, Ne.symm same]
    rw [head]
    by_cases same : name = other
    · subst same
      cases l.state name <;> simp
    · simp [same]

theorem references_defines (name : Text) : (names.foldl (·.reference · pos) l).Defines name ↔ l.Defines name := by
  rw [defines_iff_state, defines_iff_state, references_state]
  cases l.state name with
  | none => split <;> simp
  | some state => simp

end

theorem define_of_room {s : Symbol} (new : ¬ l.Defines s.name) (room : ¬ l.Full) :
    ∃ l', l.define s = .ok l' ∧ l'.limit = l.limit ∧ l'.defined = l.defined + 1 ∧
      ∀ other, l'.state other = if s.name = other then some (s.value, true, s.scope) else l.state other := by
  rcases l.define_cases s with ⟨old, h, d, _⟩ | ⟨old, h, d, _⟩ | ⟨_, full, _⟩ | ⟨_, _, e⟩
  · exact absurd ⟨old, h, d⟩ new
  · exact absurd ⟨old, h, d⟩ new
  · exact absurd full room
  · refine ⟨_, e, rfl, rfl, fun other => ?_⟩
    by_cases same : s.name = other
    · subst same
      simp [state]
    · simp [state, Std.TreeMap.getElem?_insert, same]

end Ledger

namespace Walk

/-! ## Definitions of constants -/

section
variable (p : Pass) (node : Node) (value : Int64) {scope : Scope} (constant : scope ≠ .assigned)
include constant

theorem define_of_defines (h : w.ledger.Defines name) :
    w.define p node name value scope = w.fail p node (.about .labelDuplicate name) := by
  obtain ⟨old, entry, defined⟩ := h
  rw [define_eq, assign_of_ne _ _ _ _ constant]
  rcases w.ledger.define_cases { name, value, scope, pos := node.pos, seq := node.seq } with
    ⟨_, _, _, _, var, _⟩ | ⟨_, _, _, _, e⟩ | ⟨new, _, _⟩ | ⟨new, _, _⟩
  · exact absurd var constant
  · rw [e]; rfl
  · exact absurd ⟨old, entry, defined⟩ new
  · exact absurd ⟨old, entry, defined⟩ new

theorem define_of_full (new : ¬ w.ledger.Defines name) (full : w.ledger.Full) :
    w.define p node name value scope = { w with
      stop := some (.limit (.of .fatal node.pos p.index (.symbolLimit w.ledger.limit))) } := by
  rw [define_eq, assign_of_ne _ _ _ _ constant]
  rcases w.ledger.define_cases { name, value, scope, pos := node.pos, seq := node.seq } with
    ⟨old, h, d, _⟩ | ⟨old, h, d, _⟩ | ⟨_, _, e⟩ | ⟨_, room, _⟩
  · exact absurd ⟨old, h, d⟩ new
  · exact absurd ⟨old, h, d⟩ new
  · rw [e]; rfl
  · exact absurd full (Int.not_le.mpr room)

theorem define_of_room (new : ¬ w.ledger.Defines name) (room : ¬ w.ledger.Full) :
    ∃ ledger, w.define p node name value scope = { w with ledger } ∧
      ledger.limit = w.ledger.limit ∧ ledger.defined = w.ledger.defined + 1 ∧
      ∀ other, ledger.state other = if name = other then some (value, true, scope) else w.ledger.state other := by
  obtain ⟨ledger, e, rest⟩ := Ledger.define_of_room
    (s := { name, value, scope, pos := node.pos, seq := node.seq }) new room
  refine ⟨ledger, ?_, rest⟩
  rw [define_eq, assign_of_ne _ _ _ _ constant, e]

/-- After its definition a constant is defined, or there was no room for it. -/
theorem define_defines_or_full :
    (w.define p node name value scope).ledger.Defines name ∨
      (w.define p node name value scope).stop.isSome ∧ (w.define p node name value scope).ledger.Full := by
  by_cases known : w.ledger.Defines name
  · rw [define_of_defines p node value constant known]
    exact .inl known
  by_cases full : w.ledger.Full
  · rw [define_of_full p node value constant known full]
    exact .inr ⟨rfl, full⟩
  · obtain ⟨ledger, e, _, _, state⟩ := define_of_room p node value constant known full
    rw [e]
    exact .inl (defines_iff_state.2 ⟨value, scope, by simp [state]⟩)

end

theorem defineLabel_defines_or_full (p : Pass) {node : Node} (label : node.label = some name) :
    (w.defineLabel p node).ledger.Defines name ∨
      (w.defineLabel p node).stop.isSome ∧ (w.defineLabel p node).ledger.Full := by
  simp only [Walk.defineLabel, label]
  exact define_defines_or_full p node w.pc (Scope.ofName_ne_assigned name)

theorem eval_limit (w : Walk) (p : Pass) (node : Node) (e : Expr) :
    (w.eval p node e).2.ledger.limit = w.ledger.limit := by
  rw [eval_eq]
  split <;> exact references_limit _ _ _

theorem eval_defined (w : Walk) (p : Pass) (node : Node) (e : Expr) :
    (w.eval p node e).2.ledger.defined = w.ledger.defined := by
  rw [eval_eq]
  split <;> exact references_defined _ _ _

/-! ## The relation -/

/-- Nothing has happened that a steady program does not do. -/
structure Orderly (w : Walk) : Prop where
  vars : w.vars = ∅
  stop : w.stop ≠ some .outOfBounds
  reports : ∀ d ∈ w.diagnostics.toList, d.IsOrdinary

/-- Two walks of the same shape.  The names `never` are those that nothing defines, and the names
    `settled` those whose values do not differ. -/
structure SameShape (never settled : Text → Prop) (w v : Walk) : Prop where
  left : w.Orderly
  right : v.Orderly
  pc : w.pc = v.pc
  size : w.code.size = v.code.size
  sizes : w.sizes = v.sizes
  stop : w.stop.isSome = v.stop.isSome
  limit : w.ledger.limit = v.ledger.limit
  defined : w.ledger.defined = v.ledger.defined
  defines : ∀ name, w.ledger.Defines name ↔ v.ledger.Defines name
  undefined : ∀ name, never name → ¬ w.ledger.Defines name
  unknown : ∀ name, never name → w.ledger.state name = v.ledger.state name
  known : ∀ name, settled name → w.ledger.Defines name → w.ledger.state name = v.ledger.state name

/-- Two passes find the same values for the names `readable`, and none for the names `never`. -/
structure SameReads (never readable : Text → Prop) (p q : Pass) : Prop where
  values : ∀ name, readable name → p.prev.value? name = q.prev.value? name
  left : ∀ name, never name → p.prev.value? name = none
  right : ∀ name, never name → q.prev.value? name = none

theorem Orderly.report (h : w.Orderly) (p : Pass) (node : Node) (severity : Severity) (ordinary : fault.IsOrdinary) :
    (w.report p node severity fault).Orderly where
  vars := h.vars
  stop := h.stop
  reports d hd := by
    simp only [Walk.report, Array.toList_push, mem_append, mem_singleton] at hd
    rcases hd with hd | rfl
    · exact h.reports d hd
    · rintro _ ⟨⟩; exact ordinary

theorem Orderly.lookup (h : w.Orderly) (p : Pass) (name : Text) : (w.env p).lookup name = p.prev.value? name := by
  simp [env, h.vars]

namespace SameShape
variable {never settled readable : Text → Prop} {p q : Pass} {v : Walk}

theorem symm (h : SameShape never settled w v) : SameShape never settled v w where
  left := h.right
  right := h.left
  pc := h.pc.symm
  size := h.size.symm
  sizes := h.sizes.symm
  stop := h.stop.symm
  limit := h.limit.symm
  defined := h.defined.symm
  defines name := (h.defines name).symm
  undefined name fresh := mt (h.defines name).2 (h.undefined name fresh)
  unknown name fresh := (h.unknown name fresh).symm
  known name fixed defines := (h.known name fixed ((h.defines name).2 defines)).symm

/-! ## Moves that keep the shape -/

section
variable (h : SameShape never settled w v)
include h

theorem report_left (p : Pass) (node : Node) (severity : Severity) (ordinary : fault.IsOrdinary) :
    SameShape never settled (w.report p node severity fault) v :=
  { h with left := h.left.report p node severity ordinary }

theorem report_right (q : Pass) (node : Node) (severity : Severity) (ordinary : fault.IsOrdinary) :
    SameShape never settled w (v.report q node severity fault) :=
  (h.symm.report_left q node severity ordinary).symm

theorem misfitWith (p q : Pass) (node : Node) (m m' : Option Misfit) :
    SameShape never settled (w.misfitWith p node m) (v.misfitWith q node m') := by
  have ordinary : ∀ m, (Fault.misfit m).IsOrdinary := by simp [Fault.IsOrdinary, Fault.cause?]
  have left : SameShape never settled (w.misfitWith p node m) v := by
    cases m with
    | none => exact h
    | some m => exact h.report_left p node _ (ordinary m)
  cases m' with
  | none => exact left
  | some m => exact left.report_right q node _ (ordinary m)

theorem emit {code code' : List UInt8}
    (length : code.length = code'.length) : SameShape never settled (w.emit code) (v.emit code') :=
  { h with
    left := ⟨h.left.vars, h.left.stop, h.left.reports⟩
    right := ⟨h.right.vars, h.right.stop, h.right.reports⟩
    pc := by simp only [Walk.emit, h.pc, length]
    size := by
      simp only [Walk.emit, ← Array.length_toList, Array.toList_appendList, length_append, length]
      simp [h.size] }

theorem goto (pc : Int64) : SameShape never settled { w with pc } { v with pc } :=
  { h with
    left := ⟨h.left.vars, h.left.stop, h.left.reports⟩
    right := ⟨h.right.vars, h.right.stop, h.right.reports⟩
    pc := rfl }

theorem measure {start start' : Nat} (same : start = start') :
    SameShape never settled (w.measure start) (v.measure start') :=
  { h with
    left := ⟨h.left.vars, h.left.stop, h.left.reports⟩
    right := ⟨h.right.vars, h.right.stop, h.right.reports⟩
    sizes := by simp only [Walk.measure, h.sizes, h.size, same] }

theorem list_left (p : Pass) (node : Node) (address : Int64)
    (start : Nat) : SameShape never settled (w.list p node address start) v := by
  unfold Walk.list
  split
  · exact { h with left := ⟨h.left.vars, h.left.stop, h.left.reports⟩ }
  · exact h

theorem list (p q : Pass) (node : Node) (address address' : Int64) (start start' : Nat) :
    SameShape never settled (w.list p node address start) (v.list q node address' start') :=
  ((h.list_left p node address start).symm.list_left q node address' start').symm

/-- Noting names keeps the shape, if both walks note the same of the names that nothing defines. -/
theorem reference (pos : Pos) (names names' : List Text)
    (same : ∀ name, never name → (name ∈ names ↔ name ∈ names')) :
    SameShape never settled (w.reference pos names) (v.reference pos names') :=
  { h with
    left := ⟨h.left.vars, h.left.stop, h.left.reports⟩
    right := ⟨h.right.vars, h.right.stop, h.right.reports⟩
    limit := by
      simp only [Walk.reference, references_limit]; exact h.limit
    defined := by
      simp only [Walk.reference, references_defined]; exact h.defined
    defines := fun name => by
      simp only [Walk.reference, references_defines]; exact h.defines name
    undefined := fun name fresh => by
      simp only [Walk.reference, references_defines]; exact h.undefined name fresh
    unknown := fun name fresh => by
      simp only [Walk.reference, references_state, h.unknown name fresh, same name fresh]
    known := fun name fixed defines => by
      simp only [Walk.reference, references_defines] at defines
      obtain ⟨value, scope, state⟩ := defines_iff_state.1 defines
      simp only [Walk.reference, references_state, ← h.known name fixed defines, state, Option.some_or] }

theorem eval (reads : SameReads never readable p q) (node : Node)
    (e : Expr) : SameShape never settled (w.eval p node e).2 (v.eval q node e).2 := by
  have noted := h.reference node.pos (e.names.filter fun name => ((w.env p).lookup name).isNone)
    (e.names.filter fun name => ((v.env q).lookup name).isNone) fun name fresh => by
      simp [h.left.lookup, h.right.lookup, reads.left name fresh, reads.right name fresh]
  have left : SameShape never settled (w.eval p node e).2 (v.reference node.pos (e.names.filter
      fun name => ((v.env q).lookup name).isNone)) := by
    rw [eval_eq]
    split
    next fault => exact noted.report_left p node .error (Expr.fault?_isOrdinary fault)
    next => exact noted
  rw [eval_eq v]
  split
  next fault => exact left.report_right q node .error (Expr.fault?_isOrdinary fault)
  next => exact left

theorem eval_fst (reads : SameReads never readable p q) (node : Node) (names : ∀ name ∈ e.names, readable name) :
    (w.eval p node e).1 = (v.eval q node e).1 :=
  Expr.value_congr h.pc fun name hname => by
    rw [h.left.lookup, h.right.lookup, reads.values name (names name hname)]

/-- A definition keeps the shape, unless it is accepted with two values for a settled name. -/
theorem define (p q : Pass) (node : Node) {value value' : Int64} {scope : Scope} (constant : scope ≠ .assigned)
    (defined : ¬ never name) (same : settled name → w.ledger.Defines name ∨ w.ledger.Full ∨ value = value') :
    SameShape never settled (w.define p node name value scope) (v.define q node name value' scope) := by
  by_cases known : w.ledger.Defines name
  · rw [define_of_defines p node value constant known,
      define_of_defines q node value' constant ((h.defines name).1 known)]
    exact (h.report_left p node .error (.about (by decide) name)).report_right q node .error (.about (by decide) name)
  have known' := mt (h.defines name).2 known
  by_cases full : w.ledger.Full
  · have full' : v.ledger.Full := by
      unfold Full
      rw [← h.limit, ← h.defined]; exact full
    rw [define_of_full p node value constant known full, define_of_full q node value' constant known' full']
    exact { h with
      left := ⟨h.left.vars, by simp, h.left.reports⟩
      right := ⟨h.right.vars, by simp, h.right.reports⟩
      stop := rfl }
  · have full' : ¬ v.ledger.Full := by
      unfold Full
      rw [← h.limit, ← h.defined]; exact full
    obtain ⟨l, e, limit, count, state⟩ := define_of_room p node value constant known full
    obtain ⟨l', e', limit', count', state'⟩ := define_of_room q node value' constant known' full'
    have defines : ∀ other, l.Defines other ↔ name = other ∨ w.ledger.Defines other := by
      intro other
      rw [defines_iff_state, defines_iff_state, state]
      by_cases other_name : name = other <;> simp [other_name]
    have defines' : ∀ other, l'.Defines other ↔ name = other ∨ v.ledger.Defines other := by
      intro other
      rw [defines_iff_state, defines_iff_state, state']
      by_cases other_name : name = other <;> simp [other_name]
    rw [e, e']
    exact { h with
      left := ⟨h.left.vars, h.left.stop, h.left.reports⟩
      right := ⟨h.right.vars, h.right.stop, h.right.reports⟩
      limit := by rw [limit, limit', h.limit]
      defined := by rw [count, count', h.defined]
      defines := fun other => by rw [defines, defines', h.defines]
      undefined := fun other fresh => by
        rw [defines]
        rintro (rfl | there)
        · exact defined fresh
        · exact h.undefined other fresh there
      unknown := fun other fresh => by
        have ne : name ≠ other := by rintro rfl; exact defined fresh
        simp only [state, state', if_neg ne, h.unknown other fresh]
      known := fun other fixed there => by
        rw [state, state']
        by_cases other_name : name = other
        · subst other_name
          rcases same fixed with there | there | there
          · exact absurd there known
          · exact absurd there full
          · rw [if_pos rfl, if_pos rfl, there]
        · have before := ((defines other).1 there).resolve_left other_name
          rw [if_neg other_name, if_neg other_name, h.known other fixed before] }

end

/-! ## Actions that keep the shape -/

theorem defineLabel (h : SameShape never settled w v) (p q : Pass) (node : Node)
    (defined : ∀ name, node.label = some name → ¬ never name) :
    SameShape never settled (w.defineLabel p node) (v.defineLabel q node) := by
  unfold Walk.defineLabel
  split
  next name label =>
    exact h.define p q node (Scope.ofName_ne_assigned name) (defined name label) fun _ =>
      .inr (.inr h.pc)
  next => exact h

theorem length_littleEndian : ∀ (n : Nat) (value : Int64), (littleEndian n value).length = n
  | 0, _ => rfl
  | n + 1, value => congrArg (· + 1) (length_littleEndian n (value >>> 8))

theorem items (reads : SameReads never readable p q) (node : Node) (width : Width) :
    ∀ (items : List Item) {w v : Walk}, SameShape never settled w v →
      SameShape never settled (items.foldl (·.emitItem p node width ·) w) (items.foldl (·.emitItem q node width ·) v)
  | [], _, _, h => h
  | .bytes _ :: rest, _, _, h => items reads node width rest (h.emit rfl)
  | .value e :: rest, _, _, h =>
    items reads node width rest (((h.eval reads node e).misfitWith p q node _ _).emit (by
      rw [length_littleEndian, length_littleEndian]))

theorem reserve (h : SameShape never settled w v) (reads : SameReads never readable p q) (node : Node)
    (misfit : Option Misfit) (count : Int64) (fill : Option Expr) :
    SameShape never settled (w.reserve p node misfit count fill) (v.reserve q node misfit count fill) := by
  cases misfit with
  | some m => exact h.misfitWith p q node (some m) (some m)
  | none =>
    simp only [Walk.reserve, emitFill_eq]
    cases fill with
    | none => exact h.emit (by simp)
    | some e => exact ((h.eval reads node e).misfitWith p q node _ _).emit (by simp)

theorem operands (reads : SameReads never readable p q) (node : Node) :
    ∀ (args : List Arg) {w v : Walk}, SameShape never settled w v →
      SameShape never settled (w.operands p node args).2 (v.operands q node args).2
  | [], _, _, h => h
  | arg :: rest, w, v, h => by
    simp only [Walk.operands]
    cases arg.expr? with
    | none => exact operands reads node rest h
    | some e => exact operands reads node rest (h.eval reads node e)

end SameShape

theorem operands_fst (p : Pass) (node : Node) : ∀ (args : List Arg) (w : Walk),
    (w.operands p node args).1 = args.map (Arg.resolve (·.value (w.env p)))
  | [], _ => rfl
  | arg :: rest, w => by
    simp only [operands, map_cons]
    cases arg.expr? with
    | none => rw [operands_fst p node rest w]
    | some e =>
      have env : (w.eval p node e).2.env p = w.env p := by simp [Walk.env]
      rw [operands_fst p node rest _, env]

end Walk

theorem map_erase_resolve (args : List Arg) (f g : Expr → Int64) :
    (args.map (Arg.resolve f)).map Operand.erase = (args.map (Arg.resolve g)).map Operand.erase := by
  simp only [map_map]
  refine map_congr_left fun arg _ => ?_
  cases arg <;> rfl

namespace Walk
namespace SameShape
variable {never settled readable : Text → Prop} {p q : Pass} {v : Walk}

theorem length_encode (h : SameShape never settled w v) (steady : (Action.instruction m args).isSteady = true)
    {pc pc' : Int64} (same : pc = pc') :
    (encode m pc (args.map (Arg.resolve (·.value (w.env p))))).map (·.code.length) =
      (encode m pc' (args.map (Arg.resolve (·.value (v.env q))))).map (·.code.length) := by
  simp only [Action.isSteady, Bool.or_eq_true, Bool.not_eq_true', all_eq_true,
    Option.all_eq_true, Expr.isLiteral, List.isEmpty_iff] at steady
  rcases steady with free | literal
  · refine length_encode_eq pc pc' (map_erase_resolve args _ _) ?_
    rw [← valueBound_erase, map_erase_resolve args _ fun _ => 0, valueBound_erase, free]
  · have ops : args.map (Arg.resolve (·.value (w.env p))) = args.map (Arg.resolve (·.value (v.env q))) := by
      refine map_congr_left fun arg harg => ?_
      have value : ∀ e ∈ arg.expr?, e.value (w.env p) = e.value (v.env q) := fun e he =>
        Expr.value_congr h.pc (by simp [literal arg harg e he])
      cases arg with
      | reg | ind | cond => rfl
      | imm e | mem e | idx _ e => simp only [Arg.resolve, value e rfl]
    rw [ops, same]

theorem emitInstruction (h : SameShape never settled w v) (reads : SameReads never readable p q) (node : Node)
    (steady : (Action.instruction m args).isSteady = true) :
    SameShape never settled (w.emitInstruction p node m args) (v.emitInstruction q node m args) := by
  have walks := operands reads node args h
  have lengths := h.length_encode (p := p) (q := q) steady walks.pc
  have ordinary : ∀ ops (cause : OperandCause), (Fault.operands m.name ops cause.fault).IsOrdinary := by
    intro ops cause
    cases cause <;> exact fun e => by cases e
  simp only [Walk.emitInstruction, operands_fst]
  revert lengths
  cases encode m (w.operands p node args).2.pc (args.map (Arg.resolve (·.value (w.env p)))) with
  | error cause =>
    cases encode m (v.operands q node args).2.pc (args.map (Arg.resolve (·.value (v.env q)))) with
    | error cause' =>
      intro _
      exact (walks.report_left p node .error (ordinary _ cause)).report_right q node .error (ordinary _ cause')
    | ok => rintro ⟨⟩
  | ok encoded =>
    cases encode m (v.operands q node args).2.pc (args.map (Arg.resolve (·.value (v.env q)))) with
    | error => rintro ⟨⟩
    | ok encoded' =>
      intro lengths
      exact (walks.misfitWith p q node _ _).emit (Except.ok.inj lengths)

theorem act (h : SameShape never settled w v) (reads : SameReads never readable p q) (node : Node)
    {action : Action} (steady : action.isSteady = true)
    (equates : ∀ name value assigned, action = .equate name value assigned → ¬ never name ∧
      (settled name → w.ledger.Defines name ∨ w.ledger.Full ∨ ∀ x ∈ value.names, readable x)) :
    SameShape never settled (w.act p node action) (v.act q node action) := by
  have literal : ∀ e : Expr, e.isLiteral = true → (w.eval p node e).1 = (v.eval q node e).1 := by
    intro e he
    refine h.eval_fst reads node ?_
    simp [List.isEmpty_iff.1 he]
  cases action with
  | label => exact h
  | data width list => exact items reads node width list h
  | instruction m args => exact h.emitInstruction reads node steady
  | space count fill =>
    rw [act_space, act_space, literal count steady]
    exact (h.eval reads node count).reserve reads node _ _ fill
  | align boundary fill =>
    rw [act_align, act_align, literal boundary steady, (h.eval reads node boundary).pc]
    exact (h.eval reads node boundary).reserve reads node _ _ fill
  | org address =>
    change SameShape never settled { (w.eval p node address).2 with pc := (w.eval p node address).1 }
      { (v.eval q node address).2 with pc := (v.eval q node address).1 }
    rw [literal address steady]
    exact (h.eval reads node address).goto _
  | equate name value assigned =>
    obtain ⟨defined, same⟩ := equates name value assigned rfl
    cases assigned with
    | true => cases steady
    | false =>
      refine (h.eval reads node value).define p q node (Scope.ofName_ne_assigned name) defined ?_
      intro fixed
      rcases same fixed with known | full | names
      · exact .inl ((Move.eval node value).moves.defines known)
      · exact .inr (.inl (by rwa [Full, eval_limit, eval_defined]))
      · exact .inr (.inr (h.eval_fst reads node names))
  | bad | incbin | assert | message | script => cases steady

end SameShape

/-! ## Whole programs -/

theorem defines_of_step {p : Pass} (h : (statement.defines? name).isSome) (going : (step p statement w).stop = none) :
    (step p statement w).ledger.Defines name := by
  cases statement with
  | choose | repeated => cases h
  | act node action =>
    rw [step_act] at going ⊢
    have listed : Moves p ((w.defineLabel p node).act p node action) _ :=
      (Move.list node w.pc w.code.size).moves.trans (Move.measure w.code.size).moves
    have acted := act_moves (w.defineLabel p node) p node action
    refine listed.defines ?_
    have going := listed.stop_eq_none going
    rcases Statement.isSome_defines?_act.1 h with label | ⟨value, rfl⟩
    · refine acted.defines ?_
      rcases defineLabel_defines_or_full p label (w := w) with defines | ⟨stopped, _⟩
      · exact defines
      · simp [acted.stop_eq_none going] at stopped
    · rw [act_equate] at going ⊢
      rcases define_defines_or_full p node _ (Scope.ofName_ne_assigned name) with
        defines | ⟨stopped, _⟩
      · exact defines
      · simp [going] at stopped

theorem defines_of_steps {p : Pass} {program : List Statement}
    (h : ∃ statement ∈ program, (statement.defines? name).isSome) (going : (steps p program w).stop = none) :
    (steps p program w).ledger.Defines name := by
  induction program generalizing w with
  | nil => simp at h
  | cons statement rest ih =>
    have now := (steps_moves p (statement :: rest) w).stop_eq_none going
    rw [steps_cons_of_none now] at going ⊢
    have after := steps_moves p rest (step p statement w)
    obtain ⟨t, ht, defines⟩ := h
    rcases mem_cons.1 ht with rfl | ht
    · exact after.defines (defines_of_step defines (after.stop_eq_none going))
    · exact ih ⟨t, ht, defines⟩ going

/-- What is left of a program defines no name of `never`, and defines the names of `settled` by
    readable names, unless they are defined already. -/
structure Ready (never settled readable : Text → Prop) (rest : List Statement) (l : Ledger) :
    Prop where
  fresh : ∀ statement ∈ rest, ∀ name, (statement.defines? name).isSome → ¬ never name
  based : ∀ name, settled name → l.Defines name ∨
    ∀ names ∈ rest.findSome? (Statement.defines? name), ∀ x ∈ names, readable x

section
variable {never settled readable : Text → Prop} {p q : Pass} {v : Walk}

theorem Ready.step (ready : Ready never settled readable (statement :: rest) w.ledger)
    (going : (step p statement w).stop = none) :
    Ready never settled readable rest (step p statement w).ledger where
  fresh t ht := ready.fresh t (mem_cons_of_mem _ ht)
  based name fixed := by
    rcases ready.based name fixed with known | based
    · exact .inl ((step_moves p statement w).defines known)
    · cases defines : statement.defines? name with
      | some names => exact .inl (defines_of_step (by simp [defines]) going)
      | none =>
        simpa [defines] using Or.inr based

theorem SameShape.step (h : SameShape never settled w v) (reads : SameReads never readable p q)
    (steady : statement.isSteady = true) (ready : Ready never settled readable (statement :: rest) w.ledger) :
    SameShape never settled (step p statement w) (step q statement v) := by
  cases statement with
  | choose | repeated => cases steady
  | act node action =>
    have fresh := ready.fresh _ mem_cons_self
    have labelled := h.defineLabel p q node fun name label =>
      fresh name (Statement.isSome_defines?_act.2 (.inl label))
    rw [step_act, step_act]
    refine ((labelled.act reads node steady ?_).list p q node _ _ _ _).measure h.size
    rintro name value assigned rfl
    obtain rfl : assigned = false := by simpa [Statement.isSteady, Action.isSteady] using steady
    refine ⟨fresh name (Statement.isSome_defines?_act.2 (.inr ⟨value, rfl⟩)), fun fixed => ?_⟩
    rcases ready.based name fixed with known | based
    · exact .inl ((defineLabel_moves w p node).defines known)
    by_cases label : node.label = some name
    · rcases defineLabel_defines_or_full p label (w := w) with defines | ⟨_, full⟩
      · exact .inl defines
      · exact .inr (.inl full)
    · refine .inr (.inr (based _ ?_))
      simp [Statement.defines?, label]

/-- **Walks keep the same shape** over a steady program. -/
theorem SameShape.steps (reads : SameReads never readable p q) :
    ∀ {program : List Statement} {w v : Walk}, SameShape never settled w v →
      (∀ statement ∈ program, statement.isSteady = true) →
      Ready never settled readable program w.ledger →
      SameShape never settled (steps p program w) (steps q program v)
  | [], _, _, h, _, _ => h
  | statement :: rest, w, v, h, steady, ready => by
    cases going : w.stop with
    | some stop =>
      have stopped : w.stop.isSome = true := by simp [going]
      rw [steps_of_stop stopped, steps_of_stop (h.stop ▸ stopped)]
      exact h
    | none =>
      have going' : v.stop = none := by simpa [going] using h.stop.symm
      rw [steps_cons_of_none going, steps_cons_of_none going']
      have next := h.step reads (steady statement mem_cons_self) ready
      cases after : (Walk.step p statement w).stop with
      | none =>
        exact SameShape.steps reads next (fun t ht => steady t (mem_cons_of_mem _ ht)) (ready.step after)
      | some stop =>
        have stopped : (Walk.step p statement w).stop.isSome = true := by simp [after]
        rw [steps_of_stop stopped, steps_of_stop (next.stop ▸ stopped)]
        exact next

end

end Walk

end Z80Asm
