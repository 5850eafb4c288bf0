import Z80Asm.Proofs.Moves

/-!
# Actions in related walks

An action that defines nothing evaluates expressions, reports what is wrong, emits code and moves on.  A relation of
walks that these keep is kept by every such action, also if its expressions are replaced by others of the same value.
-/

namespace Z80Asm

def Arg.map (f : Expr → Expr) : Arg → Arg
  | imm e => imm (f e)
  | mem e => mem (f e)
  | idx rr e => idx rr (f e)
  | arg => arg

def Item.map (f : Expr → Expr) : Item → Item
  | bytes text => bytes text
  | value e => value (f e)

namespace Action

def defines : Action → Bool
  | equate _ _ _ | script _ => true
  | _ => false

def exprs : Action → List Expr
  | label | bad _ | message _ | script _ => []
  | instruction _ args => args.filterMap Arg.expr?
  | data _ items => items.filterMap fun
    | .bytes _ => none
    | .value e => some e
  | space e fill | align e fill => e :: fill.toList
  | org e | assert e | equate _ e _ => [e]
  | incbin _ _ offset length => offset.toList ++ length.toList

/-- The action with other expressions, if it defines nothing. -/
def map (f : Expr → Expr) : Action → Action
  | instruction m args => instruction m (args.map (·.map f))
  | data width items => data width (items.map (·.map f))
  | space e fill => space (f e) (fill.map f)
  | align e fill => align (f e) (fill.map f)
  | org e => org (f e)
  | incbin name bytes offset length => incbin name bytes (offset.map f) (length.map f)
  | assert e => assert (f e)
  | action => action

theorem map_id (action : Action) : action.map id = action := by
  have arg : Arg.map id = id := funext fun arg => by cases arg <;> rfl
  have item : Item.map id = id := funext fun item => by cases item <;> rfl
  cases action <;> simp [map, arg, item]

end Action

/-- A relation of walks that is kept by what actions are made of.  Expressions that the second walk reads in the place
    of others have the same values. -/
structure Walk.Congruence (rel : Walk → Walk → Prop) (f : Expr → Expr) (reads : Expr → Prop) (p p' : Pass)
    (node node' : Node) : Prop where
  pc : ∀ {w w'}, rel w w' → w'.pc = w.pc
  emit : ∀ {w w'} (code : List UInt8), rel w w' → rel (w.emit code) (w'.emit code)
  report : ∀ {w w'} (severity : Severity) (fault : Fault), rel w w' →
    rel (w.report p node severity fault) (w'.report p' node' severity fault)
  assertion : ∀ {w w'}, rel w w' →
    rel (w.fail p node (.about .assertion node.text)) (w'.fail p' node' (.about .assertion node'.text))
  eval : ∀ {w w' e}, reads e → rel w w' →
    (w'.eval p' node' (f e)).1 = (w.eval p node e).1 ∧ rel (w.eval p node e).2 (w'.eval p' node' (f e)).2

namespace Walk.Congruence
variable {rel : Walk → Walk → Prop} {f : Expr → Expr} {reads : Expr → Prop} {p p' : Pass} {node node' : Node}
  {w w' : Walk} (c : Congruence rel f reads p p' node node')
include c

theorem misfitWith (h : rel w w') : ∀ m, rel (w.misfitWith p node m) (w'.misfitWith p' node' m)
  | none => h
  | some m => c.report _ (.misfit m) h

theorem evalOption (h : rel w w') (missing : Int64) : ∀ {e : Option Expr}, (∀ x ∈ e.toList, reads x) →
    (w'.evalOption p' node' missing (e.map f)).1 = (w.evalOption p node missing e).1 ∧
      rel (w.evalOption p node missing e).2 (w'.evalOption p' node' missing (e.map f)).2
  | none, _ => ⟨rfl, h⟩
  | some e, read => c.eval (read e (by simp)) h

theorem items (width : Width) : ∀ items : List Item, (∀ e ∈ (Action.data width items).exprs, reads e) →
    ∀ {w w' : Walk}, rel w w' →
      rel (items.foldl (·.emitItem p node width ·) w) ((items.map (·.map f)).foldl (·.emitItem p' node' width ·) w')
  | [], _, _, _, h => h
  | .bytes text :: rest, read, _, _, h => items width rest read (c.emit text h)
  | .value e :: rest, read, w, w', h => by
    obtain ⟨first, others⟩ := List.forall_mem_cons.1 (read : ∀ x ∈ e :: (Action.data width rest).exprs, reads x)
    obtain ⟨value, same⟩ := c.eval first h
    simp only [List.map_cons, List.foldl_cons, Item.map, Walk.emitItem, value]
    exact items width rest others (c.emit _ (c.misfitWith same _))

theorem reserve (h : rel w w') (count : Int64) {fill : Option Expr} (read : ∀ e ∈ fill.toList, reads e) :
    ∀ misfit, rel (w.reserve p node misfit count fill) (w'.reserve p' node' misfit count (fill.map f))
  | some m => c.misfitWith h (some m)
  | none => by
    simp only [Walk.reserve, emitFill_eq]
    cases fill with
    | none => exact c.emit _ h
    | some e =>
      obtain ⟨value, same⟩ := c.eval (read e (by simp)) h
      simp only [Option.map_some, Walk.fillByte, value]
      exact c.emit _ (c.misfitWith same _)

theorem operands : ∀ args : List Arg, (∀ e ∈ args.filterMap Arg.expr?, reads e) → ∀ {w w' : Walk}, rel w w' →
    (w'.operands p' node' (args.map (·.map f))).1 = (w.operands p node args).1 ∧
      rel (w.operands p node args).2 (w'.operands p' node' (args.map (·.map f))).2
  | [], _, _, _, h => ⟨rfl, h⟩
  | arg :: rest, read, w, w', h => by
    cases arg with
    | reg | ind | cond =>
      obtain ⟨ops, same⟩ := operands rest read h
      exact ⟨congrArg (_ :: ·) ops, same⟩
    | imm e | mem e | idx rr e =>
      -- the value of an expression is that of its evaluation, which comes with the walk behind it
      obtain ⟨first, others⟩ := List.forall_mem_cons.1 (read : ∀ x ∈ e :: rest.filterMap Arg.expr?, reads x)
      have value : (f e).value (w'.env p') = e.value (w.env p) := (c.eval first h).1
      obtain ⟨ops, same⟩ := operands rest others (c.eval first h).2
      simp only [List.map_cons, Arg.map, Walk.operands, Arg.expr?, Arg.resolve, value]
      exact ⟨congrArg _ ops, same⟩

/-- **Actions that define nothing keep the relation**, if it does not matter where `org` goes on and where `incbin`
    breaks off. -/
theorem act (h : rel w w') {action : Action} (plain : action.defines = false) (read : ∀ e ∈ action.exprs, reads e)
    (goto : (∃ e, action = .org e) → ∀ {w w'} (pc : Int64), rel w w' → rel { w with pc } { w' with pc })
    (stop : (∃ name data offset length, action = .incbin name data offset length) → ∀ {w w'}, rel w w' →
      rel { w with stop := some .outOfBounds } { w' with stop := some .outOfBounds }) :
    rel (w.act p node action) (w'.act p' node' (action.map f)) := by
  cases action with
  | label => exact h
  | bad fault | message text => exact c.report _ _ h
  | instruction m args =>
    obtain ⟨ops, same⟩ := c.operands args read h
    simp only [Action.map, Walk.act, Walk.emitInstruction, ops, c.pc same]
    split
    · exact c.report _ _ same
    · exact c.emit _ (c.misfitWith same _)
  | data width items => exact c.items width items read h
  | space count fill =>
    obtain ⟨first, others⟩ := List.forall_mem_cons.1 read
    obtain ⟨value, same⟩ := c.eval first h
    rw [Action.map, act_space, act_space, value]
    exact c.reserve same _ others _
  | align boundary fill =>
    obtain ⟨first, others⟩ := List.forall_mem_cons.1 read
    obtain ⟨value, same⟩ := c.eval first h
    rw [Action.map, act_align, act_align, value, c.pc same]
    exact c.reserve same _ others _
  | org address =>
    obtain ⟨value, same⟩ := c.eval (read address (by simp [Action.exprs])) h
    simp only [Action.map, Walk.act, value]
    exact goto ⟨address, rfl⟩ _ same
  | incbin name data offset length =>
    obtain ⟨first, second⟩ := List.forall_mem_append.1 read
    obtain ⟨start, same⟩ := c.evalOption h 0 first
    simp only [Action.map, Walk.act, start]
    obtain ⟨size, same⟩ := c.evalOption same (data.length.toInt64 - (w.evalOption p node 0 offset).1) second
    simp only [size, Walk.emitPart]
    split
    · exact c.report _ _ same
    · split
      · exact stop ⟨_, _, _, _, rfl⟩ same
      · exact c.emit _ same
  | assert condition =>
    obtain ⟨value, same⟩ := c.eval (read condition (by simp [Action.exprs])) h
    rw [Action.map, act_assert, act_assert, value]
    split
    · exact c.assertion same
    · exact same
  | equate | script => cases plain

omit c in
theorem act_same (c : Congruence rel id reads p p' node node') (h : rel w w') {action : Action}
    (plain : action.defines = false) (read : ∀ e ∈ action.exprs, reads e)
    (goto : ∀ {w w'} (pc : Int64), rel w w' → rel { w with pc } { w' with pc })
    (stop : ∀ {w w'}, rel w w' → rel { w with stop := some .outOfBounds } { w' with stop := some .outOfBounds }) :
    rel (w.act p node action) (w'.act p' node' action) := by
  have acted := c.act h plain read (fun _ _ _ => goto) fun _ _ _ => stop
  rwa [Action.map_id] at acted

end Walk.Congruence

/-- A property of walks that is kept by what actions are made of. -/
structure Walk.Invariant (I : Walk → Prop) (p : Pass) (node : Node) : Prop where
  emit : ∀ {w} (code : List UInt8), I w → I (w.emit code)
  report : ∀ {w} (severity : Severity) (fault : Fault), I w → I (w.report p node severity fault)
  eval : ∀ {w} (e : Expr), I w → I (w.eval p node e).2

namespace Walk.Invariant
variable {I : Walk → Prop} {p : Pass} {node : Node} (c : Invariant I p node)
include c

theorem congruence : Congruence (fun w w' => w' = w ∧ I w) id (fun _ => True) p p node node where
  pc h := by rw [h.1]
  emit code h := ⟨by rw [h.1], c.emit code h.2⟩
  report severity fault h := ⟨by rw [h.1], c.report severity fault h.2⟩
  assertion h := ⟨by rw [h.1], c.report _ _ h.2⟩
  eval {_ _ e} _ h := ⟨by rw [h.1, id], by rw [h.1, id], c.eval e h.2⟩

theorem evalOption {w : Walk} (h : I w) (missing : Int64) (e : Option Expr) : I (w.evalOption p node missing e).2 :=
  (c.congruence.evalOption ⟨rfl, h⟩ missing (e := e) fun _ _ => trivial).2.2

/-- **Actions that define nothing keep the property**, under the same conditions. -/
theorem act {w : Walk} (h : I w) {action : Action} (plain : action.defines = false)
    (goto : (∃ e, action = .org e) → ∀ {w} (pc : Int64), I w → I { w with pc })
    (stop : (∃ name data offset length, action = .incbin name data offset length) → ∀ {w}, I w →
      I { w with stop := some .outOfBounds }) : I (w.act p node action) :=
  (c.congruence.act ⟨rfl, h⟩ plain (fun _ _ => trivial) (fun org _ _ pc h => ⟨by rw [h.1], goto org pc h.2⟩)
    fun incbin _ _ h => ⟨by rw [h.1], stop incbin h.2⟩).2

end Walk.Invariant

end Z80Asm
