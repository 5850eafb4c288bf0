import Z80Asm.Proofs.Passes

/-!
# Variables and the ledger

An assignment is noted twice: among the variables of the pass, and in the ledger.  Only the ledger refuses it, where the
name is that of a constant.
-/

namespace Z80Asm

namespace Ledger

/-- The value of a name that is defined as a variable. -/
def assigned? (l : Ledger) (name : Text) : Option Int64 :=
  l.symbols[name]?.bind fun s => if s.defined ∧ s.scope = .assigned then some s.value else none

/-- The name is defined, and not as a variable. -/
def HoldsConstant (l : Ledger) (name : Text) : Prop :=
  ∃ s, l.symbols[name]? = some s ∧ s.defined = true ∧ s.scope ≠ .assigned

variable {l l' : Ledger} {name : Text}

theorem assigned?_eq_some_iff {value : Int64} : l.assigned? name = some value ↔
    ∃ s, l.symbols[name]? = some s ∧ s.defined = true ∧ s.scope = .assigned ∧ s.value = value := by
  simp [assigned?, Option.bind_eq_some_iff, and_assoc]

theorem assigned?_eq_none_of_not_defines (h : ¬ l.Defines name) : l.assigned? name = none :=
  Option.eq_none_iff_forall_ne_some.2 fun _ found =>
    have ⟨s, entry, defined, _⟩ := assigned?_eq_some_iff.1 found
    h ⟨s, entry, defined⟩

theorem HoldsConstant.assigned?_eq_none (h : l.HoldsConstant name) : l.assigned? name = none := by
  obtain ⟨s, entry, -, constant⟩ := h
  simp [assigned?, entry, constant]

theorem assigned?_reference (l : Ledger) (other : Text) (pos : Pos) :
    (l.reference other pos).assigned? name = l.assigned? name := by
  rw [assigned?, get?_reference]
  split
  next new => rw [assigned?, ← new.1, Std.TreeMap.getElem?_eq_none new.2]; rfl
  next => rfl

theorem assigned?_define {s : Symbol} (entered : l.define s = .ok l') :
    l'.assigned? name = if s.scope = .assigned ∧ s.name = name then some s.value else l.assigned? name := by
  by_cases own : s.name = name
  · subst own
    obtain ⟨t, entry, -, value, defined, scope⟩ := get?_of_define entered
    by_cases var : s.scope = .assigned
    · rw [if_pos ⟨var, rfl⟩]
      exact assigned?_eq_some_iff.2 ⟨t, entry, defined, scope.trans var, value⟩
    · rw [if_neg fun both => var both.1, HoldsConstant.assigned?_eq_none ⟨t, entry, defined, scope ▸ var⟩]
      rcases l.define_cases s with ⟨_, _, _, _, var', _⟩ | ⟨_, _, _, _, e⟩ | ⟨_, _, e⟩ | ⟨new, _, _⟩
      · exact absurd var' var
      · rw [e] at entered; cases entered
      · rw [e] at entered; cases entered
      · exact (assigned?_eq_none_of_not_defines new).symm
  · rw [if_neg fun both => own both.2, assigned?, assigned?, get?_of_define_ne entered own]

end Ledger

namespace Walk

/-- On the way from `w` to `v`, an assignment is refused because its name is that of a constant. -/
def Refuses (p : Pass) (w v : Walk) (name : Text) : Prop :=
  ∃ u node value, Moves p w u ∧ u.ledger.HoldsConstant name ∧ Moves p (u.define p node name value .assigned) v

variable {p : Pass} {w u v : Walk} {name : Text}

theorem Refuses.trans (h : Refuses p w u name) (moves : Moves p u v) : Refuses p w v name := by
  obtain ⟨x, node, value, before, constant, after⟩ := h
  exact ⟨x, node, value, before, constant, after.trans moves⟩

/-- The value of a refused assignment stays, and so does the constant. -/
theorem Refuses.differ (h : Refuses p w v name) : name ∈ v.vars ∧ v.ledger.assigned? name = none := by
  obtain ⟨u, node, value, -, ⟨s, entry, defined, constant⟩, after⟩ := h
  have assigned : name ∈ (u.define p node name value .assigned).vars := by
    rw [define_vars]
    exact Std.TreeMap.mem_insert_self
  refine ⟨after.mem_vars assigned, Ledger.HoldsConstant.assigned?_eq_none ⟨s, ?_, defined, constant⟩⟩
  exact Moves.constant (.head (.define node name value .assigned) after) entry defined constant

theorem eval_assigned? (w : Walk) (p : Pass) (node : Node) (e : Expr) (name : Text) :
    (w.eval p node e).2.ledger.assigned? name = w.ledger.assigned? name := by
  have noted (names : List Text) : (w.reference node.pos names).ledger.assigned? name = w.ledger.assigned? name :=
    List.foldlRecOn (motive := fun l : Ledger => l.assigned? name = w.ledger.assigned? name) names _ rfl
      fun l same other _ => (Ledger.assigned?_reference l other node.pos).trans same
  rw [eval_eq]
  split <;> exact noted _

theorem getElem?_define_vars (w : Walk) (p : Pass) (node : Node) (other : Text) (value : Int64) (scope : Scope)
    (name : Text) : (w.define p node other value scope).vars[name]? =
      if scope = .assigned ∧ other = name then some value else w.vars[name]? := by
  rw [define_vars, assign]
  by_cases var : scope = .assigned <;> by_cases own : other = name <;> simp [var, own, Std.TreeMap.getElem?_insert]

/-- A definition changes the two notes of a name alike, unless it is a refused assignment. -/
theorem define_assigned? (same : w.vars[name]? = w.ledger.assigned? name) (node : Node) (other : Text) (value : Int64)
    (scope : Scope) (going : (w.define p node other value scope).stop = none) :
    (w.define p node other value scope).vars[name]? = (w.define p node other value scope).ledger.assigned? name ∨
      (scope = .assigned ∧ other = name) ∧ w.ledger.HoldsConstant name := by
  rw [getElem?_define_vars, same]
  rcases w.define_cases p node other value scope with
    ⟨ledger, entered, e⟩ | e | ⟨⟨old, entry, taken, mixed⟩, e⟩
  · rw [e, Ledger.assigned?_define entered]
    exact .inl rfl
  · rw [e] at going
    cases going
  · by_cases assigns : scope = .assigned ∧ other = name
    · exact .inr ⟨assigns, old, assigns.2 ▸ entry, taken, fun var => mixed ⟨var, assigns.1⟩⟩
    · rw [if_neg assigns, e, fail, report, assign_ledger]
      exact .inl rfl

/-- **At every point of a pass the variables are those of the ledger**, unless an assignment has been refused. -/
theorem Moves.vars_eq (h : Moves p w v) (going : v.stop = none) (start : w.vars[name]? = w.ledger.assigned? name) :
    v.vars[name]? = v.ledger.assigned? name ∨ Refuses p w v name := by
  induction h with
  | refl => exact .inl start
  | @tail u _ moves move ih =>
    rcases ih (move.moves.stop_eq_none going) with same | refused
    · cases move with
      | report | emit | goto | measure => exact .inl same
      | breakOff => cases going
      | eval node e => exact .inl (by rw [eval_vars, eval_assigned?, same])
      | define node other value scope =>
        refine (define_assigned? same node other value scope going).imp_right ?_
        rintro ⟨⟨rfl, rfl⟩, constant⟩
        exact ⟨u, node, value, moves, constant, .refl⟩
      | list node address start => unfold list; split <;> exact .inl same
    · exact .inr (refused.trans move.moves)

theorem predefined_assigned? (s : Settings) (name : Text) : (Assembly.predefined s).assigned? name = none := by
  refine Option.eq_none_iff_forall_ne_some.2 fun value found => ?_
  obtain ⟨x, entry, -, var, -⟩ := Ledger.assigned?_eq_some_iff.1 found
  obtain ⟨_, -, rfl⟩ := Assembly.predefined_entry entry
  cases var

/-- **Variables and ledger agree on a name at every point of a pass before the label limit exactly if no assignment of it
    has been refused.**  Then a look-up reads what has been accepted alone.  A refused definition is only reported, but
    for an assignment: its name is looked up with the refused value. -/
theorem variables_agree_iff {s : Settings} (h : Moves p { ledger := Assembly.predefined s } v) (going : v.stop = none) :
    (∀ name, (∀ value, v.vars[name]? = some value → ∃ x, v.ledger.symbols[name]? = some x ∧ x.defined = true ∧
        x.scope = .assigned ∧ x.value = value) ↔ ¬ Refuses p { ledger := Assembly.predefined s } v name) ∧
    (∀ name, ¬ Refuses p { ledger := Assembly.predefined s } v name →
      (v.env p).lookup name = (v.ledger.assigned? name).or (p.prev.value? name)) ∧
    ∀ node name value scope,
      v.ledger.define { name, value, scope, pos := node.pos, seq := node.seq } = .error (.plain .labelDuplicate) →
      (scope ≠ .assigned → v.define p node name value scope = v.fail p node (.about .labelDuplicate name)) ∧
      ∀ other, ((v.define p node name value scope).env p).lookup other =
        if scope = .assigned ∧ name = other then some value else (v.env p).lookup other := by
  have same (name : Text) : v.vars[name]? = v.ledger.assigned? name ∨ Refuses p _ v name :=
    h.vars_eq going (by simp [predefined_assigned?])
  refine ⟨fun name => ⟨fun agree refused => ?_, fun kept value found => ?_⟩, fun name kept => ?_,
    fun node name value scope refused => ⟨fun constant => ?_, fun other => ?_⟩⟩
  · obtain ⟨mem, none⟩ := refused.differ
    obtain ⟨value, found⟩ := Option.isSome_iff_exists.1 (Std.TreeMap.mem_iff_isSome_getElem?.1 mem)
    rw [Ledger.assigned?_eq_some_iff.2 (agree value found)] at none
    cases none
  · exact Ledger.assigned?_eq_some_iff.1 (((same name).resolve_right kept).symm.trans found)
  · simp only [env, (same name).resolve_right kept]
  · rw [define_eq, refused, assign_of_ne _ _ _ _ constant]
    rfl
  · simp only [env, getElem?_define_vars]
    split <;> rfl

/-- A variable that is assigned twice, and a label that is assigned too. -/
def conflictSource : Text := bytes "n = 1\nn = n+1\nx: nop\nx = 5\n db x\n"

theorem variables_agree_conflict :
    let program := Assembly.programOf .bare (bytes "a.asm") conflictSource
    let p := Assembly.passOf .bare program 1
    ∃ v, Moves p { ledger := Assembly.predefined .bare } v ∧ v.stop = none ∧
      (v.env p).lookup (bytes "n") = some 2 ∧ ¬ Refuses p { ledger := Assembly.predefined .bare } v (bytes "n") ∧
      Refuses p { ledger := Assembly.predefined .bare } v (bytes "x") := by
  intro program p
  have moves : Moves p { ledger := Assembly.predefined .bare } (Assembly.walked .bare program 1) := steps_moves ..
  have going : (Assembly.walked .bare program 1).stop = none := by decide +kernel
  obtain ⟨agree, -⟩ := variables_agree_iff moves going
  refine ⟨_, moves, going, by decide +kernel, (agree _).1 fun value found => ?_, ?_⟩
  · have both : (Assembly.walked .bare program 1).vars[bytes "n"]? =
        (Assembly.walked .bare program 1).ledger.assigned? (bytes "n") := by decide +kernel
    exact Ledger.assigned?_eq_some_iff.1 (both.symm.trans found)
  · by_contra kept
    obtain ⟨x, entry, -, var, -⟩ := (agree (bytes "x")).2 kept 5 (by decide +kernel)
    have label : ((Assembly.walked .bare program 1).ledger.symbols[bytes "x"]?.map (·.scope)) = some .global := by
      decide +kernel
    rw [entry, Option.map_some, var] at label
    cases label

/-- A label whose assignment is refused, and which is read as if it were accepted. -/
theorem refused_assignment_read :
    (let v := Assembly.walked .bare (Assembly.programOf .bare (bytes "test.asm") (bytes "x: nop\nx = 5\n db x\n")) 2
     v.stop.isNone ∧ v.vars[bytes "x"]? = some 5 ∧ v.code = #[0, 5] ∧
      v.ledger.symbols[bytes "x"]?.map (fun x => (x.value, x.defined, x.scope)) = some (0, true, .global)) := by
  decide +kernel

end Walk

end Z80Asm
