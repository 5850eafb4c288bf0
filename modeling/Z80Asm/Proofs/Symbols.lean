import Std.Data.TreeMap.Lemmas
import Mathlib.Tactic.Common
import Z80Asm.Symbol

/-!
# Tables and ledgers

What the operations on tables and ledgers do, name by name.
-/

namespace Z80Asm

open Std.TreeMap

variable {l l' : Ledger} {t u : Table} {name : Text} {s : Symbol}

/-! ## States -/

theorem Symbol.sameState_iff {t : Symbol} :
    s.sameState t = true ↔ s.value = t.value ∧ s.defined = t.defined ∧ s.scope = t.scope := by
  simp [Symbol.sameState, and_assoc]

theorem Scope.ofName_ne_assigned (name : Text) : Scope.ofName name ≠ .assigned := by
  unfold Scope.ofName; split <;> simp

namespace Table

theorem agreeOn_iff :
    t.agreeOn u name = true ↔
      (t.get? name).map (fun s => (s.value, s.defined, s.scope)) =
        (u.get? name).map (fun s => (s.value, s.defined, s.scope)) := by
  unfold agreeOn
  cases t.get? name <;> cases u.get? name <;> simp [Symbol.sameState_iff]

theorem agreeOn_comm : t.agreeOn u name = u.agreeOn t name := by
  rw [Bool.eq_iff_iff, agreeOn_iff, agreeOn_iff, eq_comm]

theorem agreeOn_trans {t u v : Table} (h : u.agreeOn t name = true) (g : v.agreeOn u name = true) :
    v.agreeOn t name = true := by
  rw [agreeOn_iff] at *
  exact g.trans h

theorem nodup_diff (t u : Table) : (t.diff u).Nodup := nodup_keys.filter _

theorem mem_diff_iff : name ∈ t.diff u ↔ t.agreeOn u name = false := by
  simp only [diff, List.mem_filter, mem_keys, mem_union_iff, Bool.not_eq_true']
  refine and_iff_right_of_imp fun differ => ?_
  by_contra unknown
  rw [not_or] at unknown
  rw [agreeOn, get?, get?, getElem?_eq_none unknown.1, getElem?_eq_none unknown.2] at differ
  cases differ

theorem diff_eq_nil_iff : t.diff u = [] ↔ ∀ name, t.agreeOn u name = true := by
  simp [List.eq_nil_iff_forall_not_mem, mem_diff_iff]

theorem value?_eq_of_agreeOn (h : t.agreeOn u name = true) : t.value? name = u.value? name := by
  rw [agreeOn_iff] at h
  unfold value?
  cases ht : t.get? name <;> cases hu : u.get? name <;> simp_all

theorem value?_eq_some_iff {v : Int64} :
    t.value? name = some v ↔ ∃ s, t.get? name = some s ∧ s.defined = true ∧ s.value = v := by
  unfold value?
  cases t.get? name with
  | none => simp
  | some s => by_cases h : s.defined <;> simp [h]

theorem toList_eq_map (t : Table) : t.toList = t.symbols.toList.map (·.2) := by
  change t.symbols.inner.inner.values = (Std.DTreeMap.Internal.Impl.Const.toList t.symbols.inner.inner).map (·.2)
  rw [Std.DTreeMap.Internal.Impl.values_eq_map_snd, Std.DTreeMap.Internal.Impl.Const.toList_eq_toListModel_map]
  simp

theorem mem_toList_iff : s ∈ t.toList ↔ ∃ name, t.get? name = some s := by
  simp only [toList_eq_map, List.mem_map, Prod.exists, mem_toList_iff_getElem?_eq_some, get?]
  exact ⟨fun ⟨name, _, h, e⟩ => ⟨name, e ▸ h⟩, fun ⟨name, h⟩ => ⟨name, s, h, rfl⟩⟩

/-- Every symbol stands under its own name. -/
def Named (t : Table) : Prop := ∀ (name : Text) (s : Symbol), t.get? name = some s → s.name = name

theorem Named.definedList (h : t.Named) :
    t.definedList.map (fun s => (s.name, s.value.toInt)) =
      (t.symbols.map fun _ s => (s.value, s.defined)).toList.filterMap fun (name, value, defined) =>
        if defined then some (name, value.toInt) else none := by
  have named : ∀ e ∈ t.symbols.toList, e.2.name = e.1 := fun e he =>
    h e.1 e.2 (mem_toList_iff_getElem?_eq_some.1 he)
  rw [Table.definedList, toList_eq_map, toList_map]
  generalize t.symbols.toList = entries at named
  induction entries with
  | nil => rfl
  | cons e rest ih =>
    have := ih fun e he => named e (List.mem_cons_of_mem _ he)
    have head := named e List.mem_cons_self
    by_cases defined : e.2.defined <;> simp_all

theorem definedList_eq_of_agreeOn (ht : t.Named) (hu : u.Named) (agree : ∀ name, t.agreeOn u name = true) :
    t.definedList.map (fun s => (s.name, s.value.toInt)) = u.definedList.map fun s => (s.name, s.value.toInt) := by
  rw [ht.definedList, hu.definedList]
  refine congrArg _ (Std.TreeMap.Equiv.toList_eq (.of_forall_constGet?_eq fun name => ?_))
  have := congrArg (Option.map fun x : Int64 × Bool × Scope => (x.1, x.2.1)) (agreeOn_iff.1 (agree name))
  simpa [get?, getElem?_map, Option.map_map, Function.comp_def] using this

end Table

/-! ## Ledgers -/

namespace Ledger

def Defines (l : Ledger) (name : Text) : Prop :=
  ∃ s, l.symbols[name]? = some s ∧ s.defined = true

def state (l : Ledger) (name : Text) : Option (Int64 × Bool × Scope) :=
  l.symbols[name]?.map fun s => (s.value, s.defined, s.scope)

/-- A definition replaces the value of a variable, is refused because the name is taken, is refused
    because there are too many, or is entered as a new one. -/
theorem define_cases (l : Ledger) (s : Symbol) :
    (∃ old, l.symbols[s.name]? = some old ∧ old.defined = true ∧ old.scope = .assigned ∧
      s.scope = .assigned ∧ l.define s = .ok { l with
        symbols := l.symbols.insert s.name { s with defined := true, pos := old.pos, seq := old.seq } }) ∨
    (∃ old, l.symbols[s.name]? = some old ∧ old.defined = true ∧
      ¬ (old.scope = .assigned ∧ s.scope = .assigned) ∧
      l.define s = .error (.plain .labelDuplicate)) ∨
    (¬ l.Defines s.name ∧ l.limit ≤ l.defined ∧ l.define s = .error (.symbolLimit l.limit)) ∨
    (¬ l.Defines s.name ∧ l.defined < l.limit ∧ l.define s = .ok { l with
      symbols := l.symbols.insert s.name { s with defined := true }, defined := l.defined + 1 }) := by
  unfold define Defines
  cases hold : l.symbols[s.name]? with
  | none =>
    by_cases full : l.limit ≤ l.defined
    · simp [hold, full]
    · simp [hold, full, Int.not_le.mp full]
  | some old =>
    by_cases taken : old.defined
    · by_cases both : old.scope = .assigned ∧ s.scope = .assigned
      · simp [hold, taken, both.1, both.2]
      · simp only [hold, taken, if_true, Bool.and_eq_true, decide_eq_true_eq, both, if_false]
        exact .inr (.inl ⟨old, rfl, taken, both, trivial⟩)
    · by_cases full : l.limit ≤ l.defined
      · simp [hold, taken, full]
      · simp [hold, taken, full, Int.not_le.mp full]

theorem get?_of_define (h : l.define s = .ok l') :
    ∃ t, l'.symbols[s.name]? = some t ∧ t.name = s.name ∧ t.value = s.value ∧ t.defined = true ∧ t.scope = s.scope := by
  rcases l.define_cases s with ⟨old, _, _, _, _, e⟩ | ⟨_, _, _, _, e⟩ | ⟨_, _, e⟩ | ⟨_, _, e⟩ <;>
    rw [e] at h <;> cases h
  · exact ⟨_, getElem?_insert_self, rfl, rfl, rfl, rfl⟩
  · exact ⟨_, getElem?_insert_self, rfl, rfl, rfl, rfl⟩

theorem get?_of_define_new (h : l.define s = .ok l') (constant : s.scope ≠ .assigned) :
    l'.symbols[s.name]? = some { s with defined := true } := by
  rcases l.define_cases s with ⟨_, _, _, _, var, e⟩ | ⟨_, _, _, _, e⟩ | ⟨_, _, e⟩ | ⟨_, _, e⟩
  · exact absurd var constant
  all_goals rw [e] at h; cases h
  exact getElem?_insert_self

theorem get?_of_define_ne (h : l.define s = .ok l') (ne : s.name ≠ name) : l'.symbols[name]? = l.symbols[name]? := by
  rcases l.define_cases s with ⟨old, _, _, _, _, e⟩ | ⟨_, _, _, _, e⟩ | ⟨_, _, e⟩ | ⟨_, _, e⟩ <;>
    rw [e] at h <;> cases h <;> simp [getElem?_insert, ne]

/-- A constant keeps its entry: no later definition is accepted for it. -/
theorem get?_of_define_constant (h : l.define s = .ok l') {t : Symbol} (ht : l.symbols[name]? = some t)
    (defined : t.defined = true) (constant : t.scope ≠ .assigned) : l'.symbols[name]? = some t := by
  by_cases e : s.name = name
  · subst e
    rcases l.define_cases s with ⟨old, hold, _, var, _, e⟩ | ⟨_, _, _, _, e⟩ | ⟨_, _, e⟩ | ⟨new, _, e⟩
    · rw [ht] at hold; cases hold; exact absurd var constant
    · rw [e] at h; cases h
    · rw [e] at h; cases h
    · exact absurd ⟨t, ht, defined⟩ new
  · rw [get?_of_define_ne h e, ht]

theorem Defines.define (h : l.Defines name) (e : l.define s = .ok l') : l'.Defines name := by
  by_cases same : s.name = name
  · subst same
    obtain ⟨t, ht, _, _, defined, _⟩ := get?_of_define e
    exact ⟨t, ht, defined⟩
  · obtain ⟨t, ht, defined⟩ := h
    exact ⟨t, by rw [get?_of_define_ne e same, ht], defined⟩

theorem get?_reference (l : Ledger) (name : Text) (pos : Pos) (other : Text) :
    (l.reference name pos).symbols[other]? =
      if name = other ∧ name ∉ l.symbols then some { name, pos, scope := .ofName name }
      else l.symbols[other]? := by
  unfold reference
  by_cases known : name ∈ l.symbols
  · simp [known, contains_iff_mem]
  · rw [if_neg (by simpa [contains_iff_mem] using known)]
    by_cases e : name = other
    · subst e; simp [known]
    · simp [e, getElem?_insert]

theorem get?_reference_of_some {l : Ledger} (h : l.symbols[name]? = some s) (other : Text) (pos : Pos) :
    (l.reference other pos).symbols[name]? = some s := by
  rw [get?_reference, if_neg, h]
  rintro ⟨rfl, new⟩
  exact new (mem_iff_isSome_getElem?.2 (by simp [h]))

/-! ## Freezing -/

section
variable (prev : Table) (pass : Int) (name : Text) (s : Symbol)

@[simp] theorem datedSymbol_name : (datedSymbol prev pass name s).name = s.name := by
  unfold datedSymbol; split <;> rfl

@[simp] theorem datedSymbol_value : (datedSymbol prev pass name s).value = s.value := by
  unfold datedSymbol; split <;> rfl

@[simp] theorem datedSymbol_defined : (datedSymbol prev pass name s).defined = s.defined := by
  unfold datedSymbol; split <;> rfl

@[simp] theorem datedSymbol_scope : (datedSymbol prev pass name s).scope = s.scope := by
  unfold datedSymbol; split <;> rfl

@[simp] theorem datedSymbol_pos : (datedSymbol prev pass name s).pos = s.pos := by
  unfold datedSymbol; split <;> rfl

@[simp] theorem datedSymbol_seq : (datedSymbol prev pass name s).seq = s.seq := by
  unfold datedSymbol; split <;> rfl

end

theorem freeze_get? (l : Ledger) (prev : Table) (pass : Int) (name : Text) :
    (l.freeze prev pass).get? name = l.symbols[name]?.map (datedSymbol prev pass name) :=
  getElem?_map

theorem freeze_value?_of_not_defines {prev : Table} {pass : Int} (h : ¬ l.Defines name) :
    (l.freeze prev pass).value? name = none := by
  refine Option.eq_none_iff_forall_ne_some.2 fun v found => h ?_
  obtain ⟨t, ht, defined, -⟩ := Table.value?_eq_some_iff.1 found
  rw [freeze_get?, Option.map_eq_some_iff] at ht
  obtain ⟨u, hu, rfl⟩ := ht
  exact ⟨u, hu, by simpa using defined⟩

/-- Tables frozen from ledgers that agree on a name agree on it, whatever they are dated against. -/
theorem freeze_agreeOn_freeze (prev prev' : Table) (pass pass' : Int) (h : l.state name = l'.state name) :
    (l.freeze prev pass).agreeOn (l'.freeze prev' pass') name = true := by
  simpa [Table.agreeOn_iff, freeze_get?, Option.map_map, Function.comp_def, state] using h

theorem freeze_diff_freeze (l : Ledger) (prev prev' : Table) (pass pass' : Int) :
    (l.freeze prev pass).diff (l.freeze prev' pass') = [] :=
  Table.diff_eq_nil_iff.2 fun _ => freeze_agreeOn_freeze prev prev' pass pass' rfl

/-! ## Names -/

/-- Every symbol stands under its own name. -/
def Named (l : Ledger) : Prop :=
  ∀ (name : Text) (s : Symbol), l.symbols[name]? = some s → s.name = name

theorem Named.define (h : l.Named) (e : l.define s = .ok l') : l'.Named := by
  intro name t ht
  by_cases same : s.name = name
  · subst same
    obtain ⟨u, hu, name_eq, _⟩ := get?_of_define e
    rw [hu] at ht; cases ht; exact name_eq
  · rw [get?_of_define_ne e same] at ht
    exact h name t ht

theorem Named.reference (h : l.Named) (name : Text) (pos : Pos) : (l.reference name pos).Named := by
  intro other t ht
  rw [get?_reference] at ht
  split at ht
  next new => cases ht; exact new.1
  next => exact h other t ht

theorem Named.freeze (h : l.Named) (prev : Table) (pass : Int) : (l.freeze prev pass).Named := by
  intro name s hs
  rw [freeze_get?, Option.map_eq_some_iff] at hs
  obtain ⟨t, ht, rfl⟩ := hs
  simpa using h name t ht

end Ledger

end Z80Asm
