import Z80Asm.Proofs.Symbols

/-!
# Ledgers under calls

A ledger is filled by calls that define symbols and note uses of names, in any order.  Its entries are those that the
accepted definitions leave (`Recorded`), and it counts the defined ones.
-/

namespace Z80Asm

open Std.TreeMap

/-- The number of defined symbols. -/
def SymbolMap.definedCount (m : SymbolMap) : Nat := m.toList.countP (·.2.defined)

/-- An entry takes the place of the one that its name has. -/
theorem SymbolMap.definedCount_insert (m : SymbolMap) (name : Text) (s : Symbol) :
    definedCount (m.insert name s) + (m[name]?.any (·.defined)).toNat = definedCount m + s.defined.toNat := by
  have split (s : Symbol) : definedCount (m.insert name s) =
      (m.toList.filter fun e => ¬ (name == e.1) = true).countP (·.2.defined) + s.defined.toNat := by
    rw [definedCount, toList_insert_perm.countP_eq, List.countP_cons]
    cases s.defined <;> rfl
  cases old : m[name]? with
  | none =>
    have others : m.toList.filter (fun e => ¬ (name == e.1) = true) = m.toList := by
      refine List.filter_eq_self.2 fun e mem => ?_
      have entry := mem_toList_iff_getElem?_eq_some.1 mem
      simp only [decide_eq_true_eq, beq_iff_eq]
      rintro rfl
      rw [old] at entry
      cases entry
    rw [split, others]
    rfl
  | some s' =>
    have same : definedCount (m.insert name s') = definedCount m := by
      refine (equiv_iff_toList_perm.1 (.of_forall_constGet?_eq fun other => ?_)).countP_eq _
      by_cases e : name = other
      · subst e; simp [old]
      · simp [getElem?_insert, e]
    rw [split s, ← same, split s', Option.any_some]
    omega

namespace Ledger

inductive Call where
  | define (s : Symbol)
  | reference (name : Text) (pos : Pos)

/-- A ledger, with the definitions that it has accepted in their order. -/
structure History where
  ledger : Ledger
  accepted : List Symbol := []

/-- What accepted definitions of a name leave as its entry: the last of them at the place of the first one, and more than
    one only for a variable. -/
def Recorded (entry : Option Symbol) : List Symbol → Prop
  | [] => entry.any (·.defined) = false
  | first :: rest =>
    entry = some { rest.getLastD first with defined := true, pos := first.pos, seq := first.seq } ∧
      (rest ≠ [] → ∀ s ∈ first :: rest, s.scope = .assigned)

theorem Recorded.define {l l' : Ledger} {s : Symbol} {ds : List Symbol} (entered : l.define s = .ok l')
    (h : Recorded l.symbols[s.name]? ds) : Recorded l'.symbols[s.name]? (ds ++ [s]) := by
  rcases l.define_cases s with ⟨old, entry, taken, var, var', e⟩ | ⟨_, _, _, _, e⟩ | ⟨_, _, e⟩ | ⟨new, _, e⟩ <;>
    rw [e] at entered <;> cases entered
  · cases ds with
    | nil => simp [Recorded, entry, taken] at h
    | cons first rest =>
      obtain ⟨found, vars⟩ := h
      rw [entry, Option.some.injEq] at found
      subst found
      have all : ∀ x ∈ first :: rest, x.scope = .assigned := by
        cases rest with
        | nil => simpa using var
        | cons second rest => exact vars (by simp)
      refine ⟨by simp, fun _ x mem => ?_⟩
      rcases List.mem_append.1 (List.cons_append ▸ mem) with mem | mem
      · exact all x mem
      · rwa [List.mem_singleton.1 mem]
  · cases ds with
    | nil => exact ⟨by simp, by simp⟩
    | cons first rest => exact absurd ⟨_, h.1, rfl⟩ new

namespace History

/-- A refused definition leaves the ledger as it is. -/
def call (h : History) : Call → History
  | .define s =>
    match h.ledger.define s with
    | .ok ledger => ⟨ledger, h.accepted ++ [s]⟩
    | .error _ => h
  | .reference name pos => { h with ledger := h.ledger.reference name pos }

/-- Calls of a new ledger. -/
def of (limit : Int) (calls : List Call) : History := calls.foldl call { ledger := .new limit }

/-- The accepted definitions of a name. -/
def definitions (h : History) (name : Text) : List Symbol := h.accepted.filter (·.name = name)

structure Valid (limit : Int) (h : History) : Prop where
  limit_eq : h.ledger.limit = limit
  count : h.ledger.defined = SymbolMap.definedCount h.ledger.symbols
  bound : (h.ledger.defined : Int) ≤ max limit 0
  recorded : ∀ name : Text, Recorded h.ledger.symbols[name]? (h.definitions name)

variable {limit : Int} {h : History}

theorem Valid.define (valid : Valid limit h) {s : Symbol} {ledger : Ledger} (entered : h.ledger.define s = .ok ledger) :
    Valid limit ⟨ledger, h.accepted ++ [s]⟩ := by
  have recorded (name : Text) : Recorded ledger.symbols[name]? (definitions ⟨ledger, h.accepted ++ [s]⟩ name) := by
    by_cases same : s.name = name
    · subst same
      simpa [definitions] using (valid.recorded s.name).define entered
    · simpa [definitions, same, get?_of_define_ne entered same] using valid.recorded name
  have counted := SymbolMap.definedCount_insert h.ledger.symbols s.name
  rcases h.ledger.define_cases s with ⟨old, entry, taken, _, _, e⟩ | ⟨_, _, _, _, e⟩ | ⟨_, _, e⟩ | ⟨new, room, e⟩ <;>
    rw [e] at entered <;> cases entered
  · refine ⟨valid.limit_eq, ?_, valid.bound, recorded⟩
    have := counted { s with defined := true, pos := old.pos, seq := old.seq }
    simp only [entry, taken, Option.any_some, Nat.add_right_cancel_iff] at this
    exact valid.count.trans this.symm
  · have unknown : h.ledger.symbols[s.name]?.any (·.defined) = false :=
      (Option.any_eq_false _ _).2 fun old entry => Bool.eq_false_iff.2 fun taken => new ⟨old, entry, taken⟩
    have := counted { s with defined := true }
    simp only [unknown, Bool.toNat_false, Bool.toNat_true, Nat.add_zero] at this
    have limit_eq := valid.limit_eq
    exact ⟨limit_eq, by rw [this, valid.count], by push_cast; omega, recorded⟩

theorem Valid.reference (valid : Valid limit h) (name : Text) (pos : Pos) :
    Valid limit { h with ledger := h.ledger.reference name pos } := by
  by_cases known : name ∈ h.ledger.symbols
  · rwa [Ledger.reference, if_pos (contains_iff_mem.2 known)]
  have new := getElem?_eq_none known
  have counted := SymbolMap.definedCount_insert h.ledger.symbols name { name, pos, scope := .ofName name }
  rw [new] at counted
  have recorded (other : Text) : Recorded (h.ledger.reference name pos).symbols[other]? (h.definitions other) := by
    rw [get?_reference]
    by_cases same : name = other
    · subst same
      have before := valid.recorded name
      rw [new] at before
      cases ds : h.definitions name with
      | nil => simp [Recorded, known]
      | cons first rest => rw [ds] at before; cases before.1
    · simpa [same] using valid.recorded other
  rw [Ledger.reference, if_neg (by simpa using known)] at recorded ⊢
  exact ⟨valid.limit_eq, valid.count.trans counted.symm, valid.bound, recorded⟩

theorem valid_of (limit : Int) (calls : List Call) : Valid limit (of limit calls) := by
  refine List.foldlRecOn (motive := Valid limit) calls call ?_ fun h valid c _ => ?_
  · exact ⟨rfl, rfl, Int.le_max_right _ _, fun _ => rfl⟩
  · cases c with
    | reference name pos => exact valid.reference name pos
    | define s =>
      cases entered : h.ledger.define s with
      | ok ledger => simpa only [call, entered] using valid.define entered
      | error fault => simpa only [call, entered] using valid

theorem accepted_grows (h : History) (calls : List Call) : h.accepted <+: (calls.foldl call h).accepted := by
  refine List.foldlRecOn (motive := fun h' => h.accepted <+: h'.accepted) calls call (List.prefix_refl _)
    fun h' before c _ => before.trans ?_
  cases c with
  | reference name pos => exact List.prefix_refl _
  | define s =>
    simp only [call]
    split
    · exact List.prefix_append _ _
    · exact List.prefix_refl _

theorem Valid.definedList_length (valid : Valid limit h) (prev : Table) (pass : Int) :
    (h.ledger.freeze prev pass).definedList.length = h.ledger.defined := by
  rw [valid.count, SymbolMap.definedCount, Table.definedList, Table.toList_eq_map, ← List.countP_eq_length_filter,
    freeze, toList_map, List.countP_map, List.countP_map]
  simp [Function.comp_def]

/-- **Ledgers count and keep what they have accepted.** -/
theorem calls_kept (limit : Int) (calls : List Call) :
    (of limit calls).ledger.defined = (of limit calls).ledger.symbols.toList.countP (·.2.defined) ∧
    ((of limit calls).ledger.defined : Int) ≤ max limit 0 ∧
    (∀ s fault, (of limit calls).ledger.define s = .error fault →
      (fault = .plain .labelDuplicate ∨ fault = .symbolLimit limit) ∧
      of limit (calls ++ [.define s]) = of limit calls) ∧
    (∀ (name : Text) (s : Symbol), (of limit calls).ledger.symbols[name]? = some s → s.defined = true →
      ∃ first rest, (of limit calls).definitions name = first :: rest ∧ ∀ more, ∃ later s',
        (of limit (calls ++ more)).definitions name = first :: (rest ++ later) ∧
        (of limit (calls ++ more)).ledger.symbols[name]? = some s' ∧ s'.defined = true ∧
        s'.pos = first.pos ∧ s'.seq = first.seq ∧ s'.value = ((rest ++ later).getLastD first).value ∧
        (s'.value ≠ s.value → ∀ d ∈ first :: (rest ++ later), d.scope = .assigned)) ∧
    (∀ (name : Text) (pos : Pos) (other : Text) (s : Symbol), (of limit calls).ledger.symbols[other]? = some s →
      ((of limit calls).ledger.reference name pos).symbols[other]? = some s) ∧
    ∀ prev pass, ((of limit calls).ledger.freeze prev pass).defined =
      ((of limit calls).ledger.freeze prev pass).definedList.length := by
  have valid := valid_of limit calls
  refine ⟨valid.count, valid.bound, fun s fault refused => ⟨?_, ?_⟩, fun name s entry defined => ?_,
    fun name pos other s entry => get?_reference_of_some entry name pos,
    fun prev pass => (valid.definedList_length prev pass).symm⟩
  · rcases (of limit calls).ledger.define_cases s with ⟨_, _, _, _, _, e⟩ | ⟨_, _, _, _, e⟩ | ⟨_, _, e⟩ | ⟨_, _, e⟩ <;>
      rw [e] at refused <;> cases refused
    · exact .inl rfl
    · exact .inr (by rw [valid.limit_eq])
  · rw [of, List.foldl_append, List.foldl_cons, List.foldl_nil, ← of, call, refused]
  · have before := valid.recorded name
    cases ds : (of limit calls).definitions name with
    | nil => rw [ds, entry] at before; cases defined.symm.trans before
    | cons first rest =>
      refine ⟨first, rest, rfl, fun more => ?_⟩
      have after := (valid_of limit (calls ++ more)).recorded name
      obtain ⟨later, grown⟩ : (of limit calls).definitions name <+: (of limit (calls ++ more)).definitions name := by
        rw [of, of, List.foldl_append]
        exact (accepted_grows _ more).filter _
      rw [ds] at grown before
      rw [← grown] at after
      refine ⟨later, _, grown.symm, after.1, rfl, rfl, rfl, rfl, fun changed => after.2 ?_⟩
      rintro none
      obtain ⟨rfl, rfl⟩ := List.append_eq_nil_iff.1 none
      rw [entry] at before
      obtain rfl := Option.some.inj before.1
      exact changed rfl

end History

end Ledger

end Z80Asm
