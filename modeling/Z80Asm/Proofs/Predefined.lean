import Z80Asm.Proofs.Passes

/-!
# Predefined constants in the result

Every pass starts with the predefined constants, entered in the order of their names as long as the limit of symbols
allows.  Those that are entered stay as they are through the pass.  Where one is left out the ledger is full, and only
variables that are assigned again are defined in it without a fatal error.
-/

namespace Z80Asm

open List

variable {name : Text} {constants : List (Text × Int64)} {i : Nat} {value : Int64}

namespace Ledger

/-- Enters a predefined constant, unless it is refused. -/
def enter (l : Ledger) (constant : Text × Int64) : Ledger :=
  match l.define { name := constant.1, value := constant.2, scope := .predefined, seq := -1 } with
  | .ok l => l
  | .error _ => l

def HoldsPredefined (l : Ledger) (name : Text) (value : Int64) : Prop :=
  l.symbols[name]? = some { name, value, defined := true, scope := .predefined, seq := -1 }

/-- The ledger is full, and a name is not defined in it. -/
def Lacks (l : Ledger) (name : Text) : Prop := l.limit ≤ l.defined ∧ ¬ l.Defines name

variable {l : Ledger}

/-- A new constant is entered if there is room for it, and leaves the ledger as it is otherwise. -/
theorem enter_cases (value : Int64) (new : l.symbols[name]? = none) :
    ((l.defined : Int) < l.limit ∧ (l.enter (name, value)).HoldsPredefined name value ∧
        (l.enter (name, value)).defined = l.defined + 1 ∧ (l.enter (name, value)).limit = l.limit ∧
        ∀ other, name ≠ other → (l.enter (name, value)).symbols[other]? = l.symbols[other]?) ∨
      l.limit ≤ l.defined ∧ l.enter (name, value) = l := by
  unfold enter
  rcases l.define_cases { name, value, scope := .predefined, seq := -1 } with
    ⟨_, entry, _⟩ | ⟨_, entry, _⟩ | ⟨_, full, e⟩ | ⟨_, room, e⟩
  · rw [new] at entry
    cases entry
  · rw [new] at entry
    cases entry
  · rw [e]
    exact .inr ⟨full, rfl⟩
  · rw [e]
    refine .inl ⟨by omega, by simp [HoldsPredefined], rfl, rfl, fun other apart => ?_⟩
    simp [Std.TreeMap.getElem?_insert, apart]

theorem foldl_enter_of_full (full : l.limit ≤ l.defined) (new : ∀ c ∈ constants, l.symbols[c.1]? = none) :
    constants.foldl enter l = l := by
  induction constants with
  | nil => rfl
  | cons c constants ih =>
    rw [forall_mem_cons] at new
    rcases enter_cases c.2 new.1 with ⟨room, -⟩ | ⟨-, same⟩
    · omega
    · rw [foldl_cons, same, ih new.2]

theorem foldl_enter_get? (apart : ∀ c ∈ constants, c.1 ≠ name) :
    (constants.foldl enter l).symbols[name]? = l.symbols[name]? := by
  induction constants generalizing l with
  | nil => rfl
  | cons c constants ih =>
    rw [forall_mem_cons] at apart
    rw [foldl_cons, ih apart.2, enter]
    split
    next entered => exact get?_of_define_ne entered apart.1
    · rfl

/-- Of new constants with different names, those are entered for which there is room. -/
theorem foldl_enter (apart : constants.Pairwise (·.1 ≠ ·.1)) (new : ∀ c ∈ constants, l.symbols[c.1]? = none)
    (here : constants[i]? = some (name, value)) :
    if (l.defined + i : Int) < l.limit then (constants.foldl enter l).HoldsPredefined name value
    else (constants.foldl enter l).Lacks name := by
  induction constants generalizing l i with
  | nil => cases here
  | cons c constants ih =>
    rw [pairwise_cons] at apart
    rcases enter_cases c.2 (new c mem_cons_self) with ⟨room, entered, defined, limit, others⟩ | ⟨full, -⟩
    · rw [foldl_cons]
      cases i with
      | zero =>
        cases here
        rw [if_pos (by simpa using room), HoldsPredefined, foldl_enter_get? fun c mem => (apart.1 c mem).symm]
        exact entered
      | succ i =>
        have new' d (mem : d ∈ constants) := (others d.1 (apart.1 d mem)).trans (new d (mem_cons_of_mem _ mem))
        have rest := ih apart.2 new' here
        rw [defined, limit] at rest
        convert rest using 2
        omega
    · rw [foldl_enter_of_full full new, if_neg (by omega)]
      refine ⟨full, ?_⟩
      rintro ⟨x, entry, -⟩
      rw [new _ (mem_of_getElem? here)] at entry
      cases entry

theorem Lacks.reference (h : l.Lacks name) (other : Text) (pos : Pos) : (l.reference other pos).Lacks name := by
  obtain ⟨full, undefined⟩ := h
  refine ⟨by unfold Ledger.reference; split <;> exact full, ?_⟩
  rintro ⟨x, entry, defined⟩
  rw [get?_reference] at entry
  split at entry
  · cases entry
    cases defined
  · exact undefined ⟨x, entry, defined⟩

theorem Lacks.define {l' : Ledger} {x : Symbol} (entered : l.define x = .ok l') (h : l.Lacks name) : l'.Lacks name := by
  obtain ⟨full, undefined⟩ := h
  rcases l.define_cases x with ⟨old, entry, taken, _, _, e⟩ | ⟨_, _, _, _, e⟩ | ⟨_, _, e⟩ | ⟨_, room, e⟩
  · have apart : x.name ≠ name := fun same => undefined ⟨old, same ▸ entry, taken⟩
    rw [Defines, ← get?_of_define_ne entered apart] at undefined
    rw [e] at entered
    cases entered
    exact ⟨full, undefined⟩
  · rw [e] at entered
    cases entered
  · rw [e] at entered
    cases entered
  · omega

end Ledger

def Table.HoldsPredefined (t : Table) (name : Text) (value : Int64) : Prop :=
  ∃ x, t.get? name = some x ∧ x.defined = true ∧ x.scope = .predefined ∧ x.value = value

namespace Assembly

theorem predefined_eq (s : Settings) :
    predefined s = (Sorted.entries s.predefined).foldl Ledger.enter (.new s.labelLimit) := rfl

theorem predefined_entered (s : Settings) (here : (Sorted.entries s.predefined)[i]? = some (name, value)) :
    if (i : Int) < s.labelLimit then (predefined s).HoldsPredefined name value else (predefined s).Lacks name := by
  have apart : (Sorted.entries s.predefined).Pairwise (·.1 ≠ ·.1) := by
    refine Std.TreeMap.distinct_keys_toList.imp fun {a b} h (same : a.1 = b.1) => h ?_
    rw [same]
    exact Std.ReflCmp.compare_self
  have entered := Ledger.foldl_enter (l := .new s.labelLimit) apart (by simp [Ledger.new]) here
  rwa [← predefined_eq, Ledger.new, Int.natCast_zero, Int.zero_add] at entered

/-- A pass that comes to its end has the predefined constants for which there is room, and no others. -/
theorem table_holdsPredefined_iff (s : Settings) (program : List Statement) (n : Nat)
    (here : (Sorted.entries s.predefined)[i]? = some (name, value)) :
    (table s program (n + 1)).HoldsPredefined name value ↔ (i : Int) < s.labelLimit := by
  have moves := Walk.steps_moves (passOf s program (n + 1)) program { ledger := predefined s }
  have entered := predefined_entered s here
  unfold Table.HoldsPredefined
  rw [table_succ, Ledger.freeze_get?]
  constructor
  · rintro ⟨x, entry, defined, -⟩
    by_contra full
    rw [if_neg full] at entered
    have lacks := moves.ledger_induction (P := (·.Lacks name)) entered (fun _ pos h => h.reference _ pos) .define
    obtain ⟨y, found, rfl⟩ := Option.map_eq_some_iff.1 entry
    exact lacks.2 ⟨y, found, by simpa using defined⟩
  · intro room
    rw [if_pos room] at entered
    have kept := moves.constant entered rfl (by simp)
    exact ⟨_, Option.map_eq_some_iff.2 ⟨_, kept, rfl⟩, by simp⟩

/-- **The final pass of a run has a predefined constant exactly if the limit leaves room for it**, in the order of the
    names.  So it has all of them exactly if they are not more than the limit. -/
theorem predefined_kept_iff {s : Settings} {cancelled : Nat → Bool} {file data : Text} {r : Result} {t : Table}
    (run : assembleText s cancelled file data = .finished r) (reached : r.symbols = some t)
    (within : ∀ fault ∈ r.fault, fault.cause? ≠ some .resourceLimit) :
    (∀ (i : Nat) name value, (Sorted.entries s.predefined)[i]? = some (name, value) →
      (t.HoldsPredefined name value ↔ (i : Int) < s.labelLimit)) ∧
    ((∀ name value, (name, value) ∈ Sorted.entries s.predefined → t.HoldsPredefined name value) ↔
      ((Sorted.entries s.predefined).length : Int) ≤ s.labelLimit) := by
  have each (i : Nat) (name : Text) (value : Int64) (here : (Sorted.entries s.predefined)[i]? = some (name, value)) :
      t.HoldsPredefined name value ↔ (i : Int) < s.labelLimit := by
    rcases finished_cases run with ⟨found, fault, rfl⟩ | ⟨n, pos, -, ends⟩
    · cases reached
    · obtain ⟨n, rfl⟩ : ∃ m, n = m + 1 := ⟨n - 1, by omega⟩
      cases ends with
      | cancelled => cases reached
      | limit stop =>
        obtain ⟨_, _, rfl⟩ := (Walk.steps_moves _ _ _).stop_limit rfl stop
        exact absurd rfl (within _ rfl)
      | settled | exhausted =>
        cases reached
        exact table_holdsPredefined_iff s _ n here
  refine ⟨each, fun all => ?_, fun room name value mem => ?_⟩
  · by_contra more
    have pos : 0 < s.labelLimit := by
      unfold Settings.labelLimit
      split <;> omega
    obtain ⟨⟨name, value⟩, here⟩ : ∃ c, (Sorted.entries s.predefined)[s.labelLimit.toNat]? = some c :=
      ⟨_, List.getElem?_eq_getElem (by omega)⟩
    have := (each _ name value here).1 (all name value (List.mem_of_getElem? here))
    omega
  · obtain ⟨i, here⟩ := List.mem_iff_getElem?.1 mem
    have := (List.getElem?_eq_some_iff.1 here).1
    exact (each i name value here).2 (by omega)

/-- A run with two predefined constants. -/
def runPredefined (limit : Int) : Outcome :=
  assembleText { Settings.bare with maxLabels := limit, predefined := [(bytes "b", 2), (bytes "a", 1)] }
    neverCancelled (bytes "test.asm") (bytes " nop\n")

theorem predefined_kept_iff_two : ∃ r t, runPredefined 2 = .finished r ∧ r.symbols = some t ∧
    t.HoldsPredefined (bytes "a") 1 ∧ t.HoldsPredefined (bytes "b") 2 := by
  obtain ⟨r, run, checked⟩ := Outcome.exists_of_any
    (by decide +kernel : (runPredefined 2).any (fun r => r.symbols.isSome && r.fault.isNone) = true)
  rw [Bool.and_eq_true, Option.isSome_iff_exists, Option.isNone_iff_eq_none] at checked
  obtain ⟨⟨t, reached⟩, fine⟩ := checked
  have kept := (predefined_kept_iff run reached (by simp [fine])).2.2 (by decide)
  exact ⟨r, t, run, reached, kept _ _ (by decide), kept _ _ (by decide)⟩

/-- One of two constants is left out without a word. -/
theorem predefined_left_out : (runPredefined 1).any (fun r => r.state == .stable && r.diagnostics.isEmpty &&
    r.symbols.any fun t => (t.get? (bytes "a")).isSome && (t.get? (bytes "b")).isNone) = true := by
  decide +kernel

end Assembly

end Z80Asm
