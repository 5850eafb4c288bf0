import Mathlib.Data.List.Chain
import Mathlib.Data.List.Perm.Subperm
import Mathlib.Logic.Relation
import Z80Asm.Statement

/-!
# Which constants rest on which

A constant is defined by an expression, and so refers to other names.  Where no constant refers to
itself by way of others, each name has a depth: how many constants have to be known one after the other
before its value is.
-/

namespace Z80Asm

open List

variable {name other : Text} {names : List Text}

/-- The names by which a statement defines a name; a label is defined by none. -/
def Statement.defines? (name : Text) : Statement → Option (List Text)
  | .act node action =>
    if node.label = some name then some []
    else match action with
      | .equate other value false => if other = name then some value.names else none
      | _ => none
  | .choose _ _ _ _ | .repeated _ _ _ => none

theorem Statement.isSome_defines?_act {node : Node} {action : Action} :
    ((Statement.act node action).defines? name).isSome ↔
      node.label = some name ∨ ∃ value, action = .equate name value false := by
  by_cases label : node.label = some name
  · simp [defines?, label]
  · simp only [defines?, label, if_false, false_or]
    split
    next other value =>
      by_cases same : other = name <;> simp [same]
    next other => simpa using fun value h => other name value h

def Statement.constant? : Statement → Option Text
  | .act _ (.equate name _ false) => some name
  | _ => none

section
variable (program : List Statement)

/-- The names in the definition of a name.  The first definition counts. -/
def references (name : Text) : List Text :=
  (program.findSome? (Statement.defines? name)).getD []

/-- No name refers to itself by way of others. -/
def Acyclic : Prop := ∀ name, ¬ Relation.TransGen (fun a b => b ∈ references program a) name name

/-- The depth of a name as far as a number of references leads. -/
def depthWithin : Nat → Text → Nat
  | 0, _ => 0
  | fuel + 1, name =>
    match references program name with
    | [] => 0
    | names => 1 + (names.map (depthWithin fuel)).foldr max 0

/-- The depth of a name: zero for one that refers to no name, and else one more than the depth of the
    deepest name to which it refers. -/
def depth (name : Text) : Nat := depthWithin program program.length name

def largestDepth : Nat := ((program.filterMap Statement.constant?).map (depth program)).foldr max 0

end

variable {program : List Statement}

theorem le_foldr_max {n : Nat} {ns : List Nat} (h : n ∈ ns) : n ≤ ns.foldr max 0 := by
  induction ns with
  | nil => simp at h
  | cons m rest ih =>
    rcases mem_cons.1 h with rfl | h
    · exact Nat.le_max_left _ _
    · exact (ih h).trans (Nat.le_max_right _ _)

theorem mem_constants_of_references (h : other ∈ references program name) :
    name ∈ program.filterMap Statement.constant? := by
  unfold references at h
  cases found : program.findSome? (Statement.defines? name) with
  | none => simp [found] at h
  | some names =>
    rw [found, Option.getD_some] at h
    obtain ⟨statement, hs, defines⟩ := exists_of_findSome?_eq_some found
    refine List.mem_filterMap.2 ⟨statement, hs, ?_⟩
    unfold Statement.defines? at defines
    split at defines
    · split at defines
      · cases defines; simp at h
      · split at defines
        · split at defines
          next same => rw [← same]; rfl
          next => cases defines
        · cases defines
    · cases defines
    · cases defines

/-! ## Chains of references -/

theorem Acyclic.nodup (acyclic : Acyclic program) (chain : names.IsChain fun a b => b ∈ references program a) :
    names.Nodup := by
  have transitive : names.IsChain (Relation.TransGen fun a b => b ∈ references program a) :=
    chain.imp fun _ _ h => .single h
  refine (isChain_iff_pairwise.1 transitive).imp ?_
  rintro a _ reaches rfl
  exact acyclic a reaches

/-- All names of a chain of references but the last are constants, so that it has a bounded length. -/
theorem Acyclic.length_le (acyclic : Acyclic program)
    (chain : (name :: names).IsChain fun a b => b ∈ references program a) : names.length ≤ program.length := by
  have constants : ∀ (l : List Text), l.IsChain (fun a b => b ∈ references program a) →
      ∀ a ∈ l.dropLast, a ∈ program.filterMap Statement.constant? := by
    intro l
    induction l with
    | nil => simp
    | cons a rest ih =>
      cases rest with
      | nil => simp
      | cons b rest =>
        intro chain c hc
        obtain ⟨head, tail⟩ := isChain_cons_cons.1 chain
        rcases mem_cons.1 hc with rfl | hc
        · exact mem_constants_of_references head
        · exact ih tail c hc
  have distinct : (name :: names).dropLast.Nodup := (acyclic.nodup chain).sublist (dropLast_sublist _)
  calc names.length = (name :: names).dropLast.length := by simp
    _ ≤ (program.filterMap Statement.constant?).length := (distinct.subperm (constants _ chain)).length_le
    _ ≤ program.length := length_filterMap_le _ _

/-! ## Depths -/

/-- A depth does not change any more once all chains of references have been followed to their end. -/
theorem depthWithin_eq : ∀ (k : Nat) (name : Text),
    (∀ names, (name :: names).IsChain (fun a b => b ∈ references program a) → names.length ≤ k) →
      ∀ fuel, k ≤ fuel → depthWithin program fuel name = depthWithin program k name
  | 0, name, short, fuel, _ => by
    have none_left : references program name = [] := by
      rw [eq_nil_iff_forall_not_mem]
      intro other h
      have := short [other] (by simpa using h)
      simp at this
    cases fuel with
    | zero => rfl
    | succ fuel => simp [depthWithin, none_left]
  | k + 1, name, short, fuel, enough => by
    obtain ⟨fuel, rfl⟩ : ∃ f, fuel = f + 1 := ⟨fuel - 1, by omega⟩
    have same : (references program name).map (depthWithin program fuel) =
        (references program name).map (depthWithin program k) := by
      refine map_congr_left fun other h => depthWithin_eq k other (fun names chain => ?_) fuel (by omega)
      have := short (other :: names) (isChain_cons_cons.2 ⟨h, chain⟩)
      simp only [length_cons] at this
      omega
    simp only [depthWithin]
    split
    · rfl
    · rw [same]

/-- **The depth of a name** is zero or one more than that of the deepest name it refers to. -/
theorem depth_eq (acyclic : Acyclic program) (name : Text) :
    depth program name =
      match references program name with
      | [] => 0
      | names => 1 + (names.map (depth program)).foldr max 0 := by
  have enough := depthWithin_eq program.length name (fun names chain => acyclic.length_le chain)
    (program.length + 1) (by omega)
  rw [depth, ← enough]
  rfl

theorem depth_lt_of_mem (acyclic : Acyclic program) (h : other ∈ references program name) :
    depth program other < depth program name := by
  rw [depth_eq acyclic name]
  split
  next none_left => rw [none_left] at h; simp at h
  next =>
    exact Nat.lt_one_add_iff.2 (le_foldr_max (mem_map_of_mem h))

theorem acyclic_iff : Acyclic program ↔ ∀ name ∈ program.filterMap Statement.constant?,
    ∀ other ∈ references program name, depth program other < depth program name := by
  refine ⟨fun acyclic name _ other h => depth_lt_of_mem acyclic h, fun falls name cycle => ?_⟩
  have below : ∀ {a b}, Relation.TransGen (fun a b => b ∈ references program a) a b →
      depth program b < depth program a := by
    intro a b reaches
    induction reaches with
    | single h => exact falls _ (mem_constants_of_references h) _ h
    | tail _ h ih => exact (falls _ (mem_constants_of_references h) _ h).trans ih
  exact absurd (below cycle) (lt_irrefl _)

instance : Decidable (Acyclic program) := decidable_of_iff _ acyclic_iff.symm

theorem depth_le_largestDepth (acyclic : Acyclic program) (name : Text) :
    depth program name ≤ largestDepth program := by
  cases h : references program name with
  | nil => rw [depth_eq acyclic, h]; exact Nat.zero_le _
  | cons other rest =>
    have known := mem_constants_of_references (h ▸ mem_cons_self : other ∈ references program name)
    exact le_foldr_max (mem_map_of_mem known)

end Z80Asm
