import Mathlib.Logic.Equiv.Basic
import Z80Asm.Proofs.Passes
import Z80Asm.Proofs.Renaming

/-!
# Runs over renamed programs

The passes over a renamed program find the same things as those over the program, so that runs over both
end in the same way.  Only the order in which unstable symbols are reported follows their names, and may
change.
-/

namespace Z80Asm

/-! ## Counts -/

namespace Diagnostics
variable {ds ds' : Diagnostics}

theorem errors_eq_of_outline (h : (ds'.map (·.outline)).Perm (ds.map (·.outline))) : ds'.errors = ds.errors := by
  have outlined : ∀ ds : Diagnostics, ds.errors = (ds.map (·.outline)).countP fun o => o.1 != .warning := fun ds => by
    rw [List.countP_map]; rfl
  rw [outlined, outlined, h.countP_eq]

theorem warnings_eq_of_outline (h : (ds'.map (·.outline)).Perm (ds.map (·.outline))) : ds'.warnings = ds.warnings := by
  have outlined : ∀ ds : Diagnostics,
      ds.warnings = (ds.map (·.outline)).countP fun o => !(o.1 != .warning) := fun ds => by
    rw [List.countP_map]; rfl
  rw [outlined, outlined, h.countP_eq]

end Diagnostics

/-! ## Predefined constants -/

theorem Sorted.mem_of_mem_entries {α : Type} {map : List (Text × α)} {name : Text} {value : α}
    (h : (name, value) ∈ Sorted.entries map) : ∃ v, (name, v) ∈ map := by
  have known : name ∈ Std.TreeMap.ofList map compare := by
    rw [Std.TreeMap.mem_iff_isSome_getElem?, Std.TreeMap.mem_toList_iff_getElem?_eq_some.1 h]
    rfl
  rw [Std.TreeMap.mem_ofList, List.contains_iff_mem] at known
  obtain ⟨⟨_, v⟩, mem, rfl⟩ := List.mem_map.1 known
  exact ⟨v, mem⟩

namespace Assembly
variable {r : Text → Text} {s : Settings}

def KeepsPredefined (r : Text → Text) (s : Settings) : Prop :=
  ∀ entry ∈ s.predefined, r entry.1 = entry.1

theorem predefined_image (inj : Function.Injective r) (keeps : KeepsPredefined r s) :
    Ledger.Image r (predefined s) (predefined s) := by
  have kept {name : Text} {sym : Symbol} (found : (predefined s).symbols[name]? = some sym) : r name = name := by
    obtain ⟨_, mem, -⟩ := predefined_entry found
    obtain ⟨_, mem⟩ := Sorted.mem_of_mem_entries mem
    exact keeps _ mem
  refine ⟨⟨fun name => ?_, fun name' mem => ?_⟩, rfl, rfl⟩
  · cases found : (predefined s).symbols[name]? with
    | some sym =>
      have same := kept found
      rw [same, found]
      obtain ⟨_, -, rfl⟩ := predefined_entry found
      exact .some ⟨same.symm, rfl, rfl, rfl, .predefined, rfl, rfl⟩
    | none =>
      cases found' : (predefined s).symbols[r name]? with
      | none => exact .none
      | some sym =>
        -- a new name that is predefined is its own new name, and so the old one
        rw [inj (kept found'), found] at found'
        cases found'
  · rw [Std.TreeMap.mem_iff_isSome_getElem?, Option.isSome_iff_exists] at mem
    obtain ⟨sym, found⟩ := mem
    exact ⟨name', kept found⟩

end Assembly

/-! ## Results -/

structure Result.Image (r : Text → Text) (a a' : Result) : Prop where
  state : a'.state = a.state
  fault : a'.fault = a.fault
  passes : a'.passes = a.passes
  code : a'.code = a.code
  listing : a'.listing = a.listing
  symbols : Option.Rel (Table.Image r) a.symbols a'.symbols
  diagnostics : (a'.diagnostics.map (·.outline)).Perm (a.diagnostics.map (·.outline))
  errors : a'.diagnostics.errors = a.diagnostics.errors
  warnings : a'.diagnostics.warnings = a.diagnostics.warnings

inductive Outcome.Image (r : Text → Text) : Outcome → Outcome → Prop
  | finished {a a' : Result} (h : Result.Image r a a') : Image r (.finished a) (.finished a')
  | outOfBounds : Image r .outOfBounds .outOfBounds

namespace Assembly
variable {r : Text → Text} {s : Settings} {program : List Statement} {t t' u u' : Table}

/-- The reports of what still changes are the same, in another order. -/
theorem unstable_outline (inj : Function.Injective r) (h : Table.Image r t t') (g : Table.Image r u u')
    (index : Nat) :
    ((unstable index t' (t'.diff u')).map (·.outline)).Perm ((unstable index t (t.diff u)).map (·.outline)) := by
  have moved := h.diff_perm inj g
  have placed : ∀ name, (t'.get? (r name)).map (·.pos) = (t.get? name).map (·.pos) := fun name => by
    unfold Table.get?
    rcases h.symbols.cases name with ⟨e, e'⟩ | ⟨_, _, e, e', same⟩ <;> rw [e, e']
    simp [same.pos]
  have outlined : ∀ (next : Table) (changed : List Text),
      (unstable index next changed).map (·.outline) =
        if changed.isEmpty then [(Severity.error, Category.unresolved, {}, (index : Int))] else
          changed.map fun name =>
            (Severity.error, Category.unresolved, ((next.get? name).map (·.pos)).getD {}, (index : Int)) := by
    intro next changed
    unfold unstable
    split
    · rfl
    · rw [List.map_map]
      refine List.map_congr_left fun name _ => ?_
      simp only [Function.comp_apply]
      cases next.get? name <;> rfl
  rw [outlined, outlined, h.isEmpty_diff inj g]
  split
  · exact .refl _
  · refine (moved.map _).trans ?_
    rw [List.map_map]
    simp only [Function.comp_def, placed]
    exact .refl _

theorem final_image {w w' : Walk} (h : Walk.Image r w w') (g : Table.Image r t t') (index : Nat)
    {ds ds' : Diagnostics} (same : (ds'.map (·.outline)).Perm (ds.map (·.outline))) :
    Result.Image r (final index w t ds) (final index w' t' ds') := by
  have errors := Diagnostics.errors_eq_of_outline same
  have fault : compileFault? ds' = compileFault? ds := by simp only [compileFault?, errors]
  exact {
    state := congrArg State.ofFault fault
    fault := fault
    passes := rfl
    code := h.code
    listing := congrArg Array.toList h.entries
    symbols := .some g
    diagnostics := same
    errors := errors
    warnings := Diagnostics.warnings_eq_of_outline same }

section
variable (inj : Function.Injective r) (keeps : KeepsPredefined r s) (free : Statement.allScriptFree program = true)
include inj keeps free

theorem walk_image (h : Table.Image r t t') (index : Nat) :
    Walk.Image r (Pass.walk { index, prev := t, listing := s.listing } (predefined s) program)
      (Pass.walk { index, prev := t', listing := s.listing } (predefined s) (Statement.renameAll r program)) := by
  have pass : Pass.Image r { index, prev := t, listing := s.listing }
      { index, prev := t', listing := s.listing } := ⟨rfl, h, rfl⟩
  have start : Walk.Image r { ledger := predefined s } { ledger := predefined s } :=
    ⟨predefined_image inj keeps, fun _ => by simp, rfl, rfl, rfl, rfl, rfl, rfl⟩
  exact Walk.Image.steps pass inj program free start

/-- **The passes over a renamed program end as those over the program**, from tables that are images. -/
theorem resolve_image (cancelled : Nat → Bool) (found : Diagnostics) :
    ∀ (left index : Nat) {t t' : Table}, Table.Image r t t' → ∀ sizes,
      Outcome.Image r (resolve s cancelled program found left index t sizes)
        (resolve s cancelled (Statement.renameAll r program) found left index t' sizes)
  | left, index, t, t', h, sizes => by
    rw [resolve, resolve]
    have walk := walk_image inj keeps free h index
    dsimp only
    generalize Pass.walk _ (predefined s) program = w at walk ⊢
    generalize Pass.walk _ (predefined s) (Statement.renameAll r program) = w' at walk ⊢
    have next := walk.ledger.freeze h index
    have reports : ((found ++ w'.diagnostics.toList).map (·.outline)).Perm
        ((found ++ w.diagnostics.toList).map (·.outline)) := by
      rw [List.map_append, List.map_append, walk.diagnostics]
    split
    · exact .finished ⟨rfl, rfl, rfl, rfl, rfl, .none, .refl _, rfl, rfl⟩
    · rw [walk.stop, next.isEmpty_diff inj h, walk.sizes]
      split
      · exact .outOfBounds
      · exact .finished ⟨rfl, rfl, rfl, rfl, rfl, .some h, .refl _, rfl, rfl⟩
      · split
        · exact .finished (final_image walk next index reports)
        · cases left with
          | zero =>
            refine .finished (final_image walk next index ?_)
            simpa only [List.map_append] using reports.append (unstable_outline inj next h index)
          | succ left => exact resolve_image cancelled found left (index + 1) next _

end

/-- All passes over a program, as a run over a text makes them. -/
def passesOver (s : Settings) (cancelled : Nat → Bool) (found : Diagnostics) (program : List Statement) :
    Outcome :=
  resolve s cancelled program found (s.passLimit - 1) 1 ((predefined s).freeze .empty 0) #[]

/-- **Runs over a program and over the renamed one have the same outcome**: the same state, number of
    passes, code, listing and counts of diagnostics, and the same symbols under new names. -/
theorem renamed_run_same (s : Settings) (cancelled : Nat → Bool) (found : Diagnostics)
    (program : List Statement) (free : Statement.allScriptFree program = true) (r : Text → Text)
    (inj : Function.Injective r) (keeps : ∀ entry ∈ s.predefined, r entry.1 = entry.1) :
    Outcome.Image r (passesOver s cancelled found program)
      (passesOver s cancelled found (Statement.renameAll r program)) := by
  have empty : Table.Image r .empty .empty :=
    ⟨⟨fun name => by simp [Table.empty], by simp [Table.empty]⟩, rfl⟩
  exact resolve_image inj keeps free cancelled found _ _ ((predefined_image inj keeps).freeze empty 0) #[]

/-- The settings of a run with a predefined constant and a listing. -/
def baseSettings : Settings := { Settings.bare with predefined := [(bytes "base", 5)], listing := true }

/-- A program with a loop, a label that is used before it is defined, and a name that is not defined. -/
def loopProgram : List Statement := programOf baseSettings (bytes "a.asm")
  (bytes "loop: jp later\n dw base\nlater: ifdef loop\n djnz loop\n endif\n db none\n")

/-- The label of the loop takes the name of a label of a macro, and the other way round. -/
def loopRenaming : Text → Text := Equiv.swap (bytes "loop") (bytes "m>1.loop")

theorem renamed_run_same_loop : ∃ a' t',
    passesOver baseSettings neverCancelled [] (Statement.renameAll loopRenaming loopProgram) =
        .finished a' ∧
      a'.code = #[0xC3, 5, 0, 5, 0, 0x10, 0xF9, 0] ∧ a'.diagnostics.errors = 1 ∧
      a'.symbols = some t' ∧ t'.value? (bytes "m>1.loop") = some 0 := by
  have image := renamed_run_same baseSettings neverCancelled [] loopProgram (by decide +kernel)
    loopRenaming (Equiv.injective _) (by decide +kernel)
  obtain ⟨a, run, h⟩ := Outcome.exists_of_any
    (by decide +kernel : (passesOver baseSettings neverCancelled [] loopProgram).any
      (fun a => a.code = #[0xC3, 5, 0, 5, 0, 0x10, 0xF9, 0] ∧ a.diagnostics.errors = 1 ∧
        a.symbols.any (·.value? (bytes "loop") = some 0)) = true)
  obtain ⟨code, errors, known⟩ := of_decide_eq_true h
  obtain ⟨t, symbols, value⟩ := (Option.any_eq_true _ _).1 known
  rw [run] at image
  generalize passesOver _ _ _ (Statement.renameAll _ _) = outcome at image ⊢
  cases image with
  | @finished _ a' same =>
    have tables := same.symbols
    rw [symbols] at tables
    generalize found : a'.symbols = renamed at tables
    cases tables with
    | @some _ t' table =>
      have moved := table.value? (bytes "loop")
      rw [loopRenaming, Equiv.swap_apply_left, of_decide_eq_true value] at moved
      exact ⟨a', t', rfl, same.code.trans code, same.errors.trans errors, found, moved⟩

end Assembly

end Z80Asm
