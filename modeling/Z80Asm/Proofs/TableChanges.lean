import Mathlib.Order.Bounds.Defs
import Z80Asm.Proofs.Symbols

/-!
# Changes between tables

`Table.diff` lists the names on which two tables do not agree, and a symbol is dated by the table since which it has not
changed.
-/

namespace Z80Asm

namespace Table
variable {t u : Table} {name : Text}

theorem diff_ordered (t u : Table) : (t.diff u).Pairwise fun a b => compare a b = .lt :=
  Std.TreeMap.ordered_keys.filter _

theorem agreeOn_eq_false_iff : t.agreeOn u name = false ↔
    (t.get? name).isSome ≠ (u.get? name).isSome ∨ ∃ a b, t.get? name = some a ∧ u.get? name = some b ∧
      (a.value ≠ b.value ∨ a.defined ≠ b.defined ∨ a.scope ≠ b.scope) := by
  rw [Bool.eq_false_iff, ne_eq, agreeOn_iff]
  cases t.get? name <;> cases u.get? name <;> simp [imp_iff_not_or]

theorem diff_comm (t u : Table) : t.diff u = u.diff t := by
  refine List.Perm.eq_of_pairwise (fun a b _ _ ab ba => ?_) (diff_ordered t u) (diff_ordered u t)
    ((List.perm_ext_iff_of_nodup (nodup_diff t u) (nodup_diff u t)).2 fun name => ?_)
  · exact absurd ba (Std.OrientedCmp.not_lt_of_lt ab)
  · rw [mem_diff_iff, mem_diff_iff, agreeOn_comm]

theorem equal_iff : t.equal u = true ↔ ∀ name, t.agreeOn u name = true := by
  rw [equal, List.isEmpty_iff, diff_eq_nil_iff]

/-- **The difference of two tables is symmetric and exact**: in order, the names that only one of them holds or whose
    states differ.  To be without a difference is an equivalence of tables. -/
theorem diff_symmetric_difference :
    (∀ t u : Table, (t.diff u).Pairwise (fun a b => compare a b = .lt) ∧
      (∀ name, name ∈ t.diff u ↔ (t.get? name).isSome ≠ (u.get? name).isSome ∨
        ∃ a b, t.get? name = some a ∧ u.get? name = some b ∧
          (a.value ≠ b.value ∨ a.defined ≠ b.defined ∨ a.scope ≠ b.scope)) ∧
      t.diff u = u.diff t) ∧
    Equivalence fun t u : Table => t.equal u = true := by
  refine ⟨fun t u => ⟨diff_ordered t u, fun name => mem_diff_iff.trans agreeOn_eq_false_iff, diff_comm t u⟩,
    fun t => ?_, fun {t u} h => ?_, fun {t u v} tu uv => ?_⟩
  · rw [equal_iff]
    exact fun name => agreeOn_iff.2 rfl
  · rwa [equal, diff_comm]
  · rw [equal_iff] at *
    exact fun name => agreeOn_trans (uv name) (tu name)

end Table

namespace Ledger

/-! ## Dates -/

/-- The tables of ledgers, each dated against the one before it. -/
def tables (ledgers : Nat → Ledger) : Nat → Table
  | 0 => (ledgers 0).freeze .empty 0
  | n + 1 => (ledgers (n + 1)).freeze (tables ledgers n) (n + 1 : Nat)

/-- The numbers from which on up to `n` every table holds the name in the state of `s`. -/
def steady (ledgers : Nat → Ledger) (n : Nat) (name : Text) (s : Symbol) : Set Nat :=
  {k | k ≤ n ∧ ∀ j, k ≤ j → j ≤ n → ∃ r, (tables ledgers j).get? name = some r ∧ r.sameState s = true}

variable {ledgers : Nat → Ledger} {n : Nat} {name : Text} {s old : Symbol}

theorem self_mem_steady (h : (tables ledgers n).get? name = some s) : n ∈ steady ledgers n name s := by
  refine ⟨Nat.le_refl n, fun j lower upper => ?_⟩
  obtain rfl := Nat.le_antisymm upper lower
  exact ⟨s, h, Symbol.sameState_iff.2 ⟨rfl, rfl, rfl⟩⟩

/-- A symbol that is in its state before has been in it as long as before. -/
theorem mem_steady_succ (found : (tables ledgers (n + 1)).get? name = some s) (same : old.sameState s = true) {k : Nat} :
    k ∈ steady ledgers (n + 1) name s ↔ k ∈ steady ledgers n name old ∨ k = n + 1 := by
  have alike (r : Symbol) : r.sameState s = true ↔ r.sameState old = true := by
    simp only [Symbol.sameState_iff] at same ⊢
    rw [same.1, same.2.1, same.2.2]
  constructor
  · rintro ⟨le, held⟩
    refine (Nat.le_or_eq_of_le_succ le).imp_left fun le => ⟨le, fun j lower upper => ?_⟩
    obtain ⟨r, hr, state⟩ := held j lower (Nat.le_succ_of_le upper)
    exact ⟨r, hr, (alike r).1 state⟩
  · rintro (⟨le, held⟩ | rfl)
    · refine ⟨Nat.le_succ_of_le le, fun j lower upper => ?_⟩
      rcases Nat.le_or_eq_of_le_succ upper with upper | rfl
      · obtain ⟨r, hr, state⟩ := held j lower upper
        exact ⟨r, hr, (alike r).2 state⟩
      · exact (self_mem_steady found).2 _ (Nat.le_refl _) (Nat.le_refl _)
    · exact self_mem_steady found

/-- **A symbol is dated by the first table since which it has not changed.** -/
theorem pass_isLeast (h : (tables ledgers n).get? name = some s) :
    ∃ k : Nat, s.pass = k ∧ IsLeast (steady ledgers n name s) k := by
  induction n generalizing s with
  | zero =>
    refine ⟨0, ?_, self_mem_steady h, fun k _ => Nat.zero_le k⟩
    rw [tables, freeze_get?, Option.map_eq_some_iff] at h
    obtain ⟨entry, -, rfl⟩ := h
    rfl
  | succ n ih =>
    have dated := h
    rw [tables, freeze_get?, Option.map_eq_some_iff] at dated
    obtain ⟨entry, -, rfl⟩ := dated
    by_cases stays : ∃ old, (tables ledgers n).get? name = some old ∧ old.sameState entry = true
    · obtain ⟨old, before, same⟩ := stays
      obtain ⟨k, pass, mem, least⟩ := ih before
      have moved {k'} := mem_steady_succ h (k := k') (by simpa [Symbol.sameState] using same)
      refine ⟨k, by simp [datedSymbol, before, same, pass], moved.2 (.inl mem), fun k' mem' => ?_⟩
      rcases moved.1 mem' with mem' | rfl
      · exact least mem'
      · exact Nat.le_succ_of_le mem.1
    · refine ⟨n + 1, ?_, self_mem_steady h, fun k mem => ?_⟩
      · simp only [datedSymbol]
        split
        next old before => exact if_neg fun same => stays ⟨old, before, same⟩
        next => rfl
      · by_contra lt
        obtain ⟨r, hr, state⟩ := mem.2 n (by omega) (by omega)
        exact stays ⟨r, hr, by simpa [Symbol.sameState] using state⟩

/-- A value that is given up for one table and comes back is dated anew. -/
theorem pass_isLeast_returning :
    ∃ ledgers s, (tables ledgers 3).get? [120] = some s ∧ s.value = 1 ∧ s.pass = 2 ∧
      ((tables ledgers 0).get? [120]).map (·.value) = some 1 ∧ IsLeast (steady ledgers 3 [120] s) 2 := by
  let ledgers (n : Nat) : Ledger :=
    { symbols := (∅ : SymbolMap).insert [120] { name := [120], value := if n = 1 then 2 else 1 }, limit := 1 }
  have found : (tables ledgers 3).get? [120] = some { name := [120], value := 1, pass := 2 } := by decide
  obtain ⟨k, pass, least⟩ := pass_isLeast found
  obtain rfl : 2 = k := Int.ofNat.inj pass
  exact ⟨ledgers, _, found, rfl, rfl, by decide, least⟩

end Ledger

end Z80Asm
