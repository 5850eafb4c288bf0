import Z80Asm.Proofs.Passes
import Z80Asm.Proofs.SameShape

/-!
# How many passes a program needs

The walks over a steady program have the same shape, so the first pass already finds all addresses and
sizes.  The values of constants follow one after the other: after each pass, the constants of one more
depth have their values.  If no constant refers to itself, the passes come to an end after the deepest.
-/

namespace Z80Asm.Assembly

variable {m n : Nat} {settled readable : Text → Prop}

def Undefined (s : Settings) (program : List Statement) (name : Text) : Prop :=
  ¬ (predefined s).Defines name ∧ ∀ statement ∈ program, ¬ (statement.defines? name).isSome

variable {s : Settings} {program : List Statement}

theorem walked_defines (going : (walked s program n).stop = none) {name : Text} (known : ¬ Undefined s program name) :
    (walked s program n).ledger.Defines name := by
  simp only [Undefined, not_and_or, not_not, not_forall] at known
  rcases known with known | ⟨statement, mem, defines⟩
  · exact (Walk.steps_moves _ program { ledger := predefined s }).defines known
  · exact Walk.defines_of_steps ⟨statement, mem, defines⟩ going

section
variable (steady : ∀ statement ∈ program, statement.isSteady = true)
include steady

/-- Two passes have walks of the same shape, and the same values for constants that rest on what both
    find alike. -/
theorem walked_sameShape
    (reads : Walk.SameReads (Undefined s program) readable (passOf s program n) (passOf s program m))
    (based : ∀ name, settled name → ∀ x ∈ references program name, readable x) :
    Walk.SameShape (Undefined s program) settled (walked s program n) (walked s program m) := by
  have orderly : Walk.Orderly { ledger := predefined s } := ⟨rfl, by simp, by simp⟩
  refine Walk.SameShape.steps reads ?_ steady ?_
  · exact ⟨orderly, orderly, rfl, rfl, rfl, rfl, rfl, rfl, fun _ => Iff.rfl, fun _ h => h.1,
      fun _ _ => rfl, fun _ _ _ => rfl⟩
  · refine ⟨fun statement mem name defines fresh => fresh.2 statement mem defines, ?_⟩
    intro name fixed
    refine .inr fun names found => ?_
    have all := based name fixed
    rwa [references, Option.mem_def.1 found, Option.getD_some] at all

theorem table_value?_of_undefined : ∀ (n : Nat) (name : Text), Undefined s program name →
    (table s program n).value? name = none
  | 0, _, fresh => Ledger.freeze_value?_of_not_defines fresh.1
  | n + 1, name, fresh => by
    have before := table_value?_of_undefined n
    have shape : Walk.SameShape (Undefined s program) (fun _ => False) (walked s program (n + 1))
        (walked s program (n + 1)) :=
      walked_sameShape steady ⟨fun _ (_ : True) => rfl, before, before⟩ fun _ h => h.elim
    exact Ledger.freeze_value?_of_not_defines (shape.undefined name fresh)

theorem sameReads (agree : ∀ name, readable name → (table s program n).agreeOn (table s program m) name = true) :
    Walk.SameReads (Undefined s program) readable (passOf s program (n + 1)) (passOf s program (m + 1)) where
  values name h := Table.value?_eq_of_agreeOn (agree name h)
  left := table_value?_of_undefined steady n
  right := table_value?_of_undefined steady m

theorem walked_orderly (n : Nat) : (walked s program (n + 1)).Orderly := by
  have shape : Walk.SameShape (Undefined s program) (fun _ => False) (walked s program (n + 1))
      (walked s program (n + 1)) :=
    walked_sameShape steady (sameReads steady fun name (h : False) => h.elim) fun _ h => h.elim
  exact shape.left

theorem table_agreeOn_succ (going : (walked s program (n + 1)).stop = none)
    (agree : ∀ name, readable name → (table s program n).agreeOn (table s program (n + 1)) name = true)
    (based : ∀ name, settled name → ∀ x ∈ references program name, readable x) :
    (∀ name, settled name → (table s program (n + 1)).agreeOn (table s program (n + 2)) name = true) ∧
    (walked s program (n + 1)).sizes = (walked s program (n + 2)).sizes := by
  have shape := walked_sameShape steady (sameReads steady agree) based
  refine ⟨fun name fixed => ?_, shape.sizes⟩
  rw [table_succ, table_succ]
  refine Ledger.freeze_agreeOn_freeze _ _ _ _ ?_
  by_cases fresh : Undefined s program name
  · exact shape.unknown name fresh
  · exact shape.known name fixed (walked_defines going fresh)

/-- **Each pass settles the constants of one more depth.** -/
theorem table_agreeOn (acyclic : Acyclic program) : ∀ (k : Nat),
    (∀ i, i < k → (walked s program (i + 1)).stop = none) → ∀ name, depth program name < k →
      (table s program k).agreeOn (table s program (k + 1)) name = true
  | 0, _, _, shallow => absurd shallow (Nat.not_lt_zero _)
  | k + 1, going, name, shallow => by
    -- the two passes read tables that agree one depth further down
    have before := table_agreeOn acyclic k fun i lt => going i (Nat.lt_succ_of_lt lt)
    have based : ∀ name, depth program name < k + 1 → ∀ x ∈ references program name, depth program x < k := by
      intro name shallow x hx
      have deeper := depth_lt_of_mem acyclic hx
      omega
    exact (table_agreeOn_succ steady (going k (Nat.lt_succ_self k)) before based).1 name shallow

/-- A pass two past the largest depth changes neither a symbol nor a size. -/
theorem settled_of_acyclic (acyclic : Acyclic program)
    (going : ∀ i, i ≤ largestDepth program → (walked s program (i + 1)).stop = none) :
    Settled s program (largestDepth program + 2) := by
  have before := table_agreeOn steady acyclic (largestDepth program) fun i lt => going i lt.le
  have based : ∀ name, True → ∀ x ∈ references program name,
      depth program x < largestDepth program := fun name _ x hx =>
    (depth_lt_of_mem acyclic hx).trans_le (depth_le_largestDepth acyclic name)
  obtain ⟨agree, sizes⟩ := table_agreeOn_succ steady (going _ le_rfl) before based
  refine ⟨Table.diff_eq_nil_iff.2 fun name => ?_, sizes.symm⟩
  rw [Table.agreeOn_comm]
  exact agree name trivial

theorem Ending.of_acyclic (acyclic : Acyclic program) {cancelled : Nat → Bool} {found : Diagnostics} {last : Nat}
    {outcome : Outcome} (room : largestDepth program + 2 ≤ last) (pos : 0 < m)
    (before : ∀ i, 0 < i → i < m → Passed s program cancelled i) (ordinary : ∀ d ∈ found, d.IsOrdinary)
    (ends : Ending s program cancelled found last m outcome) :
    ∃ r, outcome = .finished r ∧ r.passes ≤ largestDepth program + 2 ∧
      (∀ d ∈ r.diagnostics, d.IsOrdinary) ∧
      (r.passes = 0 ∨ r.state = .resourceExceeded ∨ Settled s program r.passes) := by
  have settles : largestDepth program + 2 ≤ m → Settled s program (largestDepth program + 2) :=
    fun le => settled_of_acyclic steady acyclic fun i hi => (before (i + 1) (by omega) (by omega)).going
  have le : m ≤ largestDepth program + 2 := by
    by_contra lt
    exact (before _ (by omega) (by omega)).unsettled (settles (by omega))
  obtain ⟨n, rfl⟩ : ∃ n, m = n + 1 := ⟨m - 1, by omega⟩
  have walk : (walked s program (n + 1)).Orderly := walked_orderly steady n
  have reported : ∀ d ∈ found ++ (walked s program (n + 1)).diagnostics.toList, d.IsOrdinary := by
    intro d hd
    rcases List.mem_append.1 hd with hd | hd
    · exact ordinary d hd
    · exact walk.reports d hd
  cases ends with
  | cancelled h =>
    refine ⟨_, rfl, by simp only [aborted]; omega, ?_, .inr (.inl rfl)⟩
    intro d hd
    rcases List.mem_append.1 hd with hd | hd
    · exact ordinary d hd
    · obtain rfl := List.mem_singleton.1 hd
      rintro _ ⟨⟩
      exact .about (by decide) _
  | outOfBounds h => exact absurd h walk.stop
  | limit h =>
    obtain ⟨_, _, rfl⟩ := (Walk.steps_moves _ _ _).stop_limit rfl h
    refine ⟨_, rfl, le, ?_, .inr (.inl rfl)⟩
    intro d hd
    rcases List.mem_append.1 hd with hd | hd
    · exact ordinary d hd
    · obtain rfl := List.mem_singleton.1 hd
      rintro _ ⟨⟩
      simp [Fault.IsOrdinary, Fault.cause?]
  | settled going h => exact ⟨_, rfl, le, reported, .inr (.inr h)⟩
  | exhausted going h full =>
    obtain rfl : n = largestDepth program + 1 := by omega
    exact absurd (settles le_rfl) h

end

/-- **A program without blocks, whose constants form no cycle, settles** by the pass two past the
    depth of its deepest constant.  A run over it finishes, and reports nothing as unstable. -/
theorem acyclic_passes_le (s : Settings) (cancelled : Nat → Bool) (file data : Text)
    (steady : ∀ statement ∈ programOf s file data, statement.isSteady = true)
    (acyclic : Acyclic (programOf s file data))
    (room : largestDepth (programOf s file data) + 2 ≤ s.passLimit) :
    ∃ r, assembleText s cancelled file data = .finished r ∧
      r.passes ≤ largestDepth (programOf s file data) + 2 ∧
      (∀ d ∈ r.diagnostics, d.IsOrdinary) ∧
      (r.passes = 0 ∨ r.state = .resourceExceeded ∨
        Settled s (programOf s file data) r.passes) := by
  have source : ∀ d ∈ reports s file data, d.IsOrdinary := fun d hd =>
    (reports_source s file data d hd).isOrdinary
  rcases assembleText_cases s cancelled file data with ⟨found, fault, sub, early⟩ | resolves
  · exact ⟨_, early, Nat.zero_le _, fun d hd => source d (sub.subset hd), .inl rfl⟩
  · obtain ⟨m, pos, -, before, ends⟩ := resolve_ending s (programOf s file data) cancelled
      (reports s file data) (s.passLimit - 1) 0
    rw [resolves]
    exact ends.of_acyclic steady acyclic (by omega) pos before source

/-- Each constant is used before it is defined, and rests on the next one. -/
def chainSource : Text :=
  bytes "third equ second+1\nsecond equ first+1\nfirst equ end+1\n ld a,third\n dw third\nend:\n"

/-- A chain of three constants settles in five passes. -/
theorem acyclic_passes_le_chain :
    Acyclic (programOf .bare (bytes "a.asm") chainSource) ∧
    largestDepth (programOf .bare (bytes "a.asm") chainSource) = 3 ∧
      ∃ r, assembleText .bare neverCancelled (bytes "a.asm") chainSource = .finished r ∧
        r.passes ≤ 5 ∧ ∀ d ∈ r.diagnostics, d.IsOrdinary := by
  have acyclic : Acyclic (programOf .bare (bytes "a.asm") chainSource) := by decide +kernel
  have deepest : largestDepth (programOf .bare (bytes "a.asm") chainSource) = 3 := by decide +kernel
  obtain ⟨r, run, passes, ordinary, -⟩ := acyclic_passes_le .bare neverCancelled (bytes "a.asm")
    chainSource (by decide +kernel) acyclic (by rw [deepest]; decide)
  rw [deepest] at passes
  exact ⟨acyclic, deepest, r, run, passes, ordinary⟩

-- Four passes would not do.
example : (assembleText .bare neverCancelled (bytes "a.asm") chainSource).any (·.passes = 5) = true := by
  decide +kernel

end Z80Asm.Assembly
