import Z80Asm.Assembly
import Z80Asm.Proofs.Reports
import Z80Asm.Proofs.Trace

/-!
# The sequence of passes

The passes over a program follow from the settings and the program alone: the table after pass `n` is
`table s program n`, and the walk of pass `n` is `walked s program n`.  A run goes through this sequence
up to the pass at which it ends.
-/

namespace Z80Asm

open List

variable {data file : Text} {r : Result} {cancelled : Nat → Bool}

/-- The settings of a run that is told nothing and finds no files. -/
def Settings.bare : Settings := { read := fun _ => .error (.plain .fileAccess) }

theorem Settings.passLimit_pos (s : Settings) : 0 < s.passLimit := by
  unfold Settings.passLimit
  split <;> omega

def Outcome.any (check : Result → Bool) : Outcome → Bool
  | .finished r => check r
  | .outOfBounds => false

theorem Outcome.exists_of_any {check : Result → Bool} {o : Outcome} (h : o.any check = true) :
    ∃ r, o = .finished r ∧ check r = true := by
  cases o with
  | finished r => exact ⟨r, rfl, h⟩
  | outOfBounds => cases h

namespace Assembly

variable (s : Settings) (program : List Statement)

/-- The table after a number of passes; before the first one it holds the predefined constants. -/
def table : Nat → Table
  | 0 => (predefined s).freeze .empty 0
  | n + 1 =>
    (Pass.walk { index := n + 1, prev := table n, listing := s.listing } (predefined s)
      program).ledger.freeze (table n) (n + 1)

/-- The pass of a number, counted from one: it reads the table that the passes before it left. -/
def passOf (n : Nat) : Pass := { index := n, prev := table s program (n - 1), listing := s.listing }

def walked (n : Nat) : Walk := (passOf s program n).walk (predefined s) program

def visitsOf (p : Pass) : List Visit := Walk.visits p program { ledger := predefined s }

theorem table_succ (n : Nat) :
    table s program (n + 1) = (walked s program (n + 1)).ledger.freeze (table s program n) (n + 1) :=
  rfl

/-- The sizes that a pass compares its own with: those of the pass before, none for the first one. -/
def sizesOf : Nat → Array Nat
  | 0 => #[]
  | n + 1 => (walked s program (n + 1)).sizes

/-- Pass `n` changes neither the state of a symbol nor the size of a statement. -/
def Settled (n : Nat) : Prop :=
  (table s program n).diff (table s program (n - 1)) = [] ∧
    sizesOf s program n = sizesOf s program (n - 1)

/-- A run goes on after pass `n`. -/
structure Passed (cancelled : Nat → Bool) (n : Nat) : Prop where
  wanted : cancelled n = false
  going : (walked s program n).stop = none
  unsettled : ¬ Settled s program n

/-- How a run ends at pass `n`, which may be at most pass `last`. -/
inductive Ending (cancelled : Nat → Bool) (found : Diagnostics) (last n : Nat) : Outcome → Prop
  | cancelled (h : cancelled n = true) : Ending cancelled found last n
      (.finished (aborted (n - 1) found (.about .cancelled (bytes "context canceled"))))
  | outOfBounds (h : (walked s program n).stop = some .outOfBounds) :
      Ending cancelled found last n .outOfBounds
  | limit {d : Diagnostic} (h : (walked s program n).stop = some (.limit d)) :
      Ending cancelled found last n (.finished {
        passes := n, symbols := some (table s program (n - 1)), diagnostics := found ++ [d]
        fault := d.fault })
  | settled (going : (walked s program n).stop = none) (h : Settled s program n) :
      Ending cancelled found last n (.finished (final n (walked s program n) (table s program n)
        (found ++ (walked s program n).diagnostics.toList)))
  | exhausted (going : (walked s program n).stop = none) (h : ¬ Settled s program n)
      (full : n = last) :
      Ending cancelled found last n (.finished (final n (walked s program n) (table s program n)
        (found ++ (walked s program n).diagnostics.toList ++
          unstable n (table s program n) ((table s program n).diff (table s program (n - 1))))))

variable {s program}

theorem resolve_of_wanted {cancelled : Nat → Bool} {n : Nat} (wanted : cancelled (n + 1) = false)
    (found : Diagnostics) (left : Nat) :
    resolve s cancelled program found left (n + 1) (table s program n) (sizesOf s program n) =
      match (walked s program (n + 1)).stop with
      | some .outOfBounds => .outOfBounds
      | some (.limit d) => .finished {
          passes := n + 1, symbols := some (table s program n), diagnostics := found ++ [d]
          fault := d.fault }
      | none =>
        if ((table s program (n + 1)).diff (table s program n)).isEmpty &&
            (walked s program (n + 1)).sizes == sizesOf s program n then
          .finished (final (n + 1) (walked s program (n + 1)) (table s program (n + 1))
            (found ++ (walked s program (n + 1)).diagnostics.toList))
        else match left with
          | 0 => .finished (final (n + 1) (walked s program (n + 1)) (table s program (n + 1))
              (found ++ (walked s program (n + 1)).diagnostics.toList ++
                unstable (n + 1) (table s program (n + 1)) ((table s program (n + 1)).diff (table s program n))))
          | left + 1 => resolve s cancelled program found left (n + 2) (table s program (n + 1))
              (sizesOf s program (n + 1)) := by
  rw [resolve, if_neg (by simp [wanted])]
  rfl

/-- What one pass of a run comes to: the run ends with it, or goes on with the next one. -/
theorem resolve_step (cancelled : Nat → Bool) (found : Diagnostics) (left n : Nat) :
    Ending s program cancelled found (n + 1 + left) (n + 1)
        (resolve s cancelled program found left (n + 1) (table s program n) (sizesOf s program n)) ∨
      Passed s program cancelled (n + 1) ∧ ∃ fewer, left = fewer + 1 ∧
        resolve s cancelled program found left (n + 1) (table s program n) (sizesOf s program n) =
          resolve s cancelled program found fewer (n + 2) (table s program (n + 1)) (sizesOf s program (n + 1)) := by
  have settled_iff : (((table s program (n + 1)).diff (table s program n)).isEmpty &&
      (walked s program (n + 1)).sizes == sizesOf s program n) = true ↔ Settled s program (n + 1) := by
    simp [Settled, sizesOf]
  by_cases off : cancelled (n + 1) = true
  · rw [resolve, if_pos off]
    exact .inl (.cancelled off)
  simp only [Bool.not_eq_true] at off
  rw [resolve_of_wanted off]
  cases going : (walked s program (n + 1)).stop with
  | some stop =>
    cases stop with
    | outOfBounds => exact .inl (.outOfBounds going)
    | limit d => exact .inl (.limit going)
  | none =>
    by_cases settled : Settled s program (n + 1)
    · simp only [settled_iff.2 settled, if_true]
      exact .inl (.settled going settled)
    · simp only [mt settled_iff.1 settled]
      cases left with
      | zero => exact .inl (.exhausted going settled rfl)
      | succ fewer => exact .inr ⟨⟨off, going, settled⟩, fewer, rfl, rfl⟩

section
variable (s : Settings) (program : List Statement) (cancelled : Nat → Bool)

/-- **A run ends in one of the five ways**, after passes that left something unsettled. -/
theorem resolve_ending (found : Diagnostics) (left n : Nat) :
    ∃ m, n < m ∧ m ≤ n + 1 + left ∧ (∀ i, n < i → i < m → Passed s program cancelled i) ∧
      Ending s program cancelled found (n + 1 + left) m
        (resolve s cancelled program found left (n + 1) (table s program n) (sizesOf s program n)) := by
  induction left generalizing n with
  | zero =>
    rcases resolve_step cancelled found 0 n with ends | ⟨_, _, none_left, _⟩
    · exact ⟨n + 1, by omega, by omega, fun i _ _ => by omega, ends⟩
    · omega
  | succ left ih =>
    rcases resolve_step cancelled found (left + 1) n with ends | ⟨passed, fewer, e, next⟩
    · exact ⟨n + 1, by omega, by omega, fun i _ _ => by omega, ends⟩
    · obtain rfl : fewer = left := by omega
      obtain ⟨m, lt, le, before, ends⟩ := ih (n + 1)
      rw [next]
      refine ⟨m, by omega, by omega, fun i hi hm => ?_, ?_⟩
      · rcases Nat.lt_or_ge (n + 1) i with later | now
        · exact before i later hm
        · obtain rfl : i = n + 1 := by omega
          exact passed
      · rwa [show n + 1 + (fewer + 1) = n + 1 + 1 + fewer by omega]

/-- **A run ends at a pass** within the limit, after passes that went on. -/
theorem run_ending (found : Diagnostics) :
    ∃ n, 0 < n ∧ n ≤ s.passLimit ∧ (∀ i, 0 < i → i < n → Passed s program cancelled i) ∧
      Ending s program cancelled found s.passLimit n
        (resolve s cancelled program found (s.passLimit - 1) 1 (table s program 0) (sizesOf s program 0)) := by
  have pos := s.passLimit_pos
  have last : 0 + 1 + (s.passLimit - 1) = s.passLimit := by omega
  have ends := resolve_ending s program cancelled found (s.passLimit - 1) 0
  rwa [last] at ends

/-! ## Predefined constants -/

/-- What holds of the empty ledger and is kept by the definition of a constant holds of the ledger that
    each pass starts with. -/
theorem predefined_induction {P : Ledger → Prop} (s : Settings) (new : P (.new s.labelLimit))
    (define : ∀ l l' name value, (name, value) ∈ Sorted.entries s.predefined → P l →
      l.define { name, value, scope := .predefined, seq := -1 } = .ok l' → P l') :
    P (predefined s) := by
  unfold predefined
  generalize Ledger.new s.labelLimit = l at new
  generalize Sorted.entries s.predefined = entries at define
  induction entries generalizing l with
  | nil => exact new
  | cons entry rest ih =>
    obtain ⟨name, value⟩ := entry
    rw [foldl_cons]
    refine ih _ ?_ fun l l' name value mem => define l l' name value (mem_cons_of_mem _ mem)
    dsimp only
    split
    next l' h => exact define l l' name value mem_cons_self new h
    next => exact new

/-- The entries that each pass starts with are those of predefined constants. -/
theorem predefined_entry {s : Settings} {name : Text} {t : Symbol} (found : (predefined s).symbols[name]? = some t) :
    ∃ value, (name, value) ∈ Sorted.entries s.predefined ∧
      t = { name, value, defined := true, scope := .predefined, seq := -1 } := by
  refine predefined_induction (P := fun l => ∀ (name : Text) (t : Symbol), l.symbols[name]? = some t →
    ∃ value, (name, value) ∈ Sorted.entries s.predefined ∧
      t = { name, value, defined := true, scope := .predefined, seq := -1 }) s (by simp [Ledger.new]) ?_ name t found
  intro l l' name value mem before entered other t found
  by_cases same : name = other
  · subst same
    rw [Ledger.get?_of_define_new entered (by simp), Option.some_inj] at found
    exact ⟨value, mem, found.symm⟩
  · rw [Ledger.get?_of_define_ne entered same] at found
    exact before other t found

theorem predefined_named : (predefined s).Named := by
  intro name t found
  obtain ⟨_, -, rfl⟩ := predefined_entry found
  rfl

theorem walked_named (n : Nat) : (walked s program n).ledger.Named :=
  (Walk.steps_moves _ program _).named (predefined_named s)

theorem table_named : ∀ n, (table s program n).Named
  | 0 => (predefined_named s).freeze _ _
  | n + 1 => (walked_named s program (n + 1)).freeze _ _

end

/-! ## Runs over a text -/

def programOf (s : Settings) (file data : Text) : List Statement :=
  (Program.build s (Macro.expand s Macro.depthLimit
    (Source.load s Source.includeLimit file data {}).lines.toList {}).lines.toList).program

def reports (s : Settings) (file data : Text) : Diagnostics :=
  let loaded := Source.load s Source.includeLimit file data {}
  let expanded := Macro.expand s Macro.depthLimit loaded.lines.toList {}
  let built := Program.build s expanded.lines.toList
  loaded.diagnostics.toList ++ expanded.diagnostics.toList ++ built.diagnostics.toList

theorem reports_source (s : Settings) (file data : Text) : ∀ d ∈ reports s file data, SourceReport d := by
  intro d hd
  simp only [reports, mem_append] at hd
  rcases hd with (hd | hd) | hd
  · exact ((Source.load_steps (s := s) (fun _ => id) _ file data {}).wellKept WellKept.empty).source d hd
  · exact (Macro.expand_reports s _ _ {} WellKept.empty).source d hd
  · exact (Program.build_reports s _).source d hd

/-- A run over a text ends before the passes with a fault, or resolves the program of the text. -/
theorem assembleText_cases (s : Settings) (cancelled : Nat → Bool) (file data : Text) :
    (∃ found fault, found <+: reports s file data ∧ assembleText s cancelled file data =
      .finished { diagnostics := found, fault := some fault }) ∨
    assembleText s cancelled file data =
      resolve s cancelled (programOf s file data) (reports s file data) (s.passLimit - 1) 1
        (table s (programOf s file data) 0) (sizesOf s (programOf s file data) 0) := by
  simp only [assembleText]
  split
  · exact .inl ⟨_, _, ⟨_, (append_assoc _ _ _).symm⟩, rfl⟩
  · split
    · exact .inl ⟨_, _, prefix_refl _, rfl⟩
    · exact .inr rfl

theorem Result.fault_eq_none (stable : r.state = .stable) : r.fault = none := by
  unfold Result.state State.ofFault at stable
  split at stable
  · assumption
  · split at stable <;> cases stable

theorem compileFault?_eq_none_iff {ds : Diagnostics} : compileFault? ds = none ↔ ∀ d ∈ ds, d.isError = false := by
  simp [compileFault?, Diagnostics.errors, countP_eq_zero]

theorem unstable_isError (n : Nat) (next : Table) (changed : List Text) :
    ∃ d ∈ unstable n next changed, d.isError = true := by
  unfold unstable
  cases changed with
  | nil => simp [Diagnostic.of, Diagnostic.isError]
  | cons name rest => simp [Diagnostic.of, Diagnostic.isError]

/-- Pass `n` is settled and without errors, and `r` is its result. -/
structure Converged (s : Settings) (program : List Statement) (n : Nat) (r : Result) : Prop where
  pos : 0 < n
  settled : Settled s program n
  clean : (walked s program n).Clean
  passes : r.passes = n
  code : r.code = (walked s program n).code
  symbols : r.symbols = some (table s program n)

/-- **A run that finishes** ended before its passes, or at one of them. -/
theorem finished_cases {s : Settings} (run : assembleText s cancelled file data = .finished r) :
    (∃ found fault, r = { diagnostics := found, fault := some fault }) ∨
      ∃ n, 0 < n ∧ n ≤ s.passLimit ∧ Ending s (programOf s file data) cancelled (reports s file data) s.passLimit n
        (.finished r) := by
  rcases assembleText_cases s cancelled file data with ⟨found, fault, -, early⟩ | resolves
  · rw [early] at run
    cases run
    exact .inl ⟨found, fault, rfl⟩
  · obtain ⟨n, pos, le, -, ends⟩ := run_ending s (programOf s file data) cancelled (reports s file data)
    rw [← resolves, run] at ends
    exact .inr ⟨n, pos, le, ends⟩

/-- **Only a settled pass without errors makes a run stable**, and the result is that pass's. -/
theorem Ending.of_stable {s : Settings} {program : List Statement} {found : Diagnostics} {last n : Nat}
    (h : Ending s program cancelled found last n (.finished r)) (stable : r.state = .stable) :
    (walked s program n).stop = none ∧ Settled s program n ∧
      (∀ d ∈ found ++ (walked s program n).diagnostics.toList, d.isError = false) ∧
      r = final n (walked s program n) (table s program n) (found ++ (walked s program n).diagnostics.toList) := by
  have fine := Result.fault_eq_none stable
  cases h with
  | cancelled => cases fine
  | limit stop =>
    obtain ⟨_, _, rfl⟩ := (Walk.steps_moves _ _ _).stop_limit rfl stop
    cases fine
  | settled going settled => exact ⟨going, settled, compileFault?_eq_none_iff.1 fine, rfl⟩
  | exhausted =>
    obtain ⟨d, reported, error⟩ := unstable_isError n (table s program n)
      ((table s program n).diff (table s program (n - 1)))
    have clean := compileFault?_eq_none_iff.1 fine d (mem_append_right _ reported)
    cases error.symm.trans clean

/-- **A run that is stable ended at a settled pass without errors**, and its result is that pass's. -/
theorem stable_converged {s : Settings} (run : assembleText s cancelled file data = .finished r)
    (stable : r.state = .stable) : Converged s (programOf s file data) r.passes r := by
  rcases finished_cases run with ⟨found, fault, rfl⟩ | ⟨n, pos, -, ends⟩
  · cases Result.fault_eq_none stable
  · obtain ⟨going, settled, clean, rfl⟩ := ends.of_stable stable
    exact ⟨pos, settled, ⟨going, fun d hd => clean d (mem_append_right _ hd)⟩, rfl, rfl, rfl⟩

end Assembly

end Z80Asm
