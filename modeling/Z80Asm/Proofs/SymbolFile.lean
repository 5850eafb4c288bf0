import Z80Asm.Proofs.Outcomes
import Z80Asm.Proofs.SymbolRows

/-!
# Symbol files

The symbol file of a result holds its global symbols as definitions.  To assemble it again gives these symbols
back, with the last 32 bits of their values, exactly if every value starts with a decimal digit and no name has a
byte of the other dialect.
-/

namespace Z80Asm

open Table Z80Asm.Symbol List Ledger

variable {xs : List Symbol} {x : Symbol} {n : Nat} {name file : Text} {dialect : Dialect} {s : Settings} {q : Equation}

/-! ## Global symbols -/

namespace Table

def globals (t : Table) : List Symbol := t.definedList.filter (·.scope == .global)

def global? (t : Table) (name : Text) : Option Nat :=
  ((t.get? name).filter fun x => x.defined && x.scope == .global).map Symbol.shown

theorem equates_flatten (t : Table) : t.equates.flatten = ((t.globals.map row).map (· ++ [0x0A])).flatten := by
  have ending : bytes "h\n" = bytes "h" ++ [0x0A] := by decide
  unfold equates globals
  rw [map_map]
  congr 2
  funext x
  simp [row, numeral, ending]

variable {t : Table}

theorem global?_eq_some :
    t.global? name = some n ↔ ∃ x, t.get? name = some x ∧ x.defined = true ∧ x.scope = .global ∧ x.shown = n := by
  simp [global?, Option.map_eq_some_iff, Option.filter_eq_some_iff, and_assoc]

theorem shown_of_value? {v : Int64} (isGlobal : t.global? name = some n)
    (isValue : t.value? name = some v) : v.toUInt64.toNat % 2 ^ 32 = n := by
  obtain ⟨x, found, -, -, shown⟩ := global?_eq_some.1 isGlobal
  obtain ⟨y, found', -, rfl⟩ := value?_eq_some_iff.1 isValue
  obtain rfl := Option.some.inj (found'.symm.trans found)
  exact shown

namespace Named

variable (named : t.Named)
include named

theorem mem_globals : x ∈ t.globals ↔ t.get? x.name = some x ∧ x.defined = true ∧ x.scope = .global := by
  rw [globals, Table.definedList, List.mem_filter, List.mem_filter, mem_toList_iff, beq_iff_eq, and_assoc]
  constructor
  · rintro ⟨⟨key, found⟩, defined, scope⟩
    obtain rfl := named key x found
    exact ⟨found, defined, scope⟩
  · rintro ⟨found, defined, scope⟩
    exact ⟨⟨x.name, found⟩, defined, scope⟩

theorem global?_eq_some_of_mem (mem : x ∈ t.globals) : t.global? x.name = some x.shown :=
  global?_eq_some.2 ⟨x, (named.mem_globals.1 mem).1, (named.mem_globals.1 mem).2.1, (named.mem_globals.1 mem).2.2, rfl⟩

theorem mem_globals_of_global? (h : t.global? name = some n) : ∃ x ∈ t.globals, x.name = name ∧ x.shown = n := by
  obtain ⟨x, found, defined, scope, shown⟩ := global?_eq_some.1 h
  obtain rfl := named name x found
  exact ⟨x, named.mem_globals.2 ⟨found, defined, scope⟩, rfl, shown⟩

theorem globals_ordered : t.globals.Pairwise fun x y => compare x.name y.name = .lt := by
  have entries : t.symbols.toList.Pairwise fun a b => compare a.1 b.1 = .lt := Std.TreeMap.ordered_keys_toList
  have names : ∀ e ∈ t.symbols.toList, e.2.name = e.1 := fun e mem =>
    named e.1 e.2 (Std.TreeMap.mem_toList_iff_getElem?_eq_some.1 mem)
  have symbols : t.toList.Pairwise fun x y => compare x.name y.name = .lt := by
    rw [toList_eq_map, pairwise_map]
    refine entries.imp_of_mem fun {a b} memA memB lt => ?_
    rwa [names a memA, names b memB]
  exact (symbols.filter _).filter _

theorem globals_nodup : (t.globals.map (·.name)).Nodup := by
  rw [nodup_iff_pairwise_ne, pairwise_map]
  refine named.globals_ordered.imp fun {x y} lt same => ?_
  have self : compare y.name y.name = .eq := Std.ReflCmp.compare_self
  rw [same, self] at lt
  cases lt

/-- A dot comes before every other byte that a word starts with. -/
theorem globals_listed (labels : ∀ x ∈ t.globals, Program.IsLabel x.name) : Listed t.globals := by
  refine ⟨labels, named.globals_ordered.imp_of_mem fun {x y} mem _ lt isLocal => ?_⟩
  have least (b : UInt8) : Lex.isWordStart b → compare b '.'.toUInt8 ≠ .gt → b = '.'.toUInt8 := by
    revert b
    exact Lex.byte_cases (by decide +kernel)
  obtain ⟨start, stem, name, isStart, -⟩ := (labels x mem).word
  obtain ⟨more, name'⟩ := head?_eq_some_iff.1 isLocal
  rw [name, name', List.compare_cons_cons] at lt
  rw [name, head?_cons, Option.some.injEq]
  refine least start isStart fun gt => ?_
  rw [gt] at lt
  cases lt

end Named

end Table

theorem Program.IsLabel.scope (h : IsLabel name) : Scope.ofName name = .global := by
  have unmarked : name.contains '>'.toUInt8 = false := by
    rw [Bool.eq_false_iff, Ne, List.contains_iff_mem]
    exact fun mem => Lex.isWordByte_ne_mark _ (h.word.wordBytes _ mem) rfl
  rw [Scope.ofName, unmarked]
  rfl

namespace Symbol

/-- The definitions of a symbol file from row `n` on. -/
def equations (file : Text) : Nat → List Symbol → List Equation
  | _, [] => []
  | n, x :: xs => x.equationAt file n :: equations file (n + 1) xs

theorem equations_names (file : Text) (n : Nat) (xs : List Symbol) :
    (equations file n xs).map (·.name) = xs.map (·.name) := by
  induction xs generalizing n with
  | nil => rfl
  | cons x xs ih =>
    rw [equations, map_cons, map_cons, ih]
    rfl

theorem mem_equations (mem : q ∈ equations file n xs) : ∃ x ∈ xs, q.name = x.name ∧ q.value = x.written := by
  induction xs generalizing n with
  | nil => cases mem
  | cons x xs ih =>
    rcases mem_cons.1 mem with rfl | mem
    · exact ⟨x, mem_cons_self, rfl, rfl⟩
    · obtain ⟨y, known, e⟩ := ih mem
      exact ⟨y, mem_cons_of_mem _ known, e⟩

theorem exists_equation (file : Text) (n : Nat) (mem : x ∈ xs) :
    ∃ q ∈ equations file n xs, q.name = x.name ∧ q.value = x.written := by
  induction xs generalizing n with
  | nil => cases mem
  | cons y xs ih =>
    rcases mem_cons.1 mem with rfl | mem
    · exact ⟨_, mem_cons_self, rfl, rfl⟩
    · obtain ⟨q, known, e⟩ := ih (n + 1) mem
      exact ⟨q, mem_cons_of_mem _ known, e⟩

theorem program_eq (own : ∀ x ∈ xs, ¬ x.Foreign dialect) (file : Text)
    (n : Nat) : program dialect file n xs = (equations file n xs).map (·.statement) := by
  induction xs generalizing n with
  | nil => rfl
  | cons x xs ih =>
    rw [forall_mem_cons] at own
    rw [program, equations, map_cons, ih own.2, statementAt, if_neg own.1]

theorem exists_bad (mem : x ∈ xs) (foreign : x.Foreign dialect) (file : Text) (n : Nat) :
    ∃ node fault, .act node (.bad fault) ∈ program dialect file n xs := by
  induction xs generalizing n with
  | nil => cases mem
  | cons y xs ih =>
    rcases mem_cons.1 mem with rfl | mem
    · exact ⟨_, _, by rw [program, statementAt, if_pos foreign]; exact mem_cons_self⟩
    · obtain ⟨node, fault, known⟩ := ih mem (n + 1)
      exact ⟨node, fault, mem_cons_of_mem _ known⟩

theorem numeral_eq_of_shown {x y : Symbol} (h : x.shown = y.shown) : x.numeral = y.numeral := by
  have digits (n : Nat) : Text.hex 8 n = Text.hex 8 (n % 2 ^ 32) := Text.hex_mod 8 n
  rw [numeral, numeral, Listing.valueText, Listing.valueText, digits]
  unfold shown at h
  rw [h, ← digits]

theorem shown_of_written (x : Symbol) : (UInt64.ofNat x.shown).toInt64.toUInt64.toNat % 2 ^ 32 = x.shown := by
  have small : x.shown < 2 ^ 32 := Nat.mod_lt _ (by decide)
  rw [UInt64.toUInt64_toInt64, UInt64.toNat_ofNat_of_lt' (small.trans (by decide)), Nat.mod_eq_of_lt small]

end Symbol

/-! ## Runs over a symbol file -/

theorem Walk.clean_steps_mem {p : Pass} {program : List Statement} {w : Walk}
    (clean : (steps p program w).Clean) {st : Statement} (mem : st ∈ program) : ∃ u, (step p st u).Clean := by
  induction program generalizing w with
  | nil => cases mem
  | cons st' rest ih =>
    have going : w.stop = none := ((steps_moves p (st' :: rest) w).clean clean).1
    rw [steps_cons_of_none going] at clean
    rcases mem_cons.1 mem with rfl | mem
    · exact ⟨w, (steps_moves p rest _).clean clean⟩
    · exact ih clean mem

/-- The settings `s'` have the dialect and the limits of `s`, and nothing is predefined. -/
structure Settings.Stripped (s s' : Settings) : Prop where
  dialect : s'.dialect = s.dialect
  passLimit : s'.passLimit = s.passLimit
  labelLimit : s'.labelLimit = s.labelLimit
  unstocked : s'.predefined = []

/-- A result is stable and defines the global symbols of `t` and nothing else, each with a value that has the
    same last 32 bits. -/
structure Result.GivesBack (r : Result) (t : Table) : Prop where
  stable : r.state = .stable
  symbols : ∃ t', r.symbols = some t' ∧ (∀ x ∈ t'.definedList, x.scope = .global) ∧
    ∀ name, t'.global? name = t.global? name

namespace Assembly

theorem passes_le {cancelled : Nat → Bool} {data : Text} {r : Result}
    (run : assembleText s cancelled file data = .finished r) : r.passes ≤ s.passLimit := by
  rcases finished_cases run with ⟨found, fault, rfl⟩ | ⟨n, -, le, ends⟩
  · exact Nat.zero_le _
  · cases ends with
    | cancelled => exact (Nat.sub_le n 1).trans le
    | limit | settled | exhausted => exact le

/-! ## The symbols of a stable result -/

section
variable {cancelled : Nat → Bool} {data : Text} {r : Result} {t : Table}
  (run : assembleText s cancelled file data = .finished r) (stable : r.state = .stable) (symbols : r.symbols = some t)
include run stable symbols

theorem table_of_stable : t = table s (programOf s file data) r.passes := by
  rw [(stable_converged run stable).symbols] at symbols
  exact (Option.some.inj symbols).symm

theorem named_of_stable : t.Named := by
  rw [table_of_stable run stable symbols]
  exact table_named s _ _

theorem definesGlobal_of_stable (mem : x ∈ t.globals) :
    (walked s (programOf s file data) r.passes).ledger.DefinesGlobal x.name := by
  have converged := stable_converged run stable
  obtain ⟨found, defined, scope⟩ := (named_of_stable run stable symbols).mem_globals.1 mem
  rw [table_of_stable run stable symbols, table_get? converged.pos] at found
  obtain ⟨entry, known, e⟩ := Option.map_eq_some_iff.1 found
  refine ⟨entry.value, ?_⟩
  rw [Ledger.state, known, Option.map_some, ← datedSymbol_defined, ← datedSymbol_scope, e, defined, scope]

theorem globals_labels (free : Statement.allScriptFree (programOf s file data) = true) :
    ∀ x ∈ t.globals, Program.IsLabel x.name := fun _ mem =>
  global_isLabel free (stable_converged run stable).clean (definesGlobal_of_stable run stable symbols mem)

/-- There are no more global symbols than the settings allow. -/
theorem globals_room : (t.globals.length : Int) ≤ s.labelLimit := by
  have counted := walked_counted s (programOf s file data) r.passes
  obtain ⟨names, count, all⟩ := counted.names
  have known : t.globals.map (·.name) ⊆ names := by
    intro name mem
    obtain ⟨x, isGlobal, rfl⟩ := List.mem_map.1 mem
    obtain ⟨value, state⟩ := definesGlobal_of_stable run stable symbols isGlobal
    obtain ⟨entry, found, e⟩ := Option.map_eq_some_iff.1 state
    simp only [Prod.mk.injEq] at e
    exact all x.name ⟨entry, found, e.2.1⟩
  have few := ((named_of_stable run stable symbols).globals_nodup.subperm known).length_le
  rw [length_map, count] at few
  have within := counted.within
  omega

/-- A global symbol takes two passes: the first one changes the table. -/
theorem globals_passes : t.globals = [] ∨ 2 ≤ s.passLimit := by
  have converged := stable_converged run stable
  have isTable := table_of_stable run stable symbols
  rcases Nat.lt_or_ge 1 r.passes with later | first
  · exact .inr (later.trans_le (passes_le run))
  · left
    have one : r.passes = 1 := by have pos := converged.pos; omega
    refine eq_nil_iff_forall_not_mem.2 fun x mem => predefined_not_global s x.name ?_
    obtain ⟨found, defined, scope⟩ := (named_of_stable run stable symbols).mem_globals.1 mem
    have agree := agreeOn_iff.1 (diff_eq_nil_iff.1 converged.settled.1 x.name)
    have start : table s (programOf s file data) (r.passes - 1) = (predefined s).freeze .empty 0 := by
      rw [one]
      rfl
    rw [← isTable, found, start, freeze_get?, Option.map_map] at agree
    obtain ⟨entry, known, e⟩ := Option.map_eq_some_iff.1 agree.symm
    simp only [Function.comp_apply, datedSymbol_value, datedSymbol_defined,
      datedSymbol_scope, Prod.mk.injEq, defined, scope] at e
    exact ⟨entry.value, by rw [Ledger.state, known, Option.map_some, e.2.1, e.2.2]⟩

end

/-! ## Assembling the rows -/

theorem Admits.table_self {qs : List Equation} (admits : Admits s qs) (mem : q ∈ qs) (self : q.value = .sym q.name)
    (n : Nat) : ((table s (qs.map (·.statement)) n).value? q.name).getD 0 = 0 := by
  induction n with
  | zero =>
    have unknown : (table s (qs.map (·.statement)) 0).get? q.name = none := by
      rw [table, freeze_get?, admits.predefined_eq]
      simp [Ledger.new]
    rw [value?, unknown]
    rfl
  | succ n ih =>
    obtain ⟨x, found, defined, -, value⟩ := admits.table_equation mem n
    rw [value?_eq_some_iff.2 ⟨x, found, defined, value⟩, self]
    exact ih

theorem not_foreign_of_clean (clean : (walked s (program dialect file 1 xs) n).Clean) :
    ∀ x ∈ xs, ¬ x.Foreign dialect := by
  intro x mem foreign
  obtain ⟨node, fault, isBad⟩ := exists_bad mem foreign file 1
  obtain ⟨u, fine⟩ := Walk.clean_steps_mem clean isBad
  exact Walk.not_clean_fail _ _ _ _ ((Walk.list_clean _ _ _ _ _).1 fine)

/-- **A value that starts with a letter does not come back.**  It is read as a name; a symbol of this name with
    the same value would be defined by itself. -/
theorem Admits.readable (admits : Admits s (equations file 1 xs))
    (settled : Settled s ((equations file 1 xs).map (·.statement)) (n + 1))
    (clean : (walked s ((equations file 1 xs).map (·.statement)) (n + 1)).Clean)
    (back : ∀ x ∈ xs, (table s ((equations file 1 xs).map (·.statement)) (n + 1)).global? x.name = some x.shown) :
    ∀ x ∈ xs, x.Readable := by
  intro x mem
  by_contra letter
  obtain ⟨q, known, name, written⟩ := exists_equation file 1 mem
  rw [Symbol.written, if_neg letter] at written
  obtain ⟨z, found, defined, -, value⟩ := admits.table_equation known n
  rw [name] at found
  rw [written, Expr.value] at value
  -- the name that stands for the value is known before the pass, and so after it
  have isSome : ((table s ((equations file 1 xs).map (·.statement)) n).value? x.numeral).isSome := by
    have fine := (admits.walked_equations (n + 1)).2.2.1 clean q known
    rw [written] at fine
    exact Expr.isSome_lookup_of_fault? fine x.numeral (by simp [Expr.names])
  obtain ⟨v, before⟩ := Option.isSome_iff_exists.1 isSome
  have after := value?_eq_of_agreeOn (diff_eq_nil_iff.1 settled.1 x.numeral)
  rw [Nat.add_sub_cancel, before] at after
  have same : z.value = v := by simp [value, before]
  -- so it is the name of a symbol, which shows the same value
  obtain ⟨y, isSymbol, isNumeral⟩ : ∃ y ∈ xs, y.name = x.numeral := by
    by_contra none
    refine absurd before ?_
    rw [admits.table_other (fun q' mem' => ?_) n]
    · simp
    · obtain ⟨y, isSymbol, e, -⟩ := mem_equations mem'
      rw [e]
      exact fun h => none ⟨y, isSymbol, h⟩
  have shown : y.shown = x.shown := by
    have atX := shown_of_value? (back x mem) (value?_eq_some_iff.2 ⟨z, found, defined, same⟩)
    have atY := shown_of_value? (back y isSymbol) (isNumeral ▸ after)
    exact atY.symm.trans atX
  -- but then it is defined by itself, and zero
  have zero : v = 0 := by
    obtain ⟨q', known', name', written'⟩ := exists_equation file 1 isSymbol
    have unread : ¬ y.Readable := by
      rwa [Readable, shown]
    rw [Symbol.written, if_neg unread, numeral_eq_of_shown shown, ← isNumeral, ← name'] at written'
    have self := admits.table_self known' written' n
    rwa [name', isNumeral, before] at self
  refine letter ?_
  rw [Readable, ← shown_of_value? (back x mem) (value?_eq_some_iff.2 ⟨z, found, defined, same⟩), zero]
  decide

section
variable {s' : Settings} {cancelled : Nat → Bool} {data : Text} {r : Result} {t : Table}
  (run : assembleText s cancelled file data = .finished r) (stable : r.state = .stable) (symbols : r.symbols = some t)
  (stripped : s.Stripped s') (file' : Text)
include run stable symbols stripped

theorem admits_globals : Admits s' (equations file' 1 t.globals) := by
  refine ⟨stripped.unstocked, ?_, ?_⟩
  · rw [equations_names]
    exact (named_of_stable run stable symbols).globals_nodup
  · have length := congrArg List.length (equations_names file' 1 t.globals)
    rw [length_map, length_map] at length
    rw [length, stripped.labelLimit]
    exact globals_room run stable symbols

theorem table_globals (labels : ∀ x ∈ t.globals, Program.IsLabel x.name)
    (readable : ∀ x ∈ t.globals, x.Readable) (n : Nat) :
    let t' := table s' ((equations file' 1 t.globals).map (·.statement)) (n + 1)
    (∀ x ∈ t'.definedList, x.scope = .global) ∧ ∀ name, t'.global? name = t.global? name := by
  intro t'
  have admits := admits_globals run stable symbols stripped file'
  have named := named_of_stable run stable symbols
  have entry {x : Symbol} (mem : x ∈ t.globals) : ∃ y, t'.get? x.name = some y ∧ y.defined = true ∧
      y.scope = .global ∧ y.shown = x.shown := by
    obtain ⟨q, known, name, written⟩ := exists_equation file' 1 mem
    obtain ⟨y, found, defined, scope, value⟩ := admits.table_equation known n
    rw [name] at found scope
    refine ⟨y, found, defined, ?_, ?_⟩
    · rw [scope]
      exact (labels x mem).scope
    · rw [written, Symbol.written, if_pos (readable x mem), Expr.value] at value
      rw [shown, value, x.shown_of_written]
  have other {name : Text} (unknown : ∀ x ∈ t.globals, x.name ≠ name) : t'.value? name = none := by
    refine admits.table_other (fun q mem => ?_) (n + 1)
    obtain ⟨x, isGlobal, e, -⟩ := mem_equations mem
    rw [e]
    exact unknown x isGlobal
  constructor
  · intro y mem
    obtain ⟨isEntry, defined⟩ := List.mem_filter.1 mem
    obtain ⟨name, found⟩ := mem_toList_iff.1 isEntry
    by_cases known : ∃ x ∈ t.globals, x.name = name
    · obtain ⟨x, isGlobal, rfl⟩ := known
      obtain ⟨z, found', -, scope, -⟩ := entry isGlobal
      obtain rfl := Option.some.inj (found'.symm.trans found)
      exact scope
    · have missing := other fun x isGlobal same => known ⟨x, isGlobal, same⟩
      rw [value?_eq_some_iff.2 ⟨y, found, defined, rfl⟩] at missing
      cases missing
  · intro name
    by_cases known : ∃ x ∈ t.globals, x.name = name
    · obtain ⟨x, isGlobal, rfl⟩ := known
      rw [named.global?_eq_some_of_mem isGlobal, global?_eq_some]
      exact entry isGlobal
    · have missing := other fun x isGlobal same => known ⟨x, isGlobal, same⟩
      have left : t'.global? name = none := by
        refine Option.eq_none_iff_forall_not_mem.2 fun m isGlobal => ?_
        obtain ⟨y, found, defined, -⟩ := global?_eq_some.1 isGlobal
        rw [value?_eq_some_iff.2 ⟨y, found, defined, rfl⟩] at missing
        cases missing
      have right : t.global? name = none := by
        refine Option.eq_none_iff_forall_not_mem.2 fun m isGlobal => ?_
        obtain ⟨x, mem, same, -⟩ := named.mem_globals_of_global? isGlobal
        exact known ⟨x, mem, same⟩
      rw [left, right]

theorem assembleText_symbolFile (free : Statement.allScriptFree (programOf s file data) = true) :
    programOf s' file' t.equates.flatten = program s.dialect file' 1 t.globals ∧
      assembleText s' neverCancelled file' t.equates.flatten =
        passesOver s' neverCancelled [] (program s.dialect file' 1 t.globals) := by
  have listed := (named_of_stable run stable symbols).globals_listed (globals_labels run stable symbols free)
  rw [t.equates_flatten, ← stripped.dialect]
  exact assembleText_rows s' neverCancelled file' listed

end

/-- **When a symbol file can be assembled again.**  The symbol file of a stable result is assembled with the
    same dialect and limits and without predefined constants: the result is stable and defines the global
    symbols, with the last 32 bits of their values, exactly if these start with a decimal digit as they are
    written, and the names can be written in the dialect. -/
theorem symbolFile_again_iff {s s' : Settings} {cancelled : Nat → Bool} {file data : Text} {r : Result}
    {t : Table} (run : assembleText s cancelled file data = .finished r) (stable : r.state = .stable)
    (symbols : r.symbols = some t) (free : Statement.allScriptFree (programOf s file data) = true)
    (stripped : s.Stripped s') (file' : Text) :
    (∃ r', assembleText s' neverCancelled file' t.equates.flatten = .finished r' ∧ r'.GivesBack t) ↔
      ∀ x ∈ t.globals, x.Readable ∧ ¬ x.Foreign s.dialect := by
  obtain ⟨isProgram, again⟩ := assembleText_symbolFile run stable symbols stripped file' free
  have admits := admits_globals run stable symbols stripped file'
  constructor
  · rintro ⟨r', run', ⟨stable', t', symbols', -, back⟩⟩
    have converged := stable_converged run' stable'
    rw [isProgram] at converged
    have own := not_foreign_of_clean converged.clean
    rw [Symbol.program_eq own] at converged
    obtain ⟨n, isPass⟩ : ∃ n, r'.passes = n + 1 := ⟨r'.passes - 1, by have pos := converged.pos; omega⟩
    have isTable := Option.some.inj (symbols'.symm.trans converged.symbols)
    rw [isPass] at converged isTable
    have readable := admits.readable converged.settled converged.clean fun x mem => by
      rw [← isTable, back, (named_of_stable run stable symbols).global?_eq_some_of_mem mem]
    exact fun x mem => ⟨readable x mem, own x mem⟩
  · intro fits
    have own : ∀ x ∈ t.globals, ¬ x.Foreign s.dialect := fun x mem => (fits x mem).2
    have numbers : ∀ q ∈ Symbol.equations file' 1 t.globals, ∃ value, q.value = .num value := by
      intro q mem
      obtain ⟨x, isGlobal, -, written⟩ := Symbol.mem_equations mem
      exact ⟨_, by rw [written, Symbol.written, if_pos (fits x isGlobal).1]⟩
    have passes : Symbol.equations file' 1 t.globals = [] ∨ 2 ≤ s'.passLimit := by
      rw [stripped.passLimit]
      refine (globals_passes run stable symbols).imp_left fun none => ?_
      rw [none, Symbol.equations]
    have silent : ∀ d ∈ ([] : Diagnostics), d.isError = false := by simp
    obtain ⟨n, r', run', stable', symbols'⟩ := admits.resolve_numbers numbers passes silent
    rw [← Symbol.program_eq own] at run' symbols'
    refine ⟨r', again.trans run', stable', _, symbols', ?_⟩
    rw [Symbol.program_eq own]
    exact table_globals run stable symbols stripped file' (globals_labels run stable symbols free)
      (fun x mem => (fits x mem).1) n

/-- A source with a label, a label of its own below it, a large constant, a use of a macro with a label, and a
    name that is predefined. -/
def keptSource : Text :=
  bytes " org 8000h\nstart: ld a, BASE\n.loop: djnz .loop\nfar equ 100000005h\npad macro\n.gap: nop\n endm\n pad\n"

theorem symbolFile_again_kept : ∃ r t, assembleText { Settings.bare with predefined := [(bytes "BASE", 5)] }
      neverCancelled (bytes "a.asm") keptSource = .finished r ∧ r.symbols = some t ∧
    t.equates.flatten = bytes "far: equ 00000005h\nstart: equ 00008000h\nstart.loop: equ 00008002h\n" ∧
    ∃ r', assembleText .bare neverCancelled (bytes "a.sym") t.equates.flatten = .finished r' ∧ r'.GivesBack t := by
  let s : Settings := { Settings.bare with predefined := [(bytes "BASE", 5)] }
  have finishes : (assembleText s neverCancelled (bytes "a.asm") keptSource).any (fun r =>
      r.state == .stable && r.symbols.any fun t =>
        (t.equates.flatten == bytes "far: equ 00000005h\nstart: equ 00008000h\nstart.loop: equ 00008002h\n") &&
          t.globals.all fun x => x.Readable && !decide (x.Foreign s.dialect)) = true := by decide +kernel
  obtain ⟨r, run, facts⟩ := Outcome.exists_of_any finishes
  obtain ⟨stable, facts⟩ := (Bool.and_eq_true _ _).mp facts
  obtain ⟨t, symbols, facts⟩ := (Option.any_eq_true _ _).1 facts
  obtain ⟨written, fits⟩ := (Bool.and_eq_true _ _).mp facts
  have free : Statement.allScriptFree (programOf s (bytes "a.asm") keptSource) = true := by decide +kernel
  have stripped : s.Stripped .bare := ⟨rfl, rfl, rfl, rfl⟩
  refine ⟨r, t, run, symbols, beq_iff_eq.1 written, ?_⟩
  refine (symbolFile_again_iff run (beq_iff_eq.1 stable) symbols free stripped (bytes "a.sym")).2 fun x mem => ?_
  simpa using List.all_eq_true.1 fits x mem

def negativeSource : Text := bytes "X equ -1\n"

/-- The value of a negative constant is written with a letter in front, and is not found again. -/
theorem symbolFile_letters_lost : Statement.allScriptFree (programOf .bare (bytes "a.asm") negativeSource) = true ∧
    (assembleText .bare neverCancelled (bytes "a.asm") negativeSource).any (fun r =>
      r.state == .stable && r.symbols.any fun t => t.equates.flatten == bytes "X: equ FFFFFFFFh\n") = true ∧
    (assembleText .bare neverCancelled (bytes "a.sym") (bytes "X: equ FFFFFFFFh\n")).any (fun r =>
      r.state == .syntaxFailed &&
        r.diagnostics.map (·.fault) == [some (.labelMissing (bytes "FFFFFFFFh"))]) = true := by
  refine ⟨?_, ?_, ?_⟩
  · decide +kernel
  · decide +kernel
  · decide +kernel

-- A name that cannot be written comes from a skipped block, whose labels own the local ones behind it.
example : (assembleText .bare neverCancelled (bytes "a.asm") (bytes " if 0\na@b: nop\n endif\n.loc: nop\n")).any
    (fun r => r.state == .stable && r.symbols.any fun t =>
      t.globals.any fun x => x.name == bytes "a@b.loc" && x.Foreign .native) = true := by decide +kernel

end Assembly

end Z80Asm
