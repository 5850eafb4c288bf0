import Z80Asm.Proofs.Passes

/-!
# The values in a stable result

A pass reads the table of the pass before it, so that what it emits might rest on values that are no
longer true.  The last pass of a stable run does not: what it read is what its own table holds.
-/

namespace Z80Asm.Assembly

open Walk Ledger

variable {s : Settings} {program : List Statement} {n : Nat} {name : Text} {v : Visit}

theorem between_of_mem_visitsOf (h : v ∈ visitsOf s program (passOf s program n)) :
    Between (passOf s program n) { ledger := predefined s } (walked s program n) v :=
  between_of_mem_visits _ program _ v h

theorem table_get? (pos : 0 < n) (name : Text) :
    (table s program n).get? name = (walked s program n).ledger.symbols[name]?.map
      (datedSymbol (table s program (n - 1)) n name) := by
  obtain ⟨m, rfl⟩ : ∃ m, n = m + 1 := ⟨n - 1, by omega⟩
  exact freeze_get? _ _ _ name

theorem clean_defined (pos : 0 < n) (clean : (walked s program n).Clean) {t : Symbol}
    (entry : (table s program n).get? name = some t) : t.defined = true := by
  rw [table_get? pos, Option.map_eq_some_iff] at entry
  obtain ⟨u, hu, rfl⟩ := entry
  rw [datedSymbol_defined]
  refine (steps_moves _ program _).all_defined clean (fun name t found => ?_) name u hu
  obtain ⟨_, -, rfl⟩ := predefined_entry found
  rfl

theorem mem_vars_assigned (mem : name ∈ (walked s program n).vars) :
    ∃ v ∈ visitsOf s program (passOf s program n), v.assigned? = some name := by
  rcases mem_steps_vars program _ mem with mem | assigned
  · exact absurd mem Std.TreeMap.not_mem_emptyc
  · exact assigned

/-- Without errors, what is read was found: in the table of the pass before, unless it is a variable. -/
theorem clean_read (clean : (walked s program n).Clean) {r : Read}
    (looksUp : LooksUp (passOf s program n) { ledger := predefined s } (walked s program n) r)
    (constant : r.name ∉ (walked s program n).vars) :
    ∃ value, r.value = some value ∧ (table s program (n - 1)).value? r.name = some value := by
  cases looksUp with
  | @eval u node e mem before after =>
    have absent : r.name ∉ u.vars := fun h =>
      constant (after.mem_vars (by rw [eval_vars]; exact h))
    obtain ⟨name, hname, rfl⟩ := List.mem_map.1 mem
    have found := (clean_eval (after.clean clean)).2 name hname
    obtain ⟨value, hvalue⟩ := Option.isSome_iff_exists.1 found
    have before : (u.env (passOf s program n)).lookup name = (table s program (n - 1)).value? name := by
      simp only [env, Std.TreeMap.getElem?_eq_none absent, Option.none_or]
      rfl
    exact ⟨value, hvalue, before ▸ hvalue⟩
  | @script u mem before after =>
    have absent : r.name ∉ u.vars := fun h => constant (after.mem_vars h)
    obtain ⟨⟨name, value⟩, seen, rfl⟩ := List.mem_map.1 mem
    simp only [scriptConstants, List.mem_filter, List.mem_append, List.mem_map] at seen
    rcases seen.1 with ⟨t, ht, e⟩ | ⟨⟨other, v⟩, ht, e⟩
    · cases e
      obtain ⟨ht, defined⟩ := List.mem_filter.1 ht
      obtain ⟨key, hkey⟩ := Table.mem_toList_iff.1 ht
      obtain rfl := table_named s program (n - 1) key t hkey
      exact ⟨t.value, by simp, Table.value?_eq_some_iff.2 ⟨t, hkey, defined, rfl⟩⟩
    · cases e
      refine absurd ?_ absent
      rw [Std.TreeMap.mem_iff_isSome_getElem?, Std.TreeMap.mem_toList_iff_getElem?_eq_some.1 ht]
      rfl

/-- Defining the label of a statement without an error enters it with the address. -/
theorem clean_defineLabel {w : Walk} {p : Pass} {node : Node} (label : node.label = some name)
    (clean : (w.defineLabel p node).Clean) :
    (w.defineLabel p node).ledger.symbols[name]? = some
      { name, value := w.pc, defined := true, scope := .ofName name, pos := node.pos
        seq := node.seq } := by
  have e : w.defineLabel p node = w.define p node name w.pc (.ofName name) := by
    simp only [defineLabel, label]
  rw [e] at clean ⊢
  obtain ⟨ledger, entered, define_eq⟩ := clean_define clean
  rw [define_eq]
  exact get?_of_define_new entered (Scope.ofName_ne_assigned name)

theorem defineLabel_moves_step (p : Pass) (st : Statement) (w : Walk) :
    ∃ u : Walk, u.pc = w.pc ∧ Moves p (u.defineLabel p st.node) (step p st w) := by
  have list_pc : ∀ node address start, (w.list p node address start).pc = w.pc := by
    intro node address start
    unfold list; split <;> rfl
  cases st with
  | act node action =>
    exact ⟨w, rfl, ((act_moves _ p node action).tail (.list node _ _)).tail (.measure _)⟩
  | choose node test yes no =>
    refine ⟨w.list p node w.pc w.code.size, list_pc _ _ _, ?_⟩
    rw [step_choose]
    exact ((test_moves (w.enter p node) p node test).trans (steps_moves p _ _)).tail (.measure _)
  | repeated node count body =>
    refine ⟨w.list p node w.pc w.code.size, list_pc _ _ _, ?_⟩
    rw [step_repeated]
    refine Relation.ReflTransGen.head (.eval node count) (.tail ?_ (.measure _))
    split
    · exact misfit_moves _ p node _
    · exact times_moves (steps_moves p body) _ _

/-- Without errors, the label of a visited statement has the address at which it was visited. -/
theorem clean_label (pos : 0 < n) (clean : (walked s program n).Clean)
    (visited : v ∈ visitsOf s program (passOf s program n)) (label : v.statement.node.label = some name) :
    ∃ t, (table s program n).get? name = some t ∧ t.value = v.walk.pc ∧
      t.pos = v.statement.node.pos ∧ t.seq = v.statement.node.seq := by
  have between := between_of_mem_visitsOf visited
  obtain ⟨u, pc, moves⟩ := defineLabel_moves_step (passOf s program n) v.statement v.walk
  have after : Moves (passOf s program n) (u.defineLabel (passOf s program n) v.statement.node)
      (walked s program n) := moves.trans between.after
  -- the label was not refused, and no later move changes a constant
  have entry := after.constant (clean_defineLabel label (after.clean clean)) rfl (Scope.ofName_ne_assigned name)
  refine ⟨_, by rw [table_get? pos, entry]; rfl, ?_, ?_, ?_⟩
  · rw [datedSymbol_value, pc]
  · rw [datedSymbol_pos]
  · rw [datedSymbol_seq]

/-- A table whose values are the ones that pass `n` worked with. -/
structure Current (s : Settings) (program : List Statement) (n : Nat) (t : Table) : Prop where
  defined : ∀ name entry, t.get? name = some entry → entry.defined = true
  /-- What was looked up under a name that the pass did not assign was found, and is in the table. -/
  reads : ∀ v ∈ visitsOf s program (passOf s program n), ∀ read ∈ v.reads (passOf s program n),
    (∀ u ∈ visitsOf s program (passOf s program n), u.assigned? ≠ some read.name) →
      ∃ value, read.value = some value ∧ t.value? read.name = some value
  labels : ∀ v ∈ visitsOf s program (passOf s program n), ∀ name,
    v.statement.node.label = some name →
      ∃ entry, t.get? name = some entry ∧ entry.value = v.walk.pc ∧
        entry.pos = v.statement.node.pos ∧ entry.seq = v.statement.node.seq

/-- **A stable result rests on its own values**: the table has what the last pass looked up, although it
    was found in the table before. -/
theorem stable_values_current {s : Settings} {cancelled : Nat → Bool} {file data : Text} {r : Result}
    (run : assembleText s cancelled file data = .finished r) (stable : r.state = .stable) :
    r.code = (walked s (programOf s file data) r.passes).code ∧
      ∃ t, r.symbols = some t ∧ Current s (programOf s file data) r.passes t := by
  have converged := stable_converged run stable
  refine ⟨converged.code, _, converged.symbols, ?_, ?_, ?_⟩
  · intro name entry
    exact clean_defined converged.pos converged.clean
  · intro v visited read reads constant
    have between := between_of_mem_visitsOf visited
    have no_variable : read.name ∉ (walked s (programOf s file data) r.passes).vars := by
      intro mem
      obtain ⟨u, hu, assigned⟩ := mem_vars_assigned mem
      exact constant u hu assigned
    obtain ⟨value, found, before⟩ := clean_read converged.clean
      ((LooksUp.of_visit reads).mono between.before between.after) no_variable
    have agree := Table.diff_eq_nil_iff.1 converged.settled.1 read.name
    exact ⟨value, found, by rw [Table.value?_eq_of_agreeOn agree, before]⟩
  · intro v visited name label
    exact clean_label converged.pos converged.clean visited label

/-- A source that reads a label before its statement, and a variable between two assignments. -/
def laterSource : Text := bytes "n = 1\n dw later\n db n\nn = 2\nlater: db n\n"

theorem stable_values_later : ∃ r t,
    assembleText .bare neverCancelled (bytes "a.asm") laterSource = .finished r ∧
      r.state = .stable ∧ r.code = #[3, 0, 1, 2] ∧ r.symbols = some t ∧
      t.value? (bytes "later") = some 3 := by
  obtain ⟨r, run, h⟩ := Outcome.exists_of_any
    (by decide +kernel : (assembleText .bare neverCancelled (bytes "a.asm") laterSource).any
      (fun r => r.state = .stable ∧ r.passes = 2 ∧ r.code = #[3, 0, 1, 2]) = true)
  obtain ⟨stable, passes, code⟩ := of_decide_eq_true h
  obtain ⟨-, t, symbols, current⟩ := stable_values_current run stable
  rw [passes] at current
  have looked : ∃ v ∈ visitsOf .bare (programOf .bare (bytes "a.asm") laterSource)
      (passOf .bare (programOf .bare (bytes "a.asm") laterSource) 2),
      ⟨bytes "later", some 3⟩ ∈
        v.reads (passOf .bare (programOf .bare (bytes "a.asm") laterSource) 2) := by decide +kernel
  obtain ⟨v, visited, reads⟩ := looked
  obtain ⟨value, found, entry⟩ := current.reads v visited _ reads (by decide +kernel)
  cases found
  exact ⟨r, t, run, stable, code, symbols, entry⟩

end Z80Asm.Assembly
