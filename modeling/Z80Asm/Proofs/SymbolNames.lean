import Z80Asm.Proofs.Equations
import Z80Asm.Proofs.FreshNames
import Z80Asm.Proofs.Origins
import Z80Asm.Proofs.Renaming

/-!
# The symbols of a result

The symbols in a table are no more than the limit allows, and those of global scope are called by names that can
stand as labels: they are defined by labels of lines that are executed without an error.
-/

namespace Z80Asm

open Program Macro List

variable {data file name text owner : Text} {s : Settings} {action : Action} {Q : Text → Prop}

/-! ## The number of definitions -/

namespace Ledger

/-- There is a limit; so many names are defined as are counted, and no more than the limit allows. -/
structure Counted (limit : Int) (l : Ledger) : Prop where
  bound : l.limit = limit
  within : l.defined ≤ limit
  names : ∃ names : List Text, names.length = l.defined ∧ ∀ name, l.Defines name → name ∈ names

namespace Counted
variable {limit : Int} {l l' : Ledger}

theorem new (pos : 0 ≤ limit) : (Ledger.new limit).Counted limit :=
  ⟨rfl, pos, [], rfl, by simp [Ledger.new, Defines]⟩

theorem define (h : l.Counted limit) {s : Symbol} (entered : l.define s = .ok l') : l'.Counted limit := by
  obtain ⟨names, count, all⟩ := h.names
  have insert (x : Symbol) (name : Text)
      (known : ({ l with symbols := l.symbols.insert s.name x } : Ledger).Defines name) :
      s.name = name ∨ l.Defines name := by
    by_cases same : s.name = name
    · exact .inl same
    · obtain ⟨old, found, defined⟩ := known
      rw [Std.TreeMap.getElem?_insert, if_neg (by simpa using same)] at found
      exact .inr ⟨old, found, defined⟩
  rcases l.define_cases s with ⟨old, found, defined, _, _, e⟩ | ⟨_, _, _, _, e⟩ | ⟨_, _, e⟩ | ⟨_, room, e⟩
  · cases e.symm.trans entered
    refine ⟨h.bound, h.within, names, count, fun name known => ?_⟩
    rcases insert _ name known with rfl | known
    · exact all _ ⟨old, found, defined⟩
    · exact all name known
  · cases e.symm.trans entered
  · cases e.symm.trans entered
  · cases e.symm.trans entered
    refine ⟨h.bound, ?_, s.name :: names, by simp [count], fun name known => ?_⟩
    · rw [h.bound] at room
      push_cast
      omega
    · rcases insert _ name known with rfl | known
      · exact mem_cons_self
      · exact mem_cons_of_mem _ (all name known)

theorem references (h : l.Counted limit) (names : List Text) (pos : Pos) :
    (names.foldl (·.reference · pos) l).Counted limit := by
  refine ⟨?_, ?_, ?_⟩
  · rw [references_limit, h.bound]
  · rw [references_defined]
    exact h.within
  · obtain ⟨known, count, all⟩ := h.names
    refine ⟨known, by rw [references_defined, count], fun name defines => all name ?_⟩
    exact (references_defines l names pos name).1 defines

end Counted

end Ledger

theorem Walk.Moves.counted {p : Pass} {w v : Walk} {limit : Int} (h : Moves p w v)
    (counted : w.ledger.Counted limit) : v.ledger.Counted limit :=
  h.ledger_induction (P := Ledger.Counted limit) counted (fun name pos counted => counted.references [name] pos)
    fun entered counted => counted.define entered

theorem Settings.labelLimit_pos (s : Settings) : 0 < s.labelLimit := by
  unfold Settings.labelLimit
  split <;> omega

namespace Assembly

/-- **No more symbols are defined than the settings allow.** -/
theorem walked_counted (s : Settings) (program : List Statement) (n : Nat) :
    (walked s program n).ledger.Counted s.labelLimit := by
  refine (Walk.steps_moves _ program _).counted ?_
  refine predefined_induction s (.new s.labelLimit_pos.le) ?_
  exact fun l l' name value _ counted entered => counted.define entered

end Assembly

/-! ## Definitions and statements -/

def Ledger.DefinesGlobal (l : Ledger) (name : Text) : Prop := ∃ value, l.state name = some (value, true, .global)

theorem Scope.ofName_eq_global (h : ofName name = .global) : mark ∉ name := by
  intro mem
  have contains : name.contains '>'.toUInt8 = true := List.contains_iff_mem.2 mem
  rw [ofName, if_pos contains] at h
  cases h

namespace Walk

section
variable {w : Walk} {p : Pass} {node : Node}

theorem eval_definesGlobal (e : Expr) :
    (w.eval p node e).2.ledger.DefinesGlobal name ↔ w.ledger.DefinesGlobal name := by
  have references (names : List Text) :
      (w.reference node.pos names).ledger.DefinesGlobal name ↔ w.ledger.DefinesGlobal name := by
    rw [Ledger.DefinesGlobal, reference, Ledger.references_state]
    cases h : w.ledger.state name with
    | none => split <;> simp [Ledger.DefinesGlobal, h]
    | some state => simp [Ledger.DefinesGlobal, h]
  rw [eval_eq]
  split <;> exact references _

theorem act_definesGlobal_iff (plain : action.defines = false) :
    (w.act p node action).ledger.DefinesGlobal name ↔ w.ledger.DefinesGlobal name :=
  Invariant.act (I := fun v => v.ledger.DefinesGlobal name ↔ w.ledger.DefinesGlobal name)
    ⟨fun _ same => same, fun _ _ same => same, fun e same => (eval_definesGlobal e).trans same⟩ .rfl plain
    (fun _ _ _ same => same) fun _ _ same => same

theorem define_definesGlobal {value : Int64} {scope : Scope} {other : Text}
    (h : (w.define p node other value scope).ledger.DefinesGlobal name) :
    other = name ∧ scope = .global ∨ w.ledger.DefinesGlobal name := by
  rcases w.define_cases p node other value scope with ⟨ledger, entered, e⟩ | e | ⟨_, e⟩
  · rw [e] at h
    obtain ⟨value', state⟩ := h
    by_cases same : other = name
    · subst same
      obtain ⟨x, found, _, _, _, isScope⟩ := Ledger.get?_of_define entered
      simp only [Ledger.state, found, Option.map_some, Option.some.injEq, Prod.mk.injEq] at state
      exact .inl ⟨rfl, isScope.symm.trans state.2.2⟩
    · refine .inr ⟨value', ?_⟩
      rwa [Ledger.state, Ledger.get?_of_define_ne entered same] at state
  · exact .inr (by simpa [e] using h)
  · exact .inr (by simpa [e, fail, report] using h)

theorem defineLabel_definesGlobal (h : (w.defineLabel p node).ledger.DefinesGlobal name) :
    node.label = some name ∧ mark ∉ name ∨ w.ledger.DefinesGlobal name := by
  unfold defineLabel at h
  split at h
  next other label =>
    refine (define_definesGlobal h).imp_left ?_
    rintro ⟨rfl, scope⟩
    exact ⟨label, Scope.ofName_eq_global scope⟩
  next => exact .inr h

theorem act_definesGlobal (h : (w.act p node action).ledger.DefinesGlobal name) :
    w.ledger.DefinesGlobal name ∨ (∃ e assigned, action = .equate name e assigned) ∧ mark ∉ name ∨
      ∃ source, action = .script source := by
  cases defines : action.defines with
  | false => exact .inl ((act_definesGlobal_iff defines).1 h)
  | true =>
    cases action with
    | equate other e assigned =>
      rcases define_definesGlobal h with ⟨rfl, scope⟩ | h
      · refine .inr (.inl ⟨⟨e, assigned, rfl⟩, ?_⟩)
        cases assigned with
        | true => cases scope
        | false => exact Scope.ofName_eq_global scope
      · exact .inl ((eval_definesGlobal e).1 h)
    | script source => exact .inr (.inr ⟨source, rfl⟩)
    | _ => cases defines

end

/-- **A global name is defined by a statement that is executed**, as its label or by an equation, or by a
    script. -/
theorem exists_visit_of_definesGlobal {p : Pass} : ∀ program w,
    (steps p program w).ledger.DefinesGlobal name →
      w.ledger.DefinesGlobal name ∨ ∃ v ∈ visits p program w,
        name ∈ v.statement.heading.names ∧ mark ∉ name ∨ ∃ node source, v.statement = .act node (.script source) := by
  have label_mem (st : Statement) (label : st.node.label = some name) : name ∈ st.heading.names := by
    rcases st with ⟨node, action⟩ | _ | _
    · cases action <;> simp_all [Statement.heading, Heading.names, Statement.node]
    · simp_all [Statement.heading, Heading.names, Statement.node]
    · simp_all [Statement.heading, Heading.names, Statement.node]
  refine exists_visit_of_steps (P := fun w => w.ledger.DefinesGlobal name) (fun node action w h => ?_)
    (fun st w h => ?_) (fun node e w h => (eval_definesGlobal e).1 h) (fun _ _ _ h => h) fun _ _ h => h
  · change (list _ p node _ _).ledger.DefinesGlobal name at h
    rw [list_ledger] at h
    rcases act_definesGlobal h with h | ⟨⟨e, assigned, rfl⟩, unmarked⟩ | ⟨source, rfl⟩
    · rcases defineLabel_definesGlobal h with ⟨label, unmarked⟩ | h
      · exact .inr (.inl ⟨label_mem (.act node action) label, unmarked⟩)
      · exact .inl h
    · exact .inr (.inl ⟨by simp [Statement.heading, Heading.names], unmarked⟩)
    · exact .inr (.inr ⟨node, source, rfl⟩)
  · rcases defineLabel_definesGlobal h with ⟨label, unmarked⟩ | h
    · exact .inr (.inl ⟨label_mem st label, unmarked⟩)
    · rw [list_ledger] at h
      exact .inl h

end Walk

theorem Statement.scriptFree_flatten :
    (∀ st : Statement, st.isScriptFree = true → ∀ node source, .act node (.script source) ∉ st.flatten) ∧
      ∀ program, allScriptFree program = true → ∀ node source, .act node (.script source) ∉ flattenAll program := by
  refine Statement.tree_induction (fun node action free node' source mem => ?_)
    (fun node test yes no yes_ih no_ih free node' source mem => ?_)
    (fun node count body ih free node' source mem => ?_) (fun _ _ _ mem => by cases mem)
    (fun st rest st_ih ih free node source mem => ?_)
  · cases mem_singleton.1 mem
    cases free
  · simp only [isScriptFree, Bool.and_eq_true] at free
    rcases mem_cons.1 mem with e | mem
    · cases e
    · exact (mem_append.1 mem).elim (yes_ih free.1 _ _) (no_ih free.2 _ _)
  · rcases mem_cons.1 mem with e | mem
    · cases e
    · exact ih free _ _ mem
  · simp only [allScriptFree, Bool.and_eq_true] at free
    exact (mem_append.1 mem).elim (st_ih free.1 _ _) (ih free.2 _ _)

/-! ## Words of an expansion -/

theorem Token.mem_splitArgs {toks part : List Token} (mem : part ∈ splitArgs toks) : ∀ tok ∈ part, tok ∈ toks := by
  by_cases none : toks = []
  · subst none
    cases mem
  · rw [splitArgs_eq none] at mem
    exact (joins_splitFrom 0 toks).mem_of_mem mem

def Line.Words (Q : Text → Prop) (ln : Line) : Prop :=
  ∀ tok ∈ ln.tokens, ∀ word, tok.word? = some word → Q word

/-- **The words of an expansion** are words of its rows and names that were made for uses. -/
theorem Assembly.expansionOf_words_of_rows (rows : ∀ ln ∈ loadedOf s file data, ln.Words Q)
    (made : ∀ name use word, Q (localName name use word)) :
    ∀ ln ∈ (expansionOf s file data).lines.toList, ln.Words Q := by
  refine expansionOf_lines _ rows ?_ ?_
  · intro ln label split words tok mem word isWord
    obtain ⟨more, tokens, -⟩ := Token.labels_of_splitLabel split
    rcases mem_cons.1 mem with rfl | mem
    · exact words label (tokens ▸ mem_cons_self) word isWord
    · cases mem_singleton.1 mem
      cases isWord
  · intro st line u st₁ ln isUse words inBody tok mem word isWord
    obtain ⟨label, m, args, isTask, fits, rfl, -⟩ := use?_eq_some isUse
    obtain ⟨tok', isToken, placed⟩ := mem_flatMap.1 mem
    have makes := makes_place s.dialect (u := ⟨st.uses + 1, m, Token.splitArgs args, line.pos⟩) fits tok'
    change tok ∈ Use.place s.dialect _ tok' at placed
    generalize Use.place s.dialect _ tok' = toks at makes placed
    cases makes with
    | @argument word' arg _ _ _ isArg same =>
      -- the words of an argument are words of the line with the use
      obtain ⟨original, isOriginal, lexeme⟩ : ∃ t ∈ arg, t.lexeme = tok.lexeme := by
        have mem : tok.lexeme ∈ arg.map (·.lexeme) := same ▸ mem_map_of_mem placed
        exact List.mem_map.1 mem
      obtain ⟨head, split⟩ := task_use_split isTask
      obtain ⟨front, tokens, -⟩ := Token.fronts_of_splitLabel split
      have inLine : original ∈ line.tokens := by
        rw [tokens]
        refine mem_append_right _ (mem_cons_of_mem _ ?_)
        exact Token.mem_splitArgs (mem_of_getElem? isArg) original isOriginal
      refine words original inLine word ?_
      rwa [Token.word?, lexeme]
    | renamed _ _ _ =>
      cases mem_singleton.1 placed
      cases isWord
      exact made _ _ _
    | kept _ =>
      cases mem_singleton.1 placed
      exact inBody tok isToken word isWord

theorem Assembly.expansionOf_words (row : ∀ word, Lex.IsWord word → Q word)
    (made : ∀ name use word, Q (localName name use word)) :
    ∀ ln ∈ (expansionOf s file data).lines.toList, ln.Words Q := by
  refine expansionOf_words_of_rows (fun ln mem tok isToken word isWord => ?_) made
  rw [(loadedOf_isRow mem).tokens] at isToken
  obtain ⟨role, lexeme⟩ := Token.word?_eq_some isWord
  exact row word (lex_words isToken lexeme).1

/-! ## Names of labels -/

def Lex.IsPlainWord (text : Text) : Prop :=
  ∃ start stem, text = start :: stem ∧ isWordStart start = true ∧ stem.all isWordByte = true

theorem Lex.IsPlainWord.wordBytes (h : IsPlainWord text) : ∀ b ∈ text, Lex.isWordByte b = true := by
  obtain ⟨start, stem, rfl, isStart, isStem⟩ := h
  exact forall_mem_cons.2 ⟨by simp [Lex.isWordByte, isStart], all_eq_true.1 isStem⟩

theorem Lex.IsPlainWord.append {more : Text} (h : IsPlainWord text) (also : IsPlainWord more) :
    IsPlainWord (text ++ more) := by
  obtain ⟨start, stem, rfl, isStart, isStem⟩ := h
  obtain ⟨start', stem', rfl, isStart', isStem'⟩ := also
  refine ⟨start, stem ++ start' :: stem', rfl, isStart, ?_⟩
  simp [all_append, isStem, Lex.isWordByte, isStart', isStem']

namespace Text

theorem dot_mem_lower {t : Text} (mem : '.'.toUInt8 ∈ t) : '.'.toUInt8 ∈ lower t := by
  fun_induction lower t with
  | case1 rest ih =>
    simp only [mem_cons] at mem
    rcases mem with e | e | mem
    · cases e
    · cases e
    · exact mem_cons_of_mem _ (ih mem)
  | case2 rest ih =>
    simp only [mem_cons] at mem
    rcases mem with e | e | e | mem
    · cases e
    · cases e
    · cases e
    · exact mem_cons_of_mem _ (ih mem)
  | case3 b rest _ _ ih =>
    rcases mem_cons.1 mem with rfl | mem
    · exact mem_cons_self
    · exact mem_cons_of_mem _ (ih mem)
  | case4 => cases mem

theorem lower_append_apostrophe (t : Text) : lower (t ++ [apostrophe]) = lower t ++ [apostrophe] := by
  fun_induction lower t with
  | case1 rest ih => simpa [lower] using ih
  | case2 rest ih => simpa [lower] using ih
  | case3 b rest no no' ih =>
    rw [cons_append, lower, ih]
    · rfl
    · rintro more rfl h
      rcases rest with _ | ⟨c, rest⟩
      · cases h
      · cases h
        exact no _ rfl rfl
    · rintro more rfl h
      rcases rest with _ | ⟨c, _ | ⟨d, rest⟩⟩
      · cases h
      · cases h
      · cases h
        exact no' _ rfl rfl
  | case4 => rfl

end Text

theorem Cpu.Reg.ofWord?_of_dot {word : Text} (dot : '.'.toUInt8 ∈ word) : ofWord? word = none := by
  rw [ofWord?, lookup_eq_none_iff]
  intro spelling mem
  have plain : ∀ spelling ∈ spellings, '.'.toUInt8 ∉ spelling.1 := by decide
  rw [bne_iff_ne]
  intro same
  exact plain spelling mem (same ▸ Text.dot_mem_lower dot)

theorem Lex.IsWord.plain (h : IsWord text) (noRegister : Cpu.Reg.ofWord? text = none) : IsPlainWord text := by
  obtain ⟨start, stem, mark, rfl, isStart, isStem, rfl | ⟨rfl, af⟩⟩ := h
  · exact ⟨start, stem, by simp, isStart, isStem⟩
  · have spelled : Text.lower (start :: stem ++ [Text.apostrophe]) = bytes "af'" := by
      rw [Text.lower_append_apostrophe, af]
      rfl
    have isRegister : Cpu.Reg.spellings.lookup (bytes "af'") ≠ none := by decide
    rw [Cpu.Reg.ofWord?, spelled] at noRegister
    exact absurd noRegister isRegister

namespace Program

/-- A name that can stand as a label: a word that is neither a register nor a lone dot. -/
structure IsLabel (name : Text) : Prop where
  word : Lex.IsPlainWord name
  valid : (labelName [] name).2.2 = none

/-- What can own local labels: nothing, or a word that is no local one. -/
def IsOwner (owner : Text) : Prop :=
  owner = [] ∨ Lex.IsPlainWord owner ∧ owner.head? ≠ some '.'.toUInt8

theorem labelName_cases (owner name : Text) :
    ((name = bytes "." ∨ Cpu.Reg.ofWord? name ≠ none) ∧ (labelName owner name).2.2.isSome ∧
      (labelName owner name).2.1 = owner) ∨
    ((name.head? = some '.'.toUInt8 ∧ name ≠ bytes ".") ∧ labelName owner name = (owner ++ name, owner, none)) ∨
    (mark ∈ name ∧ labelName owner name = (name, owner, none)) ∨
    ((name.head? ≠ some '.'.toUInt8 ∧ mark ∉ name ∧ Cpu.Reg.ofWord? name = none) ∧
      labelName owner name = (name, name, none)) := by
  have marked_iff : name.contains '>'.toUInt8 = true ↔ mark ∈ name := List.contains_iff_mem
  unfold labelName qualify
  by_cases lone : name = bytes "."
  · simp [lone]
  by_cases isLocal : name.head? = some '.'.toUInt8
  · simp [lone, isLocal]
  simp only [beq_iff_eq, lone, isLocal, if_false, marked_iff]
  by_cases marked : mark ∈ name
  · simp [marked]
  cases register : Cpu.Reg.ofWord? name with
  | some reg => simp [marked]
  | none => simp [marked, isLocal]

theorem labelName_fault_of_ne (noDot : name ≠ bytes ".") (noRegister : Cpu.Reg.ofWord? name = none) (owner : Text) :
    (labelName owner name).2.2 = none := by
  rcases labelName_cases owner name with ⟨wrong, -⟩ | ⟨-, e⟩ | ⟨-, e⟩ | ⟨-, e⟩
  · exact (wrong.elim noDot (· noRegister)).elim
  · rw [e]
  · rw [e]
  · rw [e]

/-- The symbol of a valid label can stand as a label itself, if it was not made for a use. -/
theorem isLabel_labelName (owned : IsOwner owner) (word : Lex.IsWord name ∨ mark ∈ name)
    (valid : (labelName owner name).2.2 = none) (unmarked : mark ∉ (labelName owner name).1) :
    IsLabel (labelName owner name).1 := by
  rcases labelName_cases owner name with
    ⟨-, wrong, -⟩ | ⟨⟨isLocal, noDot⟩, e⟩ | ⟨marked, e⟩ | ⟨⟨noLocal, -, noRegister⟩, e⟩
  · simp [valid] at wrong
  · rw [e] at unmarked ⊢
    have isWord := word.resolve_right fun mem => unmarked (mem_append_right _ mem)
    have dot : '.'.toUInt8 ∈ name := mem_of_head? isLocal
    have plain := isWord.plain (Cpu.Reg.ofWord?_of_dot dot)
    have noRegister := Cpu.Reg.ofWord?_of_dot (mem_append_right owner dot)
    rcases owned with rfl | ⟨isOwner, noLocal⟩
    · exact ⟨plain, labelName_fault_of_ne noDot noRegister _⟩
    · refine ⟨isOwner.append plain, labelName_fault_of_ne (fun lone => noLocal ?_) noRegister _⟩
      obtain ⟨start, stem, rfl, -⟩ := isOwner
      exact congrArg head? lone
  · rw [e] at unmarked
    exact absurd marked unmarked
  · rw [e] at unmarked ⊢
    refine ⟨(word.resolve_right unmarked).plain noRegister, labelName_fault_of_ne ?_ noRegister _⟩
    rintro rfl
    exact noLocal rfl

/-- A valid label that is neither local nor made for a use owns the local labels after it. -/
theorem isOwner_labelName (owned : IsOwner owner) (word : Lex.IsWord name ∨ mark ∈ name) :
    IsOwner (labelName owner name).2.1 := by
  rcases labelName_cases owner name with ⟨-, -, e⟩ | ⟨-, e⟩ | ⟨-, e⟩ | ⟨⟨noLocal, unmarked, noRegister⟩, e⟩
  · rwa [e]
  · rwa [e]
  · rwa [e]
  · rw [e]
    exact .inr ⟨(word.resolve_right unmarked).plain noRegister, noLocal⟩

end Program

namespace Assembly

theorem predefined_not_global (s : Settings) (name : Text) : ¬ (predefined s).DefinesGlobal name := by
  rintro ⟨value, state⟩
  cases found : (predefined s).symbols[name]? with
  | none => simp [Ledger.state, found] at state
  | some t =>
    obtain ⟨_, -, rfl⟩ := predefined_entry found
    simp [Ledger.state, found] at state

/-- **The names of global symbols can stand as labels**, if no script is executed and no error reported. -/
theorem global_isLabel {n : Nat} (free : Statement.allScriptFree (programOf s file data) = true)
    (clean : (walked s (programOf s file data) n).Clean)
    (isGlobal : (walked s (programOf s file data) n).ledger.DefinesGlobal name) : IsLabel name := by
  obtain before | ⟨v, visited, defines⟩ := Walk.exists_visit_of_definesGlobal _ _ isGlobal
  · exact absurd before (predefined_not_global s name)
  have stands := Walk.heading_of_visit _ _ _ v visited
  obtain ⟨defines, unmarked⟩ := defines.resolve_right fun ⟨node, source, isScript⟩ => by
    rw [isScript] at stands
    exact Statement.scriptFree_flatten.2 _ free node source stands
  have words : ∀ ln ∈ (expansionOf s file data).lines.toList, ln.Words fun word => Lex.IsWord word ∨ mark ∈ word := by
    refine expansionOf_words (fun word isWord => .inl isWord) fun name use word => .inr ?_
    rw [localName_eq]
    exact mem_append_right _ mem_cons_self
  have label_word {ln : Line} (isLine : ln ∈ (expansionOf s file data).lines.toList) {label : Token}
      (split : (Token.splitLabel ln.tokens).1 = some label) :
      Lex.IsWord label.text ∨ mark ∈ label.text := by
    obtain ⟨more, tokens, labels⟩ := Token.labels_of_splitLabel split
    obtain ⟨word, isWord⟩ := Option.isSome_iff_exists.1 labels.isWord
    rw [Token.text_of_word? isWord]
    exact words ln isLine label (tokens ▸ mem_cons_self) word isWord
  have owners : ∀ ln ∈ (expansionOf s file data).lines.toList, ∀ owner, IsOwner owner →
      IsOwner (ownerAfter owner ln) := by
    intro ln isLine owner owned
    unfold ownerAfter
    split
    · exact owned
    · split
      · exact owned
      next label toks split =>
        exact isOwner_labelName owned (label_word isLine (congrArg Prod.fst split))
  obtain ⟨ln, isLine, owner, seq, owned, e, isEdit, adds⟩ := exists_edit_of_build IsOwner (.inl rfl) owners stands
  obtain ⟨stems, bad | sound⟩ := edits_stem s owner seq ln e isEdit _ adds
  · -- a statement that reports an error has not been executed
    obtain ⟨node, fault, isBad⟩ := bad
    have statement : v.statement = .act node (.bad fault) := by
      cases st : v.statement with
      | act node' action =>
        rw [st] at isBad
        cases isBad
        rfl
      | choose | repeated => rw [st] at isBad; cases isBad
    have after := (between_of_mem_visitsOf visited).after.clean clean
    rw [statement, Walk.step_act] at after
    exact absurd ((Walk.list_clean _ _ _ _ _).1 after) (Walk.not_clean_fail _ _ node fault)
  · have label : (lineNode owner seq ln).label = some name := by
      simpa [eq_comm] using stems.names defines
    obtain ⟨token, split, rfl⟩ := Option.map_eq_some_iff.1 label
    exact isLabel_labelName owned (label_word isLine split) (sound.label token split) unmarked

end Assembly

end Z80Asm
