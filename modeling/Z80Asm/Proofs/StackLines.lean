import Z80Asm.Proofs.Nesting
import Z80Asm.Proofs.PlacedLines
import Z80Asm.Proofs.SameTokens

/-!
# Lines of several operands on the stack

A line of `push` or `pop` with several operands builds what lines of its single operands build, in the
order in which the operands are taken.  The first of these lines has the label.
-/

namespace Z80Asm

open Token List Building

variable {operands : List (List Token)} {lns : List Line} {m : Cpu.Mnemonic} {label' : Option Token}

/-! ## Order of operands -/

/-- What stands in a row, in the order in which `push` or `pop` takes it. -/
def Settings.stackOrder {α : Type} (s : Settings) (m : Cpu.Mnemonic) (as : List α) : List α :=
  if m = .pop && s.popsReversed then as.reverse else as

namespace Settings
variable {α β : Type} {s : Settings}

theorem stackOrder_map (f : α → β) (as : List α) : s.stackOrder m (as.map f) = (s.stackOrder m as).map f := by
  unfold stackOrder
  split <;> simp

theorem stackOrder_flatten (ass : List (List α)) :
    s.stackOrder m ass.flatten = ((s.stackOrder m ass).map (s.stackOrder m)).flatten := by
  unfold stackOrder
  split
  · simp [reverse_flatten]
  · simp

theorem mem_stackOrder {a : α} {as : List α} : a ∈ s.stackOrder m as ↔ a ∈ as := by
  unfold stackOrder
  split <;> simp

theorem stackOrder_ne_nil {as : List α} (h : as ≠ []) : s.stackOrder m as ≠ [] := by
  unfold stackOrder
  split
  · simpa using h
  · exact h

theorem forall₂_stackOrder {R : α → β → Prop} {as : List α} {bs : List β} (h : Forall₂ R as bs) :
    Forall₂ R (s.stackOrder m as) (s.stackOrder m bs) := by
  unfold stackOrder
  split
  · exact rel_reverse h
  · exact h

end Settings

/-! ## Labels -/

namespace Token
variable {label : Option Token} {front toks body : List Token}

/-- What stands before the body of a line: nothing, a name in the first column, or a word and a colon. -/
inductive Fronts : Option Token → List Token → Prop
  | absent : Fronts none []
  | name {label : Token} (isName : label.isName = true) (first : label.col = 1) :
      Fronts (some label) [label]
  | colon {label colon : Token} (isWord : label.isWord = true) (isColon : colon.isSign .colon = true) :
      Fronts (some label) [label, colon]

theorem fronts_of_splitLabel (h : splitLabel toks = (label, body)) :
    ∃ front, toks = front ++ body ∧ Fronts label front := by
  unfold splitLabel at h
  split at h
  · cases h
    exact ⟨[], rfl, .absent⟩
  next first =>
    split at h
    next isLabel =>
      cases h
      simp only [Bool.and_eq_true, beq_iff_eq] at isLabel
      exact ⟨[first], rfl, .name isLabel.1 isLabel.2⟩
    · cases h
      exact ⟨[], rfl, .absent⟩
  next first second rest =>
    split at h
    next isLabel =>
      cases h
      rw [Bool.and_eq_true] at isLabel
      exact ⟨[first, second], rfl, .colon isLabel.2 isLabel.1⟩
    · split at h
      next isLabel =>
        cases h
        simp only [Bool.and_eq_true, beq_iff_eq] at isLabel
        exact ⟨[first], rfl, .name isLabel.1 isLabel.2⟩
      · cases h
        exact ⟨[], rfl, .absent⟩

def beforeBody (toks : List Token) : List Token := toks.take (toks.length - (Token.body toks).length)

theorem beforeBody_eq (h : toks = front ++ Token.body toks) : beforeBody toks = front := by
  have size : toks.length - (Token.body toks).length = front.length := by
    have := congrArg List.length h
    rw [length_append] at this
    omega
  have taken := congrArg (List.take front.length) h
  rw [beforeBody, size, taken, take_left]

def mnemonic? (tok : Token) : Option Cpu.Mnemonic :=
  match tok.lexeme with
  | .word _ (.mnemonic m) => some m
  | _ => none

theorem exists_mnemonic {tok : Token} (h : tok.mnemonic? = some m) : ∃ text, tok.lexeme = .word text (.mnemonic m) := by
  unfold mnemonic? at h
  split at h
  next text _ word =>
    cases h
    exact ⟨text, word⟩
  · cases h

theorem Fronts.splitLabel (h : Fronts label front) {head : Token} {text : Text}
    (word : head.lexeme = .word text (.mnemonic m)) (plain : ∀ tok ∈ body.head?, tok.IsPlain) :
    splitLabel (front ++ head :: body) = (label, head :: body) := by
  have noName : head.isName = false := by simp [isName, word]
  have noSign : head.isSign .colon = false := by simp [isSign, word]
  cases h with
  | absent =>
    cases body with
    | nil => simp [Token.splitLabel, noName]
    | cons second rest =>
      have noColon : second.isSign .colon = false := by simpa [isSign] using (plain second rfl).2
      simp [Token.splitLabel, noName, noColon]
  | name isName first => simp [Token.splitLabel, noSign, isName, first]
  | colon isWord isColon => simp [Token.splitLabel, isWord, isColon]

/-- In the first column in both lines, or in neither. -/
def SameStart (col col' : Nat) : Prop := col' = 1 ↔ col = 1

def Anywhere (_ _ : Nat) : Prop := True

instance (col col' : Nat) : Decidable (SameStart col col') := inferInstanceAs (Decidable (_ ↔ _))

instance (col col' : Nat) : Decidable (Anywhere col col') := isTrue trivial

theorem Fronts.same (h : Fronts label front) {front' : List Token}
    (same : Forall₂ (Same SameStart) front front') :
    ∃ label', Fronts label' front' ∧ label'.map (·.text) = label.map (·.text) := by
  cases h with
  | absent =>
    cases same
    exact ⟨none, .absent, rfl⟩
  | name isName first =>
    obtain ⟨label', _, this, nothing, rfl⟩ := forall₂_cons_left_iff.1 same
    cases nothing
    exact ⟨some label', .name (by simpa [Token.isName, this.1] using isName) (this.2.2 first), by simp [this.text]⟩
  | colon isWord isColon =>
    obtain ⟨label', _, this, others, rfl⟩ := forall₂_cons_left_iff.1 same
    obtain ⟨colon', _, next, nothing, rfl⟩ := forall₂_cons_left_iff.1 others
    cases nothing
    exact ⟨some label', .colon (by simpa [Token.isWord, this.word?] using isWord)
      (by rw [next.isSign, isColon]), by simp [this.text]⟩

theorem compassWord?_eq_none : compassWord? toks = none ↔ ∀ tok ∈ toks, ∀ word ∈ tok.word?, '@'.toUInt8 ∉ word := by
  simp only [compassWord?, find?_eq_none, List.mem_filterMap, List.contains_iff_mem]
  exact ⟨fun h tok mem word isWord => h word ⟨tok, mem, isWord⟩, fun h word ⟨tok, mem, isWord⟩ => h tok mem word isWord⟩

theorem Joins.mem_of_mem {parts : List (List Token)} (h : Joins parts toks) {part : List Token}
    (mem : part ∈ parts) : ∀ tok ∈ part, tok ∈ toks := by
  induction h with
  | single =>
    cases mem_singleton.1 mem
    exact fun _ inside => inside
  | cons first isComma _ ih =>
    rcases mem_cons.1 mem with rfl | mem
    · exact fun tok inside => mem_append_left _ inside
    · exact fun tok inside => mem_append_right _ (mem_cons_of_mem _ (ih mem tok inside))

end Token

/-! ## One line -/

namespace Program

def symbolOf (owner : Text) (label : Option Token) : Option Text :=
  (label.map (·.text)).map fun name => (labelName owner name).1

def ownerOf (owner : Text) (label : Option Token) : Text :=
  match label.map (·.text) with
  | none => owner
  | some name => (labelName owner name).2.1

/-- The statements of operands on the stack, of which the first one has the label. -/
def stackEdits (node : Node) (m : Cpu.Mnemonic) : List Arg → List Edit
  | [] => []
  | first :: rest =>
    .act node (.instruction m [first]) ::
      rest.map fun arg => .act { node with label := none } (.instruction m [arg])

theorem stackEdits_append (node : Node) (m : Cpu.Mnemonic) {as : List Arg} (bs : List Arg) (operands : as ≠ []) :
    stackEdits node m (as ++ bs) = stackEdits node m as ++ stackEdits { node with label := none } m bs := by
  cases as with
  | nil => exact absurd rfl operands
  | cons first rest => cases bs <;> simp [stackEdits]

end Program

def Line.mnemonic? (ln : Line) : Option Cpu.Mnemonic := (Token.body ln.tokens).head?.bind Token.mnemonic?

/-- A line of `push` or `pop` is accepted if its label is valid, no word of it belongs to the other dialect,
    and it has operands that can be read. -/
structure Line.Accepted (s : Settings) (ln : Line) : Prop where
  fault : ln.fault = none
  script : ln.script = none
  valid : ∀ label ∈ (Token.splitLabel ln.tokens).1, (Program.labelName [] label.text).2.2 = none
  native : s.dialect = .native → Token.compassWord? ln.tokens = none
  operands : ∃ m ∈ ln.mnemonic?, (m = .push ∨ m = .pop) ∧
    ∃ as ∈ (Program.args s [] m ((Token.body ln.tokens).drop 1)).toOption, as ≠ []

/-- A line of `push` or `pop` that is accepted, in its parts. -/
structure Line.Stacks (s : Settings) (ln : Line) (label : Option Token) (m : Cpu.Mnemonic) (head : Token)
    (toks : List Token) : Prop where
  fault : ln.fault = none
  script : ln.script = none
  split : Token.splitLabel ln.tokens = (label, head :: toks)
  word : ∃ text, head.lexeme = .word text (.mnemonic m)
  stack : m = .push ∨ m = .pop
  valid : ∀ name ∈ label.map (·.text), (Program.labelName [] name).2.2 = none
  native : s.dialect = .native → Token.compassWord? ln.tokens = none
  read : ∃ as, Program.args s [] m toks = .ok as ∧ as ≠ []

instance {s : Settings} {ln : Line} : Decidable (ln.Accepted s) :=
  decidable_of_iff (ln.fault = none ∧ ln.script = none ∧
      (∀ label ∈ (Token.splitLabel ln.tokens).1, (Program.labelName [] label.text).2.2 = none) ∧
      (s.dialect = .native → Token.compassWord? ln.tokens = none) ∧
      ∃ m ∈ ln.mnemonic?, (m = .push ∨ m = .pop) ∧
        ∃ as ∈ (Program.args s [] m ((Token.body ln.tokens).drop 1)).toOption, as ≠ [])
    ⟨fun ⟨fault, script, valid, native, operands⟩ => ⟨fault, script, valid, native, operands⟩,
      fun ⟨fault, script, valid, native, operands⟩ => ⟨fault, script, valid, native, operands⟩⟩

namespace Program
variable {s : Settings} {ln : Line} {label : Option Token} {head : Token} {toks : List Token} {owner : Text}
  {as : List Arg}

theorem exists_stacks (h : ln.Accepted s) : ∃ label m head toks, ln.Stacks s label m head toks := by
  obtain ⟨m, mnemonic, stack, as, isRead, nonempty⟩ := h.operands
  have valid := h.valid
  unfold Line.mnemonic? Token.body at mnemonic
  unfold Token.body at isRead
  generalize split : splitLabel ln.tokens = parts at mnemonic isRead valid
  obtain ⟨label, _ | ⟨head, toks⟩⟩ := parts
  · cases mnemonic
  have isRead : args s [] m toks = .ok as := by
    rw [drop_succ_cons, drop_zero] at isRead
    cases read : args s [] m toks with
    | error fault => simp [read, Except.toOption] at isRead
    | ok as' => simpa [read, Except.toOption] using isRead
  refine ⟨label, m, head, toks, h.fault, h.script, split, exists_mnemonic mnemonic, stack, ?_, h.native,
    as, isRead, nonempty⟩
  cases label with
  | none => simp
  | some tok => simpa using valid

theorem instructionEdits_stack (stack : m = .push ∨ m = .pop) (node : Node)
    (read : args s owner m toks = .ok as) (operands : as ≠ []) :
    instructionEdits s owner node m toks = stackEdits node m (s.stackOrder m as) := by
  have isStack : (m = .push || m = .pop) = true := by rcases stack with rfl | rfl <;> rfl
  unfold instructionEdits
  rw [read]
  simp only [isStack, Bool.true_and, decide_eq_true_eq]
  cases as with
  | nil => exact absurd rfl operands
  | cons first rest =>
    cases rest with
    | nil =>
      have alone : s.stackOrder m [first] = [first] := by
        unfold Settings.stackOrder
        split <;> rfl
      rw [alone]
      rfl
    | cons second rest =>
      rw [if_pos (by simp)]
      unfold stackEdits Settings.stackOrder
      rfl

theorem labelName_valid {name : Text} (h : (labelName [] name).2.2 = none) (owner : Text) :
    (labelName owner name).2.2 = none := by
  unfold labelName at h ⊢
  split
  next lone => simp [lone] at h
  next noLone =>
    rw [if_neg noLone] at h
    split
    · rfl
    next noLocal =>
      rw [if_neg noLocal] at h
      split
      · rfl
      next noMacro =>
        rw [if_neg noMacro] at h
        split
        next register => simp [register] at h
        · rfl

theorem args_plain (stack : m = .push ∨ m = .pop) (read : args s owner m toks = .ok as) :
    ∀ tok ∈ toks.head?, tok.IsPlain := by
  rw [args_eq_ok stack] at read
  cases toks with
  | nil => simp
  | cons tok rest =>
    rintro _ ⟨⟩
    simp only [splitArgs, isEmpty_cons, Bool.false_eq_true, if_false, splitFrom] at read
    split at read
    · cases read with
      | cons first _ => cases first
    · cases parts : splitFrom (depthAfter 0 tok) rest with
      | nil =>
        rw [parts] at read
        cases read with
        | cons first _ => exact arg_plain first tok mem_cons_self
      | cons part parts' =>
        rw [parts] at read
        cases read with
        | cons first _ => exact arg_plain first tok mem_cons_self

/-- **What a line of `push` or `pop` becomes**: one statement for each operand. -/
theorem edits_stacks (h : ln.Stacks s label m head toks) (seq : Nat)
    (read : args s (ownerOf owner label) m toks = .ok as) (operands : as ≠ []) :
    edits s owner seq ln =
      stackEdits { seq, pos := ln.pos, text := ln.text, label := symbolOf owner label } m (s.stackOrder m as) := by
  obtain ⟨text, word⟩ := h.word
  have native : (if s.dialect = .native then compassWord? ln.tokens else none) = none := by
    split
    next isNative => exact h.native isNative
    · rfl
  have labelled (node : Node) : labelledEdits s (ownerOf owner label) ln node (head :: toks) =
      stackEdits node m (s.stackOrder m as) := by
    unfold labelledEdits
    simp only [h.script, native, bodyEdits, word]
    exact instructionEdits_stack h.stack node read operands
  unfold edits
  simp only [h.fault, h.split]
  cases label with
  | none => exact labelled _
  | some tok =>
    have valid := labelName_valid (h.valid tok.text rfl) owner
    have labelled := labelled
      { seq, pos := ln.pos, text := ln.text, label := symbolOf owner (some tok) }
    simp only [symbolOf, ownerOf, Option.map_some] at labelled ⊢
    generalize labelName owner tok.text = named at valid labelled ⊢
    obtain ⟨name, owner', fault⟩ := named
    cases valid
    exact labelled

theorem ownerAfter_stacks (h : ln.Stacks s label m head toks) (owner : Text) :
    ownerAfter owner ln = ownerOf owner label := by
  rw [ownerAfter, h.fault, h.split]
  cases label <;> rfl

theorem binary?_stacks (h : ln.Stacks s label m head toks) : ln.binary? = none := by
  obtain ⟨text, word⟩ := h.word
  simp [Line.binary?, Token.body, h.split, isDirective, word]

end Program

/-! ## Lines of single operands -/

/-- A line with the same tokens before the mnemonic, the same mnemonic and the operand. -/
structure Line.IsSingle (ln : Line) (front : List Token) (head : Token) (operand : List Token)
    (ln' : Line) : Prop where
  file : ln'.pos.file = ln.pos.file
  fault : ln'.fault = none
  script : ln'.script = none
  ahead : List.Forall₂ (Token.Same Token.SameStart) front (ln'.tokens.take front.length)
  behind : List.Forall₂ (Token.Same Token.Anywhere) (head :: operand) (ln'.tokens.drop front.length)

/-- Lines of single operands.  The first of them has the label. -/
inductive Line.AreSingles (ln : Line) (head : Token) :
    List Token → List (List Token) → List Line → Prop
  | nil (front : List Token) : AreSingles ln head front [] []
  | cons {front operand : List Token} {operands : List (List Token)} {ln' : Line} {lns : List Line}
      (first : ln.IsSingle front head operand ln') (others : AreSingles ln head [] operands lns) :
      AreSingles ln head front (operand :: operands) (ln' :: lns)

namespace Line
variable {ln ln' : Line} {front operand : List Token} {head : Token}

theorem IsSingle.exists_tokens (h : ln.IsSingle front head operand ln') :
    ∃ front' head' operand', ln'.tokens = front' ++ head' :: operand' ∧
      Forall₂ (Same SameStart) front front' ∧ head'.lexeme = head.lexeme ∧
      Forall₂ (Same Anywhere) operand operand' := by
  obtain ⟨head', operand', same, behind, body⟩ := forall₂_cons_left_iff.1 h.behind
  exact ⟨_, head', operand', by rw [← body, take_append_drop], h.ahead, same.1, behind⟩

theorem IsSingle.of_tokens {front' operand' : List Token} {head' : Token} (file : ln'.pos.file = ln.pos.file)
    (fault : ln'.fault = none) (script : ln'.script = none) (tokens : ln'.tokens = front' ++ head' :: operand')
    (ahead : Forall₂ (Same SameStart) front front') (same : head'.lexeme = head.lexeme)
    (behind : Forall₂ (Same Anywhere) operand operand') :
    ln.IsSingle front head operand ln' where
  file := file
  fault := fault
  script := script
  ahead := by rwa [tokens, ahead.length_eq, take_left]
  behind := by
    rw [tokens, ahead.length_eq, drop_left]
    exact .cons ⟨same, trivial⟩ behind

instance : Decidable (ln.IsSingle front head operand ln') :=
  decidable_of_iff (ln'.pos.file = ln.pos.file ∧ ln'.fault = none ∧ ln'.script = none ∧
      List.Forall₂ (Token.Same Token.SameStart) front (ln'.tokens.take front.length) ∧
      List.Forall₂ (Token.Same Token.Anywhere) (head :: operand) (ln'.tokens.drop front.length))
    ⟨fun ⟨file, fault, script, ahead, behind⟩ => ⟨file, fault, script, ahead, behind⟩,
      fun ⟨file, fault, script, ahead, behind⟩ => ⟨file, fault, script, ahead, behind⟩⟩

instance AreSingles.decidable : ∀ (front : List Token) (operands : List (List Token)) (lns : List Line),
    Decidable (ln.AreSingles head front operands lns)
  | front, [], [] => isTrue (.nil front)
  | _, [], _ :: _ => isFalse nofun
  | _, _ :: _, [] => isFalse nofun
  | front, operand :: operands, ln' :: lns =>
    have := AreSingles.decidable [] operands lns
    decidable_of_iff (ln.IsSingle front head operand ln' ∧ ln.AreSingles head [] operands lns)
      ⟨fun ⟨first, others⟩ => .cons first others, fun | .cons first others => ⟨first, others⟩⟩

end Line

/-- A line of `push` or `pop` in place of which lines of its single operands stand. -/
structure Line.Divides (s : Settings) (ln : Line) (m : Cpu.Mnemonic) (label : Option Token)
    (front : List Token) (head : Token) (toks : List Token) (operands : List (List Token))
    (lns : List Line) : Prop extends ln.Stacks s label m head toks where
  tokens : ln.tokens = front ++ head :: toks
  fronts : Token.Fronts label front
  joins : Token.Joins operands toks
  singles : ln.AreSingles head front (s.stackOrder m operands) lns

namespace Program
variable {s : Settings} {ln ln' : Line} {label : Option Token} {front : List Token} {head : Token}
  {toks operand : List Token} {owner : Text} {as : List Arg}

theorem stacks_single (h : ln.Stacks s label m head toks) (single : ln.IsSingle front head operand ln')
    (fronts : Fronts label' front) (valid : ∀ name ∈ label'.map (·.text), (labelName [] name).2.2 = none)
    (within : ∀ tok ∈ front ++ head :: operand, tok ∈ ln.tokens) (read : args s owner m operand = .ok as)
    (operands : as ≠ []) :
    ∃ label'' head' toks', ln'.Stacks s label'' m head' toks' ∧ head'.lexeme = head.lexeme ∧
      label''.map (·.text) = label'.map (·.text) ∧ args s owner m toks' = .ok as := by
  obtain ⟨front', head', operand', tokens, ahead, same, behind⟩ := single.exists_tokens
  obtain ⟨text, word⟩ := h.word
  obtain ⟨label'', fronts', texts⟩ := fronts.same ahead
  obtain ⟨as', read', -, equal⟩ := args_relex h.stack behind read owner
  cases equal rfl
  have word' : head'.lexeme = .word text (.mnemonic m) := same.trans word
  have split := fronts'.splitLabel word' (args_plain h.stack read')
  obtain ⟨bs, readable, size, -⟩ := args_relex h.stack behind read []
  refine ⟨label'', head', operand', ⟨single.fault, single.script, tokens ▸ split, ⟨text, word'⟩, h.stack,
    texts ▸ valid, fun native => ?_, bs, readable, ?_⟩, same, texts, read'⟩
  · -- every word of the line is a word of the longer one
    have whole := compassWord?_eq_none.1 (h.native native)
    refine compassWord?_eq_none.2 fun tok' mem word isWord => ?_
    suffices ∃ tok ∈ front ++ head :: operand, tok'.lexeme = tok.lexeme by
      obtain ⟨tok, inside, lexeme⟩ := this
      exact whole tok (within tok inside) word (by simpa [word?, lexeme] using isWord)
    rw [tokens] at mem
    rcases mem_append.1 mem with mem | mem
    · obtain ⟨tok, inside, same⟩ := exists_of_forall₂_mem ahead.flip mem
      exact ⟨tok, mem_append_left _ inside, same.1⟩
    · rcases mem_cons.1 mem with rfl | mem
      · exact ⟨head, by simp, same⟩
      · obtain ⟨tok, inside, same⟩ := exists_of_forall₂_mem behind.flip mem
        exact ⟨tok, by simp [inside], same.1⟩
  · rintro rfl
    exact operands (length_eq_zero_iff.1 size.symm)

/-! ### What the lines build -/

theorem owner_editAll (st : Building) (es : List Edit) : (st.editAll es).owner = st.owner := by
  have same := congrArg Building.owner (editAll_atLine st st.seq st.owner es)
  exact same

theorem fatal_stackEdits (st : Building) (node : Node) (m : Cpu.Mnemonic) (as : List Arg) :
    (st.editAll (stackEdits node m as)).fatal = st.fatal := by
  have acts (node : Node) (as : List Arg) (st : Building) :
      (st.editAll (as.map fun arg => .act node (.instruction m [arg]))).fatal = st.fatal := by
    induction as generalizing st with
    | nil => rfl
    | cons first rest ih => exact (ih _).trans (fatal_add _ _)
  cases as with
  | nil => rfl
  | cons first rest => exact (acts _ _ _).trans (fatal_add _ _)

theorem stackEdits_placed {T : Numbering} {skips : Prop} {node node' : Node} (m : Cpu.Mnemonic)
    (placed : ∀ a, Statement.Placed T skips (.act node (.instruction m [a])) (.act node' (.instruction m [a])))
    (as : List Arg) : Forall₂ (Edit.Placed T skips) (stackEdits node m as) (stackEdits node' m as) := by
  cases as with
  | nil => exact .nil
  | cons first rest =>
    refine .cons (.act (placed first)) ?_
    rw [forall₂_map_left_iff, forall₂_map_right_iff]
    exact forall₂_same.2 fun arg _ => .act (.instruction rfl rfl m [arg])

def nodeAt (st : Building) (ln : Line) (label : Option Token) : Node :=
  { seq := st.seq + 1, pos := ln.pos, text := ln.text, label := symbolOf st.owner label }

variable {T : Numbering} {skips : Prop} {st st' : Building} {node : Node} (read : Text → Except Fault Text)

/-- **One line of a single operand** adds the statements of that operand. -/
theorem line_single (h : ln.Stacks s label m head toks) (single : ln.IsSingle front head operand ln')
    (fronts : Fronts label' front) (valid : ∀ name ∈ label'.map (·.text), (labelName [] name).2.2 = none)
    (within : ∀ tok ∈ front ++ head :: operand, tok ∈ ln.tokens)
    (isRead : args s (ownerOf st'.owner label') m operand = .ok as) (operands : as ≠ [])
    (placed : st.Placed T skips st')
    (nodes : ∀ a, Statement.Placed T skips (.act node (.instruction m [a]))
      (.act (nodeAt st' ln' label') (.instruction m [a]))) :
    (line (s.reading read) st' ln').seq = st'.seq + 1 ∧
      (line (s.reading read) st' ln').fatal = st'.fatal ∧
      ∀ seq, ((st.editAll (stackEdits node m (s.stackOrder m as))).atLine seq
        (ownerOf st'.owner label')).Placed T skips (line (s.reading read) st' ln') := by
  obtain ⟨label'', head', toks', stacked, -, texts, isRead'⟩ :=
    stacks_single h single fronts valid within isRead operands
  have symbol : symbolOf st'.owner label'' = symbolOf st'.owner label' := by rw [symbolOf, texts, symbolOf]
  have owner : ownerOf st'.owner label'' = ownerOf st'.owner label' := by rw [ownerOf, texts, ownerOf]
  have same : edits (s.reading read) st'.owner (st'.seq + 1) ln' =
      stackEdits (nodeAt st' ln' label') m (s.stackOrder m as) := by
    rw [edits_reading read _ _ (by simp [binary?_stacks stacked]),
      edits_stacks stacked _ (owner ▸ isRead') operands, symbol, nodeAt]
  rw [line_eq, same, ownerAfter_stacks stacked, owner]
  exact ⟨rfl, fatal_stackEdits .., fun seq => (placed.editAll (stackEdits_placed m nodes _)).atLine ..⟩

/-- **Lines of single operands without labels** add the statements of these operands. -/
theorem lines_singles (h : ln.Stacks s label m head toks)
    (singles : ln.AreSingles head [] operands lns) (isHead : head ∈ ln.tokens)
    (within : ∀ operand ∈ operands, ∀ tok ∈ operand, tok ∈ ln.tokens) {ass : List (List Arg)}
    (each : Forall₂ (fun operand as => args s st'.owner m operand = .ok as ∧ as ≠ []) operands ass)
    (placed : st.Placed T skips st') (going : st'.fatal = none) (node : Node) (bare : node.label = none) :
    st'.seq ≤ (lines (s.reading read) lns st').seq ∧
      (st.editAll (stackEdits node m (ass.map (s.stackOrder m)).flatten)).Placed T skips
        (lines (s.reading read) lns st') := by
  have unlabelled : { node with label := none } = node := by rw [← bare]
  induction operands generalizing lns ass st st' with
  | nil =>
    cases singles
    cases each
    exact ⟨Nat.le_refl _, placed⟩
  | cons operand operands ih =>
    obtain ⟨as, ass, ⟨isRead, nonempty⟩, others, rfl⟩ := forall₂_cons_left_iff.1 each
    cases singles with
    | @cons _ _ _ ln' lns single singles =>
      rw [forall_mem_cons] at within
      have here : ∀ tok ∈ [] ++ head :: operand, tok ∈ ln.tokens := forall_mem_cons.2 ⟨isHead, within.1⟩
      obtain ⟨seq, fatal, next⟩ := line_single read h single .absent (by simp) here isRead nonempty placed
        fun a => .instruction bare rfl m [a]
      have placed' : (st.editAll (stackEdits node m (s.stackOrder m as))).Placed T skips
          (line (s.reading read) st' ln') :=
        { next 0 with
          owner := (next 0).owner.trans (placed.owner.trans (owner_editAll ..).symm) }
      have same : (line (s.reading read) st' ln').owner = st'.owner := (next 0).owner
      rw [← same] at others
      have rest := ih singles within.2 others placed' (fatal.trans going)
      rw [lines, if_neg (by simp [fatal, going]), map_cons, flatten_cons,
        stackEdits_append _ _ _ (Settings.stackOrder_ne_nil nonempty), editAll_append, unlabelled]
      exact ⟨by omega, rest.2⟩

section
variable (h : ln.Divides s m label front head toks operands lns)
include h

theorem read_operands (owner : Text) :
    ∃ as ass, args s owner m toks = .ok as ∧ as ≠ [] ∧
      s.stackOrder m as = (ass.map (s.stackOrder m)).flatten ∧
      Forall₂ (fun operand as => args s owner m operand = .ok as ∧ as ≠ []) (s.stackOrder m operands)
        ass := by
  obtain ⟨as₀, readable, nonempty₀⟩ := h.read
  obtain ⟨as, isRead, size, -⟩ := args_relex h.stack
    (forall₂_same.2 fun tok _ => (⟨rfl, trivial⟩ : tok.Same Anywhere tok)) readable owner
  have nonempty : as ≠ [] := by
    rintro rfl
    exact nonempty₀ (length_eq_zero_iff.1 size.symm)
  obtain ⟨ass, each, rfl⟩ := args_joins h.stack h.joins isRead nonempty
  exact ⟨_, s.stackOrder m ass, isRead, nonempty, Settings.stackOrder_flatten ass, Settings.forall₂_stackOrder each⟩

theorem mem_tokens_operand (mem : operand ∈ s.stackOrder m operands) :
    ∀ tok ∈ front ++ head :: operand, tok ∈ ln.tokens := by
  simp only [mem_append, mem_cons, h.tokens]
  rintro tok (ahead | isHead | inside)
  · exact .inl ahead
  · exact .inr (.inl isHead)
  · exact .inr (.inr (h.joins.mem_of_mem (Settings.mem_stackOrder.1 mem) tok inside))

theorem stacks_singles :
    ∀ ln' ∈ lns, ∃ label' head' toks', ln'.Stacks s label' m head' toks' ∧ head'.lexeme = head.lexeme := by
  have inOrder {label' : Option Token} {front : List Token} {operands : List (List Token)} {lns : List Line}
      {ass : List (List Arg)} (singles : ln.AreSingles head front operands lns)
      (fronts : Fronts label' front)
      (valid : ∀ name ∈ label'.map (·.text), (labelName [] name).2.2 = none)
      (within : ∀ operand ∈ operands, ∀ tok ∈ front ++ head :: operand, tok ∈ ln.tokens)
      (each : Forall₂ (fun operand as => args s [] m operand = .ok as ∧ as ≠ []) operands ass) :
      ∀ ln' ∈ lns, ∃ label' head' toks', ln'.Stacks s label' m head' toks' ∧ head'.lexeme = head.lexeme := by
    induction singles generalizing label' ass with
    | nil => simp
    | cons first _ ih =>
      obtain ⟨as, ass, ⟨isRead, nonempty⟩, others, rfl⟩ := forall₂_cons_left_iff.1 each
      rw [forall_mem_cons] at within ⊢
      obtain ⟨label'', head', toks', stacked, same, -, -⟩ :=
        stacks_single h.toStacks first fronts valid within.1 isRead nonempty
      exact ⟨⟨label'', head', toks', stacked, same⟩, ih .absent (by simp)
        (fun operand mem tok inside => within.2 operand mem tok (mem_append_right _ inside)) others⟩
  obtain ⟨as, ass, -, -, -, each⟩ := read_operands h []
  exact inOrder h.singles h.fronts h.valid (fun operand mem => mem_tokens_operand h mem) each

/-- **The lines of its single operands are built like a line of `push` or `pop`.** -/
theorem BuiltAlike.singles : BuiltAlike skips s (s.reading read) [ln] lns := by
  intro S st st' ordered below placed going
  obtain ⟨as, ass, isRead, nonempty, inOrder, each⟩ := read_operands h (ownerOf st.owner label)
  have within {operand : List Token} (mem : operand ∈ s.stackOrder m operands) := mem_tokens_operand h mem
  rw [lines_single, line_eq, edits_stacks h.toStacks _ isRead nonempty, ownerAfter_stacks h.toStacks, inOrder]
  have taken := Settings.stackOrder_ne_nil (s := s) (m := m) nonempty
  rw [inOrder] at taken
  have singles := h.singles
  generalize s.stackOrder m operands = operands at each singles within
  cases singles with
  | nil =>
    cases each
    exact absurd rfl taken
  | @cons _ operand operands ln' lns single singles =>
    obtain ⟨as, ass, ⟨isRead, nonempty⟩, others, rfl⟩ := forall₂_cons_left_iff.1 each
    have here := within mem_cons_self
    -- the first line has the label, and is numbered like the line of all operands
    have nodes : (nodeAt st ln label).Placed (S.insert (st.seq + 1) (st'.seq + 1)) (nodeAt st' ln' label) :=
      ⟨by rw [nodeAt, nodeAt, placed.owner], single.file, .inr ⟨rfl, rfl⟩⟩
    rw [← placed.owner] at isRead others
    obtain ⟨seq, fatal, next⟩ := line_single read h.toStacks single h.fronts h.valid here isRead nonempty
      (placed.mono fun _ _ => .inl) fun a => .act nodes _
    have going' : (line (s.reading read) st' ln').fatal = none := fatal.trans (placed.fatal.trans going)
    have owner : (line (s.reading read) st' ln').owner = ownerOf st'.owner label := (next 0).owner
    rw [← owner] at others
    have behind : ∀ operand ∈ operands, ∀ tok ∈ operand, tok ∈ ln.tokens := fun operand mem tok inside =>
      within (mem_cons_of_mem _ mem) tok (by simp [inside])
    obtain ⟨later, built⟩ := lines_singles read h.toStacks singles (here head (by simp)) behind others
      (next (st.seq + 1)) going' { nodeAt st ln label with label := none } rfl
    rw [lines, if_neg (by simp [going'])]
    refine ⟨S.insert (st.seq + 1) (st'.seq + 1), fun _ _ => .inl,
      ordered.insert below (Nat.lt_succ_self _) (Nat.lt_succ_self _), ?_, ?_⟩
    · refine (below.insert (Nat.lt_succ_self _) (Nat.lt_succ_self _)).mono (Nat.le_refl _) ?_
      omega
    · rw [map_cons, flatten_cons,
        stackEdits_append _ _ _ (Settings.stackOrder_ne_nil nonempty), editAll_append,
        ← editAll_atLine]
      rw [placed.owner] at built
      exact built

end

end Program

end Z80Asm
