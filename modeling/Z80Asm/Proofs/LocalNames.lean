import Z80Asm.Proofs.StackLines
import Z80Asm.Proofs.SymbolNames

/-!
# Lines without local names

A name that starts with a dot belongs to the last label before it that is not local.  Lines without such names
become the same statements whatever label stands before them, up to the first line that has such a label itself.
-/

namespace Z80Asm

open Token List

/-- A word that belongs to the last label before it. -/
def Token.isLocal (tok : Token) : Bool := tok.word?.any (·.head? == some '.'.toUInt8)

theorem Token.fileName_subset (toks : List Token) : (fileName toks).2 ⊆ toks := by
  unfold fileName
  split
  · exact Subset.refl _
  next first rest =>
    split
    · exact subset_cons_self _ _
    · split
      · exact Subset.refl _
      · exact Subset.trans (drop_subset _ _) (subset_cons_self _ _)

theorem Token.singleWord?_eq_some {toks : List Token} {word : Text} (h : singleWord? toks = some word) :
    ∃ tok, toks = [tok] ∧ tok.word? = some word := by
  unfold singleWord? at h
  split at h
  next tok => exact ⟨tok, rfl, h⟩
  · cases h

theorem Token.splitLabel_subset {toks body : List Token} {label : Option Token}
    (h : splitLabel toks = (label, body)) :
    (∀ tok ∈ label, tok ∈ toks ∧ tok.word? = some tok.text) ∧ body ⊆ toks := by
  obtain ⟨front, rfl, fronts⟩ := fronts_of_splitLabel h
  refine ⟨fun tok isLabel => ?_, subset_append_right _ _⟩
  have spelled (isWord : tok.isWord = true) : tok.word? = some tok.text := by
    obtain ⟨word, found⟩ := Option.isSome_iff_exists.1 isWord
    rw [found, text_of_word? found]
  cases fronts with
  | absent => cases isLabel
  | name isName first =>
    cases isLabel
    exact ⟨by simp, spelled (isWord_of_isName isName)⟩
  | colon isWord isColon =>
    cases isLabel
    exact ⟨by simp, spelled isWord⟩

namespace Program
variable {s : Settings} {toks : List Token}

/-! ## Readings that agree -/

theorem mapM_congr {α β ε : Type} {f g : α → Except ε β} {xs : List α} (same : ∀ x ∈ xs, f x = g x) :
    xs.mapM f = xs.mapM g := by
  induction xs with
  | nil => rfl
  | cons x xs ih =>
    rw [forall_mem_cons] at same
    rw [mapM_cons, mapM_cons, same.1, ih same.2]

/-- Two readings of tokens, each with settings and an owner of local names, that agree on the expressions and on the
    names among them. -/
structure ReadsAlike (s s' : Settings) (owner owner' : Text) (toks : List Token) : Prop where
  expr : ∀ part ⊆ toks, expr s owner part = expr s' owner' part
  words : ∀ tok ∈ toks, ∀ word ∈ tok.word?, qualify owner word = qualify owner' word
  strings : s.dialect = s'.dialect ∨ ∀ tok ∈ toks, tok.string? ≠ some []

namespace ReadsAlike
variable {s' : Settings} {owner owner' : Text} (h : ReadsAlike s s' owner owner' toks)
include h

theorem mono {part : List Token} (within : part ⊆ toks) : ReadsAlike s s' owner owner' part :=
  ⟨fun _ inside => h.expr _ (Subset.trans inside within), fun tok mem => h.words tok (within mem),
    h.strings.imp_right fun full tok mem => full tok (within mem)⟩

theorem wholeExpr : wholeExpr s owner toks = wholeExpr s' owner' toks := by
  rw [Program.wholeExpr, Program.wholeExpr, h.expr toks (Subset.refl _)]

theorem bracketed (all : List Token) : bracketed s owner all toks = bracketed s' owner' all toks := by
  unfold Program.bracketed
  rw [h.wholeExpr]
  cases toks with
  | nil => rfl
  | cons first rest =>
    dsimp only
    rw [(h.mono (subset_cons_self first rest)).wholeExpr]

theorem arg (condition : Bool) : arg s owner condition toks = arg s' owner' condition toks := by
  unfold Program.arg
  rw [h.wholeExpr]
  cases enclosed : enclosed? toks with
  | none => rfl
  | some inner =>
    obtain ⟨first, last, _, _, rfl, -⟩ := enclosed?_eq_some_iff.1 enclosed
    have within : inner ⊆ first :: inner ++ [last] := by simp
    dsimp only
    rw [(h.mono within).bracketed]

theorem group {group : List Token} (mem : group ∈ splitArgs toks) : ReadsAlike s s' owner owner' group :=
  h.mono (mem_splitArgs mem)

theorem args (m : Cpu.Mnemonic) : args s owner m toks = args s' owner' m toks := by
  have group {group : List Token} (mem : group ∈ splitArgs toks) := h.group mem
  unfold Program.args
  cases parts : splitArgs toks with
  | nil => rfl
  | cons first rest =>
    rw [parts] at group
    dsimp only
    rw [(group mem_cons_self).arg, mapM_congr fun _ mem => (group (mem_cons_of_mem _ mem)).arg false]

theorem exprs (least most : Nat) : exprs s owner toks least most = exprs s' owner' toks least most := by
  unfold Program.exprs
  dsimp only
  rw [mapM_congr fun _ mem => (h.group mem).wholeExpr]

theorem item (width : Width) : item s owner width toks = item s' owner' width toks := by
  unfold Program.item
  rw [h.wholeExpr]
  split
  next tok =>
    split
    next empty =>
      rcases h.strings with same | full
      · rw [same]
      · exact absurd empty (full tok mem_cons_self)
    · rfl
    · rfl
  · rfl

/-! ## Edits -/

variable (node : Node)

theorem incbinEdits (find : s.find = s'.find) : incbinEdits s owner node toks = incbinEdits s' owner' node toks := by
  have behind := h.mono (fileName_subset toks)
  unfold Program.incbinEdits
  rw [find]
  generalize fileName toks = parts at behind
  obtain ⟨name, _ | ⟨comma, more⟩⟩ := parts
  · rfl
  · dsimp only
    rw [(behind.mono (subset_cons_self comma more)).exprs]

theorem headEdits (enter : Expr → Edit) : headEdits s owner node toks enter = headEdits s' owner' node toks enter := by
  rw [Program.headEdits, Program.headEdits, h.expr toks (Subset.refl _)]

theorem enterDefinedEdits (negated : Bool) :
    enterDefinedEdits owner node negated toks = enterDefinedEdits owner' node negated toks := by
  unfold Program.enterDefinedEdits
  cases single : singleWord? toks with
  | none => rfl
  | some word =>
    obtain ⟨tok, rfl, isWord⟩ := singleWord?_eq_some single
    dsimp only
    rw [h.words tok mem_cons_self word isWord]

theorem equateEdits (word : Text) (assigned : Bool) :
    equateEdits s owner node word assigned toks = equateEdits s' owner' node word assigned toks := by
  rw [Program.equateEdits, Program.equateEdits, h.wholeExpr]

/-- **A directive does the same in both readings**, unless only one of them reports it. -/
theorem directiveEdits (find : s.find = s'.find) (d : Directive)
    (dialect : d = .cond ∨ d = .endc → s.dialect = s'.dialect) :
    directiveEdits s owner node d toks = directiveEdits s' owner' node d toks := by
  cases d with
  | data width =>
    simp only [Program.directiveEdits, dataEdits, mapM_congr fun _ mem => (h.group mem).item width]
  | equ | defl => exact h.equateEdits node _ _
  | org | assert => simp only [Program.directiveEdits, withOneEdits, h.exprs]
  | space | align => simp only [Program.directiveEdits, withTwoEdits, h.exprs]
  | incbin => exact h.incbinEdits node find
  | ifTrue => simp only [Program.directiveEdits, enterIfEdits, h.headEdits]
  | cond =>
    simp only [Program.directiveEdits, compassOnlyEdits, enterIfEdits, h.headEdits, dialect (.inl rfl)]
  | endc => simp only [Program.directiveEdits, compassOnlyEdits, dialect (.inr rfl)]
  | rept => simp only [Program.directiveEdits, enterReptEdits, h.headEdits]
  | ifdef | ifndef => exact h.enterDefinedEdits node _
  | _ => rfl

theorem bodyEdits (order : s.popsReversed = s'.popsReversed) (find : s.find = s'.find)
    (dialect : ∀ d ∈ [Directive.cond, .endc], toks.head?.any (·.isDirective d) → s.dialect = s'.dialect) :
    bodyEdits s owner node toks = bodyEdits s' owner' node toks := by
  cases toks with
  | nil => rfl
  | cons head rest =>
    have behind := h.mono (subset_cons_self head rest)
    unfold Program.bodyEdits
    dsimp only
    split
    · exact behind.equateEdits node _ _
    next d lexeme =>
      refine behind.directiveEdits node find d fun isWord => dialect d (by simpa using isWord) ?_
      simp [isDirective, lexeme]
    next m _ => rw [instructionEdits, instructionEdits, behind.args, order]
    · rfl

end ReadsAlike

/-! ## Names that are not local -/

theorem qualify_of_not_local {name : Text} (h : name.head? ≠ some '.'.toUInt8) (owner : Text) :
    qualify owner name = name := by
  rw [qualify, if_neg (by simpa using h)]

theorem qualifyToken_of_not_local {tok : Token} (h : tok.isLocal = false) (owner : Text) :
    qualifyToken owner tok = tok := by
  unfold qualifyToken
  split
  next name lexeme =>
    have plain : name.head? ≠ some '.'.toUInt8 := by
      simpa [isLocal, word?, lexeme] using h
    rw [qualify_of_not_local plain, ← lexeme]
  next => rfl

theorem ReadsAlike.of_noLocals (noLocals : ∀ tok ∈ toks, tok.isLocal = false) (owner owner' : Text) :
    ReadsAlike s s owner owner' toks where
  expr part within := by
    have same (owner : Text) : part.map (qualifyToken owner) = part := by
      refine (map_congr_left fun tok mem => ?_).trans (List.map_id _)
      exact qualifyToken_of_not_local (noLocals tok (within mem)) owner
    rw [Program.expr, Program.expr, same, same]
  words tok mem word isWord := by
    have plain : word.head? ≠ some '.'.toUInt8 := by
      simpa [isLocal, Option.mem_def.1 isWord] using noLocals tok mem
    rw [qualify_of_not_local plain, qualify_of_not_local plain]
  strings := .inl rfl

/-! ## Lines -/

theorem labelName_of_not_local {name : Text} (h : name.head? ≠ some '.'.toUInt8) (owner owner' : Text) :
    (labelName owner name).1 = (labelName owner' name).1 ∧
      (labelName owner name).2.2 = (labelName owner' name).2.2 := by
  unfold labelName
  simp only [beq_iff_eq, h, if_false]
  split
  · exact ⟨rfl, rfl⟩
  split
  · exact ⟨rfl, rfl⟩
  split <;> exact ⟨rfl, rfl⟩

/-- **A line without local names makes the same edits after every label.** -/
theorem edits_of_noLocals {ln : Line} (noLocals : ∀ tok ∈ ln.tokens, tok.isLocal = false) (owner owner' : Text)
    (seq : Nat) : edits s owner seq ln = edits s owner' seq ln := by
  have labelled (owner owner' : Text) (node : Node) {toks : List Token} (within : toks ⊆ ln.tokens) :
      labelledEdits s owner ln node toks = labelledEdits s owner' ln node toks := by
    rw [labelledEdits, labelledEdits,
      (ReadsAlike.of_noLocals (fun tok mem => noLocals tok (within mem)) owner owner').bodyEdits node rfl rfl fun _ _ _ => rfl]
  unfold edits
  dsimp only
  cases ln.fault with
  | some fault => rfl
  | none =>
    rcases split : splitLabel ln.tokens with ⟨_ | label, toks⟩
    · exact labelled owner owner' _ (splitLabel_subset split).2
    · obtain ⟨mem, isWord⟩ := (splitLabel_subset split).1 label rfl
      have plain : label.text.head? ≠ some '.'.toUInt8 := by
        simpa [isLocal, isWord] using noLocals label mem
      obtain ⟨name, fault⟩ := labelName_of_not_local plain owner owner'
      dsimp only
      rw [name, fault]
      cases (labelName owner' label.text).2.2 with
      | some fault => rfl
      | none => exact labelled _ _ _ (splitLabel_subset split).2

theorem edits_of_takesOver {ln : Line} (takesOver : ownerAfter [] ln ≠ []) (owner owner' : Text) (seq : Nat) :
    edits s owner seq ln = edits s owner' seq ln ∧ ownerAfter owner ln = ownerAfter owner' ln := by
  unfold ownerAfter edits at *
  cases fault : ln.fault with
  | some fault => simp [fault] at takesOver
  | none =>
    rw [fault] at takesOver
    rcases split : splitLabel ln.tokens with ⟨_ | label, toks⟩
    · simp [split] at takesOver
    · simp only [split] at takesOver
      have global (owner : Text) : labelName owner label.text = (label.text, label.text, none) := by
        rcases labelName_cases [] label.text with
          ⟨-, -, kept⟩ | ⟨-, kept⟩ | ⟨-, kept⟩ | ⟨⟨noLocal, unmarked, noRegister⟩, -⟩
        · exact absurd kept takesOver
        · exact absurd (by rw [kept]) takesOver
        · exact absurd (by rw [kept]) takesOver
        · have noDot : label.text ≠ bytes "." := fun dot => noLocal (by rw [dot]; rfl)
          rcases labelName_cases owner label.text with ⟨wrong, -⟩ | ⟨isLocal, -⟩ | ⟨marked, -⟩ | ⟨-, e⟩
          · exact (wrong.elim noDot (· noRegister)).elim
          · exact absurd isLocal.1 noLocal
          · exact absurd marked unmarked
          · exact e
      simp only [global, and_self]

/-- No local name stands before the first label that takes over. -/
def ownsItself : List Line → Bool
  | [] => true
  | ln :: rest => ownerAfter [] ln != [] || (ln.tokens.all (!·.isLocal) && ownsItself rest)

/-- **Lines before which no label is needed are built in the same way after every label.** -/
theorem lines_owner {ls : List Line} (h : ownsItself ls = true) (st : Building) (owner : Text) :
    ∃ owner', lines s ls { st with owner } = { lines s ls st with owner := owner' } := by
  induction ls generalizing st owner with
  | nil => exact ⟨owner, rfl⟩
  | cons ln rest ih =>
    rw [ownsItself, Bool.or_eq_true, Bool.and_eq_true, bne_iff_ne] at h
    have here (same : edits s owner (st.seq + 1) ln = edits s st.owner (st.seq + 1) ln) :
        line s { st with owner } ln = { line s st ln with owner := ownerAfter owner ln } := by
      have base : ({ st with owner } : Building) = st.atLine st.seq owner := rfl
      rw [line_eq, line_eq, same, base, Building.editAll_atLine]
      rfl
    rcases h with takesOver | ⟨noLocals, behind⟩
    · obtain ⟨same, after⟩ := edits_of_takesOver (s := s) takesOver owner st.owner (st.seq + 1)
      have equal : line s { st with owner } ln = line s st ln := by
        rw [here same, after, line_eq]
        rfl
      exact ⟨_, by rw [lines, lines, equal]⟩
    · rw [all_eq_true] at noLocals
      have same := edits_of_noLocals (s := s) (by simpa using noLocals) owner st.owner (st.seq + 1)
      rw [lines, lines, here same]
      dsimp only
      split
      · exact ⟨_, rfl⟩
      · exact ih behind _ _

end Program

end Z80Asm
