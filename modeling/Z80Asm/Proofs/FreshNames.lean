import Z80Asm.Proofs.LoadedRows
import Z80Asm.Proofs.MacroLocals
import Z80Asm.Proofs.StackLines

/-!
# Names that are made for local words

A local word in the body of a macro becomes `name>number.word` in a use.  No word of a source has a `>`, and
no number comes twice, so that the parts of such a name can be read off it: the name of the macro ends at the
first `>`, and the number at the first `.` behind that.  This needs macros that have the names of source words;
one that the lines of a use define may be called by a made name itself.
-/

namespace Z80Asm

open List

variable {macros : Std.TreeMap Text Macro} {label : Option Token} {args : List Token} {word : Text} {tok : Token}
  {ln : Line}

def Line.StartsDefinition (ln : Line) : Prop :=
  ln.fault = none ∧ ln.script = none ∧ Token.bodyIs .define ln.tokens = true

instance (ln : Line) : Decidable ln.StartsDefinition := inferInstanceAs (Decidable (_ ∧ _ ∧ _))

/-- The byte that stands in no word of a source. -/
def Macro.mark : UInt8 := '>'.toUInt8

namespace Lex

theorem isWordByte_ne_mark (b : UInt8) : isWordByte b → b ≠ Macro.mark := by
  revert b
  exact byte_cases (by decide +kernel)

theorem IsWord.unmarked {text : Text} (h : IsWord text) : Macro.mark ∉ text := by
  intro mem
  rcases h.mem_facts _ mem with isByte | isApostrophe
  · exact isWordByte_ne_mark _ isByte rfl
  · revert isApostrophe
    decide

end Lex

namespace Token

theorem word?_eq_some (h : tok.word? = some word) : ∃ role, tok.lexeme = .word word role := by
  unfold word? at h
  split at h
  next role lexeme =>
    cases h
    exact ⟨role, lexeme⟩
  · cases h

theorem text_of_word? (h : tok.word? = some word) : tok.text = word := by
  obtain ⟨role, lexeme⟩ := word?_eq_some h
  simp [text, lexeme]

end Token

theorem lex_unmarked {dialect : Dialect} {row : Text} (mem : tok ∈ (lex dialect row).tokens)
    (isWord : tok.word? = some word) : Macro.mark ∉ word := by
  obtain ⟨role, lexeme⟩ := Token.word?_eq_some isWord
  exact (lex_words mem lexeme).1.unmarked

namespace Macro

/-! ## The parts of a made name -/

section
variable (name : Text) (number : Nat) (word : Text)

theorem localName_eq : localName name number word = name ++ mark :: (Text.ofNat number ++ '.'.toUInt8 :: word) := by
  have sign : bytes ">" = [mark] := by decide
  have dot : bytes "." = ['.'.toUInt8] := by decide
  simp [localName, sign, dot]

theorem mark_mem_localName : mark ∈ localName name number word := by
  rw [localName_eq]
  exact mem_append_right _ mem_cons_self

theorem cut_localName {name : Text} (unmarked : mark ∉ name) (number : Nat) (word : Text) :
    (localName name number word).takeWhile (· != mark) = name ∧
      (localName name number word).dropWhile (· != mark) = mark :: (Text.ofNat number ++ '.'.toUInt8 :: word) := by
  rw [localName_eq]
  refine Lex.span_append (fun b mem => ?_) ?_
  · simpa using ne_of_mem_of_not_mem mem unmarked
  · rintro b ⟨⟩
    simp

theorem cut_number :
    (Text.ofNat number ++ '.'.toUInt8 :: word).takeWhile Lex.isDigit = Text.ofNat number ∧
      (Text.ofNat number ++ '.'.toUInt8 :: word).dropWhile Lex.isDigit = '.'.toUInt8 :: word := by
  refine Lex.span_append (Lex.ofNat_decimal number).2.1 ?_
  rintro b ⟨⟩
  decide

end

theorem localName_inj {name name' : Text} (unmarked : mark ∉ name) (unmarked' : mark ∉ name')
    {number number' : Nat} {word word' : Text} :
    localName name number word = localName name' number' word' ↔ name = name' ∧ number = number' ∧ word = word' := by
  refine ⟨fun same => ?_, by rintro ⟨rfl, rfl, rfl⟩; rfl⟩
  obtain ⟨isName, behind⟩ := cut_localName unmarked number word
  obtain ⟨isName', behind'⟩ := cut_localName unmarked' number' word'
  rw [same] at isName behind
  have names : name = name' := isName.symm.trans isName'
  have numbered : Text.ofNat number ++ '.'.toUInt8 :: word = Text.ofNat number' ++ '.'.toUInt8 :: word' :=
    tail_eq_of_cons_eq (behind.symm.trans behind')
  have digits : Text.ofNat number = Text.ofNat number' := by
    rw [← (cut_number number word).1, numbered, (cut_number number' word').1]
  have words : '.'.toUInt8 :: word = '.'.toUInt8 :: word' := by
    rw [← (cut_number number word).2, numbered, (cut_number number' word').2]
  refine ⟨names, ?_, tail_eq_of_cons_eq words⟩
  rw [← (Lex.ofNat_decimal number).2.2, digits, (Lex.ofNat_decimal number').2.2]

/-! ## Names of macros -/

theorem startsDefinition_of_task (h : task macros ln = .define label args) :
    ln.StartsDefinition ∧ ∃ head, Token.splitLabel ln.tokens = (label, head :: args) := by
  unfold task at h
  split at h
  · cases h
  next clear =>
    have clear : ln.fault = none ∧ ln.script = none := by simpa using clear
    split at h
    · cases h
    next label' head args' split' =>
      split at h
      next isDefine =>
        cases h
        refine ⟨⟨clear.1, clear.2, ?_⟩, head, split'⟩
        simpa [Token.bodyIs, Token.body, split'] using isDefine
      · split at h
        · cases h
        · split at h <;> cases h

theorem heading_word (h : task macros ln = .define label args) :
    ∀ name ∈ (heading label args).1, ∃ tok ∈ ln.tokens, tok.word? = some name := by
  obtain ⟨-, head, split⟩ := startsDefinition_of_task h
  obtain ⟨front, tokens, -⟩ := Token.fronts_of_splitLabel split
  unfold heading
  cases label with
  | some label =>
    rintro name ⟨⟩
    obtain ⟨more, whole, labels⟩ := Token.labels_of_splitLabel (congrArg Prod.fst split)
    obtain ⟨text, isText⟩ := Option.isSome_iff_exists.1 labels.isWord
    rw [Token.text_of_word? isText]
    exact ⟨label, whole ▸ mem_cons_self, isText⟩
  | none =>
    cases args with
    | nil => simp
    | cons first rest =>
      dsimp only
      cases isWord : first.word? with
      | none => simp
      | some name =>
        rintro _ ⟨⟩
        exact ⟨first, by rw [tokens]; simp, isWord⟩

theorem heading_unmarked {dialect : Dialect} (isRow : ln.IsRow dialect)
    (h : task macros ln = .define label args) : ∀ name ∈ (heading label args).1, mark ∉ name := by
  intro name isName
  obtain ⟨tok, mem, isWord⟩ := heading_word h name isName
  exact lex_unmarked (isRow.tokens ▸ mem) isWord

namespace Runs
variable {s : Settings} {depth : Nat} {lines : List Line} {st st' : Expansion} {us : List Use}

theorem exists_use (h : Runs s depth lines st us st') {u : Use} (mem : u ∈ us) :
    ∃ st line st₁, use? st line = some (u, st₁) := by
  induction h with
  | done => cases mem
  | line _ _ _ ih => exact ih mem
  | use isUse _ _ inside behind =>
    rcases mem_cons.1 mem with rfl | mem
    · exact ⟨_, _, _, isUse⟩
    · exact (mem_append.1 mem).elim inside behind

end Runs

/-! ## Tokens of a body -/

inductive Use.Makes (dialect : Dialect) (u : Use) : Token → List Token → Prop
  /-- The argument in place of a parameter, with its words as they are. -/
  | argument {tok : Token} {word : Text} {arg made : List Token} (isWord : tok.word? = some word)
      (isParam : word ∈ u.definition.params)
      (isArg : u.args[u.definition.params.idxOf word]? = some arg)
      (same : made.map (·.lexeme) = arg.map (·.lexeme)) : Makes dialect u tok made
  | renamed {tok : Token} {word rest : Text} (isWord : tok.word? = some word)
      (noParam : word ∉ u.definition.params) (isLocal : localWord? dialect word = some rest) :
      Makes dialect u tok
        [{ tok with lexeme := .word (localName u.definition.name u.number rest) .name }]
  | kept {tok : Token} (other : ∀ word, tok.word? = some word →
      word ∉ u.definition.params ∧ localWord? dialect word = none) : Makes dialect u tok [tok]

theorem lookup_zip_idxOf {params : List Text} {args : List (List Token)}
    (isParam : word ∈ params) (fits : args.length = params.length) :
    ∃ arg, (params.zip args).lookup word = some arg ∧ args[params.idxOf word]? = some arg := by
  induction params generalizing args with
  | nil => cases isParam
  | cons param params ih =>
    cases args with
    | nil => cases fits
    | cons arg args =>
      by_cases here : word = param
      · exact ⟨arg, by simp [here], by simp [here]⟩
      · have isParam : word ∈ params := (mem_cons.1 isParam).resolve_left here
        obtain ⟨arg', found, isArg⟩ := ih isParam (Nat.succ.inj fits)
        refine ⟨arg', ?_, ?_⟩
        · rwa [zip_cons_cons, lookup_cons, beq_false_of_ne here]
        · rwa [idxOf_cons_ne _ (Ne.symm here), getElem?_cons_succ]

theorem makes_place (dialect : Dialect) {u : Use} (fits : u.args.length = u.definition.params.length)
    (tok : Token) : u.Makes dialect tok (u.place dialect tok) := by
  unfold Use.place substituteToken
  cases isWord : tok.word? with
  | none => exact .kept (by simp [isWord])
  | some word =>
    dsimp only
    by_cases isParam : word ∈ u.definition.params
    · obtain ⟨arg, found, isArg⟩ := lookup_zip_idxOf isParam fits
      rw [found]
      refine .argument isWord isParam isArg ?_
      cases arg <;> simp [placed]
    · rw [lookup_zip_eq_none _ isParam]
      dsimp only
      cases isLocal : localWord? dialect word with
      | some rest => exact .renamed isWord isParam isLocal
      | none =>
        refine .kept fun word' isWord' => ?_
        cases isWord.symm.trans isWord'
        exact ⟨isParam, isLocal⟩

open Assembly

theorem definition_unmarked {s : Settings} {file data : Text}
    (outside : ∀ u ∈ usesOf s file data, ∀ ln ∈ u.lines s.dialect, ¬ ln.StartsDefinition) :
    ∀ u ∈ usesOf s file data, mark ∉ u.definition.name := by
  have keeps : Keeps s (usesOf s file data) (∀ ln ∈ ·, ∀ macros label args, task macros ln = .define label args →
      ∀ name ∈ (heading label args).1, mark ∉ name) (mark ∉ ·.name) fun _ => True := {
    behind := fun n all ln mem => (forall_mem_cons.1 all).2 ln (mem_of_mem_drop mem)
    define := fun all isTask m isMacro =>
      (forall_mem_cons.1 all).1 _ _ _ isTask _ (recorded?_name isMacro)
    line := fun _ => trivial
    label := fun _ _ => trivial
    use := fun u isUse _ _ _ _ _ _ _ ln mem macros label args isTask =>
      absurd (startsDefinition_of_task isTask).1 (outside u isUse ln mem) }
  refine ((runs_expand s depthLimit (loadedOf s file data) {}).keeps keeps ?_ .empty).1
  exact fun ln mem macros label args => heading_unmarked (loadedOf_isRow mem)

/-- **Names that are made for local words are fresh.**  If no line of a use starts a definition, uses have
    numbers of their own, and the names for two local words are the same only for the same number and the same
    word.  No row of any source has such a name as a word.  In the lines of a use every local word of the body
    stands under its made name, wherever it stands, except in arguments, which are put in as they are. -/
theorem local_names_fresh (s : Settings) (file data : Text)
    (outside : ∀ u ∈ usesOf s file data, ∀ ln ∈ u.lines s.dialect, ¬ ln.StartsDefinition) :
    (usesOf s file data).map (·.number) = List.range' 1 (usesOf s file data).length ∧
    (∀ u ∈ usesOf s file data, ∀ u' ∈ usesOf s file data, ∀ word word' : Text,
      localName u.definition.name u.number word = localName u'.definition.name u'.number word' ↔
        u.number = u'.number ∧ word = word') ∧
    (∀ u ∈ usesOf s file data, ∀ (word : Text) (dialect : Dialect) (row : Text),
      ∀ tok ∈ (lex dialect row).tokens, tok.word? ≠ some (localName u.definition.name u.number word)) ∧
    ∀ u ∈ usesOf s file data, ∀ ln ∈ u.definition.body, ∃ made : List (List Token),
      (u.copy s.dialect ln).tokens = made.flatten ∧ List.Forall₂ (u.Makes s.dialect) ln.tokens made := by
  have runs := runs_expand s depthLimit (loadedOf s file data) {}
  refine ⟨runs.numbers.1, fun u isUse u' isUse' word word' => ?_, fun u _ word dialect row tok mem same => ?_,
    fun u isUse ln _ => ⟨ln.tokens.map (u.place s.dialect), ?_, ?_⟩⟩
  · have unmarked := definition_unmarked outside
    rw [localName_inj (unmarked u isUse) (unmarked u' isUse')]
    refine ⟨And.right, fun ⟨number, same⟩ => ⟨?_, number, same⟩⟩
    -- one number is one use, and so one macro
    by_contra apart
    exact number_ne isUse isUse' (fun same => apart (by rw [same])) number
  · exact lex_unmarked mem same (mark_mem_localName ..)
  · rw [← List.flatMap_def]
    rfl
  · obtain ⟨st, line, st₁, entered⟩ := runs.exists_use isUse
    obtain ⟨label, m, args, -, fits, rfl, -⟩ := use?_eq_some entered
    rw [List.forall₂_map_right_iff, List.forall₂_same]
    exact fun tok _ => makes_place s.dialect fits tok

/-- A macro that uses another one, with a local word of its own as the argument. -/
def innerUseSource : Text :=
  bytes "m macro x\n.l: jr .l\n jr x\n endm\np macro\n.l: m .l\n endm\n p\n p\n"

theorem local_names_fresh_inner :
    (usesOf .bare (bytes "a.asm") innerUseSource).map (fun u => (u.definition.name, u.number)) =
      [(bytes "p", 1), (bytes "m", 2), (bytes "p", 3), (bytes "m", 4)] ∧
    ∀ u ∈ usesOf .bare (bytes "a.asm") innerUseSource, ∀ u' ∈ usesOf .bare (bytes "a.asm") innerUseSource,
      ∀ word word' : Text,
        localName u.definition.name u.number word = localName u'.definition.name u'.number word' ↔
          u.number = u'.number ∧ word = word' :=
  ⟨by decide +kernel, (local_names_fresh .bare (bytes "a.asm") innerUseSource (by decide +kernel)).2.1⟩

end Macro

end Z80Asm
