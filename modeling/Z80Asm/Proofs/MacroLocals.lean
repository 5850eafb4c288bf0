import Mathlib.Data.List.Nodup
import Z80Asm.Assembly
import Z80Asm.Proofs.Nesting
import Z80Asm.Proofs.Expansion
import Z80Asm.Proofs.Scanning

/-!
# Local labels of macros

A local word in the body of a macro gets a name of its own in each use, because uses are numbered and no
number comes twice.  What counts is the body as it is recorded: in a definition that the lines of a use
hold, local words have the name of that use already, so that all uses of the inner macro share them.
-/

namespace Z80Asm

open List Program

variable {tok label : Token} {more : List Token} {s : Settings} {depth : Nat} {lines : List Line}

namespace Token

/-- The first token is the label of a line: a name in the first column, or a word before a colon. -/
def Labels (label : Token) (more : List Token) : Prop :=
  label.isName = true ∧ label.col = 1 ∨
    label.isWord = true ∧ ∃ colon ∈ more.head?, colon.isSign .colon = true

theorem isWord_of_isName (h : tok.isName = true) : tok.isWord = true := by
  unfold isName at h
  split at h
  next lexeme => simp [isWord, word?, lexeme]
  · cases h

theorem Labels.isWord (h : Labels label more) : label.isWord = true := by
  rcases h with ⟨isName, -⟩ | ⟨isWord, -⟩
  · exact isWord_of_isName isName
  · exact isWord

theorem Labels.splitLabel (h : Labels label more) : (splitLabel (label :: more)).1 = some label := by
  rcases h with ⟨isName, first⟩ | ⟨isWord, colon, next, isColon⟩
  · cases more with
    | nil => simp [Token.splitLabel, isName, first]
    | cons second rest =>
      rw [Token.splitLabel]
      split <;> simp [isName, first]
  · cases more with
    | nil => cases next
    | cons second rest =>
      cases next
      simp [Token.splitLabel, isWord, isColon]

theorem labels_of_splitLabel {toks : List Token} (h : (splitLabel toks).1 = some label) :
    ∃ more, toks = label :: more ∧ Labels label more := by
  unfold splitLabel at h
  split at h
  · cases h
  next first =>
    split at h
    next isLabel =>
      cases h
      exact ⟨[], rfl, .inl (by simpa using isLabel)⟩
    · cases h
  next first second rest =>
    split at h
    next isLabel =>
      cases h
      rw [Bool.and_eq_true] at isLabel
      exact ⟨second :: rest, rfl, .inr ⟨isLabel.2, second, rfl, isLabel.1⟩⟩
    · split at h
      next isLabel =>
        cases h
        exact ⟨second :: rest, rfl, .inl (by simpa using isLabel)⟩
      · cases h

end Token

/-- The symbol that a line defines by its label, where local names belong to `owner`. -/
def Line.symbol? (owner : Text) (ln : Line) : Option Text :=
  (Token.splitLabel ln.tokens).1.map fun label => (Program.labelName owner label.text).1

namespace Macro

def Use.rename (dialect : Dialect) (u : Use) (word : Text) : Text :=
  match localWord? dialect word with
  | some rest => localName u.definition.name u.number rest
  | none => word

theorem lookup_zip_eq_none {params : List Text} (args : List (List Token)) {word : Text}
    (noParam : word ∉ params) : (params.zip args).lookup word = none := by
  rw [lookup_eq_none_iff]
  rintro ⟨param, arg⟩ mem
  have isParam := (of_mem_zip mem).1
  simpa using fun e : word = param => noParam (e ▸ isParam)

def Use.place (dialect : Dialect) (u : Use) (tok : Token) : List Token :=
  substituteToken dialect (u.definition.params.zip u.args) u.definition.name u.number tok

section
variable (dialect : Dialect) (u : Use)

theorem place_word (isWord : tok.isWord = true) (noParam : tok.text ∉ u.definition.params) :
    ∃ tok', u.place dialect tok = [tok'] ∧ tok'.text = u.rename dialect tok.text ∧
      tok'.col = tok.col ∧ tok'.isWord = true ∧ (tok.isName = true → tok'.isName = true) := by
  obtain ⟨text, isText⟩ := Option.isSome_iff_exists.1 isWord
  obtain ⟨role, lexeme⟩ : ∃ role, tok.lexeme = .word text role := by
    unfold Token.word? at isText
    split at isText
    next role lexeme =>
      cases isText
      exact ⟨role, lexeme⟩
    · cases isText
  have same : tok.text = text := by simp [Token.text, lexeme]
  rw [same] at noParam
  unfold Use.place Use.rename substituteToken
  rw [isText, same]
  dsimp only
  rw [lookup_zip_eq_none _ noParam]
  dsimp only
  cases localWord? dialect text with
  | some rest => exact ⟨_, rfl, rfl, rfl, rfl, fun _ => rfl⟩
  | none => exact ⟨tok, rfl, same, rfl, isWord, id⟩

theorem place_sign {s : Sign} (isSign : tok.isSign s = true) : u.place dialect tok = [tok] := by
  have noWord : tok.word? = none := by
    have lexeme : tok.lexeme = .sign s := by simpa [Token.isSign] using isSign
    simp [Token.word?, lexeme]
  simp [Use.place, substituteToken, noWord]

theorem symbol?_copy (owner : Text) {ln : Line} (labelled : (Token.splitLabel ln.tokens).1 = some label)
    (noParam : label.text ∉ u.definition.params) :
    (u.copy dialect ln).symbol? owner = some (labelName owner (u.rename dialect label.text)).1 := by
  obtain ⟨more, tokens, labels⟩ := Token.labels_of_splitLabel labelled
  obtain ⟨label', placed, text, col, isWord, isName⟩ := place_word dialect u labels.isWord noParam
  have copied : (u.copy dialect ln).tokens = label' :: more.flatMap (u.place dialect) := by
    have whole : (u.copy dialect ln).tokens = ln.tokens.flatMap (u.place dialect) := rfl
    rw [whole, tokens, flatMap_cons, placed, singleton_append]
  have labels' : label'.Labels (more.flatMap (u.place dialect)) := by
    rcases labels with ⟨name, first⟩ | ⟨-, colon, next, isColon⟩
    · exact .inl ⟨isName name, col.trans first⟩
    · cases more with
      | nil => cases next
      | cons second rest =>
        cases next
        exact .inr ⟨isWord, colon, by simp [place_sign dialect u isColon], isColon⟩
  rw [Line.symbol?, copied, labels'.splitLabel, Option.map_some, text]

end

theorem labelName_front (owner name : Text) : ∃ front, (labelName owner name).1 = front ++ name := by
  unfold labelName qualify
  split
  · exact ⟨[], rfl⟩
  split
  · exact ⟨owner, rfl⟩
  split
  · exact ⟨[], rfl⟩
  split <;> exact ⟨[], rfl⟩

/-- Local names of different uses are different symbols, whoever owns them. -/
theorem labelName_localName {name word owner owner' : Text} {number number' : Nat} (distinct : number ≠ number') :
    (labelName owner (localName name number word)).1 ≠
      (labelName owner' (localName name number' word)).1 := by
  obtain ⟨front, isName⟩ := labelName_front owner (localName name number word)
  obtain ⟨front', isName'⟩ := labelName_front owner' (localName name number' word)
  rw [isName, isName']
  intro same
  simp only [localName, ← append_assoc, append_cancel_right_eq] at same
  -- what stands behind the last `>` is the number
  have digits (n : Nat) : ∀ b ∈ (Text.ofNat n).reverse, (b != '>'.toUInt8) = true := by
    have noMark (b : UInt8) : Lex.isDigit b → (b != '>'.toUInt8) = true := by
      revert b
      exact Lex.byte_cases (by decide +kernel)
    exact fun b mem => noMark b ((Lex.ofNat_decimal n).2.1 b (mem_reverse.1 mem))
  have last (front : Text) (n : Nat) :
      (front ++ bytes ">" ++ Text.ofNat n).reverse.takeWhile (· != '>'.toUInt8) = (Text.ofNat n).reverse := by
    rw [reverse_append, (Lex.span_append (digits n) ?_).1]
    rw [reverse_append]
    rintro b ⟨⟩
    decide
  have numbers := congrArg (fun t : Text => t.reverse.takeWhile (· != '>'.toUInt8)) same
  simp only [last, reverse_inj] at numbers
  refine distinct ?_
  rw [← (Lex.ofNat_decimal number).2.2, numbers, (Lex.ofNat_decimal number').2.2]

theorem number_ne {st : Expansion} {u u' : Use} (mem : u ∈ uses s depth lines st) (mem' : u' ∈ uses s depth lines st)
    (distinct : u ≠ u') : u.number ≠ u'.number := by
  have numbers := (runs_expand s depth lines st).numbers.1
  have once : ((uses s depth lines st).map (·.number)).Nodup := numbers ▸ nodup_range'
  exact fun same => distinct (inj_on_of_nodup_map once mem mem' same)

theorem definition_standsIn {u : Use} (mem : u ∈ uses s depth lines {}) :
    u.definition.body <:+: lines ∨ ∃ v ∈ uses s depth lines {}, u.definition.body <:+: v.lines s.dialect := by
  let pieces (piece : List Line) : Prop := piece = lines ∨ ∃ v ∈ uses s depth lines {}, piece = v.lines s.dialect
  have keeps : Keeps s (uses s depth lines {}) (fun part => ∃ piece, pieces piece ∧ part <:+ piece)
      (·.StandsIn pieces) fun _ => True := {
    behind := fun n ⟨piece, isPiece, stands⟩ =>
      ⟨piece, isPiece, (drop_suffix n _).trans ((suffix_cons _ _).trans stands)⟩
    define := fun ⟨piece, isPiece, stands⟩ _ m isMacro =>
      ⟨piece, isPiece, (recorded?_initial isMacro).isInfix.trans ((suffix_cons _ _).trans stands).isInfix⟩
    line := fun _ => trivial
    label := fun _ _ => trivial
    use := fun v isUse _ _ _ _ _ _ _ => ⟨_, .inr ⟨v, isUse, rfl⟩, suffix_rfl⟩ }
  obtain ⟨piece, rfl | ⟨v, isUse, rfl⟩, stands⟩ :=
    ((runs_expand s depth lines {}).keeps keeps ⟨lines, .inl rfl, suffix_rfl⟩ .empty).1 u mem
  · exact .inl stands
  · exact .inr ⟨v, isUse, stands⟩

/-- **Two uses of a macro define different symbols exactly for the local words of its body.**  A label of
    the body that is no parameter becomes two different symbols in two uses, whoever owns the local names
    there, if and only if its word is local in the body as it is recorded.  That body is a part of the
    source, where words are as they are written, or of the lines of a use, where local words have been
    renamed before. -/
theorem uses_isolated (s : Settings) (lines : List Line) {u u' : Use}
    (mem : u ∈ uses s depthLimit lines {}) (mem' : u' ∈ uses s depthLimit lines {})
    (distinct : u ≠ u') (same : u.definition = u'.definition) :
    (∀ ln ∈ u.definition.body, ∀ label, (Token.splitLabel ln.tokens).1 = some label →
      label.text ∉ u.definition.params →
      ((∀ owner owner', (u.copy s.dialect ln).symbol? owner ≠ (u'.copy s.dialect ln).symbol? owner') ↔
        (localWord? s.dialect label.text).isSome)) ∧
      (u.definition.body <:+: lines ∨
        ∃ v ∈ uses s depthLimit lines {}, u.definition.body <:+: v.lines s.dialect) := by
  refine ⟨fun ln _ label labelled noParam => ?_, definition_standsIn mem⟩
  have numbers := number_ne mem mem' distinct
  have symbol owner := symbol?_copy s.dialect u owner labelled noParam
  have symbol' owner := symbol?_copy s.dialect u' owner labelled (same ▸ noParam)
  simp only [symbol, symbol', ne_eq, Option.some.injEq, Use.rename, ← same]
  cases localWord? s.dialect label.text with
  | none => exact ⟨fun apart => absurd rfl (apart [] []), nofun⟩
  | some word => exact ⟨fun _ => rfl, fun _ _ _ => labelName_localName numbers⟩

/-- A macro with a local label, and two uses of it. -/
def localSource : Text := bytes "m macro x\n.l: jr .l\n db x\n endm\n m 1\n m 2\n"

theorem uses_isolated_twice : ∃ u ∈ uses .bare depthLimit (Program.linesOf localSource) {},
    ∃ u' ∈ uses .bare depthLimit (Program.linesOf localSource) {}, u ≠ u' ∧
      u.definition = u'.definition ∧ ∃ ln ∈ u.definition.body, ∃ label,
        (Token.splitLabel ln.tokens).1 = some label ∧ label.text = bytes ".l" ∧
        label.text ∉ u.definition.params ∧
        ∀ owner owner', (u.copy .native ln).symbol? owner ≠ (u'.copy .native ln).symbol? owner' := by
  have two : ∃ u ∈ uses .bare depthLimit (Program.linesOf localSource) {},
      ∃ u' ∈ uses .bare depthLimit (Program.linesOf localSource) {}, u ≠ u' ∧
        u.definition = u'.definition ∧ ∃ ln ∈ u.definition.body,
          ∃ label ∈ (Token.splitLabel ln.tokens).1, label.text = bytes ".l" ∧
            label.text ∉ u.definition.params := by decide +kernel
  obtain ⟨u, mem, u', mem', distinct, same, ln, inBody, label, labelled, text, noParam⟩ := two
  have isolated := (uses_isolated .bare _ mem mem' distinct same).1 ln inBody label labelled noParam
  exact ⟨u, mem, u', mem', distinct, same, ln, inBody, label, labelled, text, noParam,
    isolated.2 (by rw [text]; decide)⟩

/-- A macro whose definition is made by a use of another one, and two uses of it. -/
def innerSource : Text :=
  bytes "outer macro\ninner macro\n.l: nop\n endm\n endm\n outer\n inner\n inner\n"

/-- A local label that is written in the definition of the inner macro is one symbol in all of its uses:
    it got its name from the use of the outer one, and the program defines it twice. -/
theorem inner_uses_share : (localWord? .native (bytes ".l")).isSome ∧
    (∃ v ∈ uses .bare depthLimit (Program.linesOf innerSource) {},
      ∃ u ∈ uses .bare depthLimit (Program.linesOf innerSource) {},
      ∃ u' ∈ uses .bare depthLimit (Program.linesOf innerSource) {}, u ≠ u' ∧
        u.definition = u'.definition ∧ bytes ".l" ∉ u.definition.params ∧
        ∃ ln ∈ v.definition.body, v.copy .native ln ∈ u.definition.body ∧
          (Token.splitLabel ln.tokens).1.map (·.text) = some (bytes ".l") ∧
          (u.copy .native (v.copy .native ln)).symbol? [] = some (bytes "outer>1.l") ∧
          (u'.copy .native (v.copy .native ln)).symbol? [] = some (bytes "outer>1.l")) ∧
    (Assembly.assembleText .bare Assembly.neverCancelled (bytes "test.asm") innerSource).any
      (fun a => a.diagnostics.map (·.fault) =
        [some (.about .labelDuplicate (bytes "outer>1.l"))]) = true := by
  refine ⟨by decide, ?_, ?_⟩
  · decide +kernel
  · decide +kernel

end Macro

end Z80Asm
