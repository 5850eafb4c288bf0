import Z80Asm.Proofs.LoadedRows
import Z80Asm.Proofs.MacroLocals
import Z80Asm.Proofs.StackLines

/-!
# Sources with one operand in a line

In place of a line of `push` or `pop` with several operands one may write lines of its single operands, with
the label in the first of them.  A run ends in the same way, wherever the line stands: in the source, in a
file that it includes, or in the body of a macro, where every use makes a copy of it.
-/

namespace Z80Asm

open Token List Program

variable {operands : List (List Token)} {front : List Token} {ln : Line} {head : Token}

namespace Macro
variable {P : Line → List Line → Prop} {C : Nat → Nat → Prop} {s : Settings} {u u' : Use} {dialect : Dialect}
  {toks toks' : List Token}

/-! ## Copies -/

/-- A line that is `chosen`, or a copy that uses make of such a line. -/
inductive Copied (dialect : Dialect) (us : List Use) (chosen : Line → Prop) : Line → Prop
  | chosen {ln : Line} (h : chosen ln) : Copied dialect us chosen ln
  | copy {u : Use} (isUse : u ∈ us) {ln : Line} (inBody : ln ∈ u.definition.body)
      (h : Copied dialect us chosen ln) : Copied dialect us chosen (u.copy dialect ln)

/-- A use leaves the label of a line a label, and the first word after it that word.  An argument in place of
    one of them may make another line of it: with `pop` for `x`, the line `x pop -1, de` has no label. -/
structure Use.Keeps (dialect : Dialect) (u : Use) (ln : Line) : Prop where
  body : Token.body (u.copy dialect ln).tokens = (Token.body ln.tokens).flatMap (u.place dialect)
  head : ∀ head ∈ (Token.body ln.tokens).head?, u.place dialect head = [head]

instance {dialect : Dialect} {u : Use} {ln : Line} : Decidable (u.Keeps dialect ln) :=
  decidable_of_iff
    (Token.body (u.copy dialect ln).tokens = (Token.body ln.tokens).flatMap (u.place dialect) ∧
      ∀ head ∈ (Token.body ln.tokens).head?, u.place dialect head = [head])
    ⟨fun ⟨body, head⟩ => ⟨body, head⟩, fun ⟨body, head⟩ => ⟨body, head⟩⟩

theorem tokens_copy (dialect : Dialect) (u : Use) (ln : Line) :
    (u.copy dialect ln).tokens = ln.tokens.flatMap (u.place dialect) := rfl

theorem place_same (alike : u.Alike P u') (dialect : Dialect) {tok tok' : Token} (same : tok.Same C tok') :
    Forall₂ (Same C) (u.place dialect tok) (u'.place dialect tok') := by
  have here : Forall₂ (Same C) [tok] [tok'] := .cons same .nil
  unfold Use.place substituteToken
  rw [same.word?, alike.args, alike.definition.params, alike.definition.name, alike.number]
  cases tok.word? with
  | none => exact here
  | some word =>
    dsimp only
    cases (u.definition.params.zip u.args).lookup word with
    | some arg =>
      cases arg with
      | nil => exact .nil
      | cons first rest =>
        refine .cons ⟨rfl, same.2⟩ ?_
        rw [forall₂_map_left_iff, forall₂_map_right_iff]
        exact forall₂_same.2 fun _ _ => ⟨rfl, same.2⟩
    | none =>
      dsimp only
      cases localWord? dialect word with
      | some rest => exact .cons ⟨rfl, same.2⟩ .nil
      | none => exact here

theorem places_same (alike : u.Alike P u') (dialect : Dialect) (same : Forall₂ (Same C) toks toks') :
    Forall₂ (Same C) (toks.flatMap (u.place dialect)) (toks'.flatMap (u'.place dialect)) := by
  induction same with
  | nil => exact .nil
  | cons first _ ih => exact rel_append (place_same alike dialect first) ih

theorem joins_place (dialect : Dialect) (u : Use) {parts : List (List Token)} (h : Joins parts toks) :
    Joins (parts.map (·.flatMap (u.place dialect))) (toks.flatMap (u.place dialect)) := by
  induction h with
  | single part => exact .single _
  | cons part isComma _ ih =>
    rw [map_cons, flatMap_append, flatMap_cons, place_sign dialect u isComma]
    exact .cons _ isComma ih

theorem isSingle_copy (alike : u.Alike P u') {ln ln' : Line} {front operand : List Token}
    (h : ln.IsSingle front head operand ln') (keeps : u.place dialect head = [head]) :
    (u.copy dialect ln).IsSingle (front.flatMap (u.place dialect)) head (operand.flatMap (u.place dialect))
      (u'.copy dialect ln') := by
  obtain ⟨front', head', operand', tokens, ahead, same, behind⟩ := h.exists_tokens
  -- the mnemonic is no parameter, so that it stays a single token
  have here := place_same alike dialect (⟨same, trivial⟩ : head.Same Anywhere head')
  rw [keeps] at here
  obtain ⟨head'', _, same', nothing, placed⟩ := forall₂_cons_left_iff.1 here
  cases nothing
  refine .of_tokens alike.file h.fault h.script ?_ (places_same alike dialect ahead) same'.1
    (places_same alike dialect behind)
  rw [tokens_copy, tokens, flatMap_append, flatMap_cons, placed, singleton_append]

theorem areSingles_copy (alike : u.Alike P u') (keeps : u.place dialect head = [head])
    {lns : List Line} (h : ln.AreSingles head front operands lns) :
    (u.copy dialect ln).AreSingles head (front.flatMap (u.place dialect))
      (operands.map (·.flatMap (u.place dialect))) (lns.map (u'.copy dialect)) := by
  induction h with
  | nil => exact .nil _
  | cons first _ ih => exact .cons (isSingle_copy alike first keeps) ih

/-- **What stands in place of a line also does so in a copy** that is accepted and keeps its first word. -/
theorem divides_copy (alike : u.Alike P u') {m : Cpu.Mnemonic} {label : Option Token}
    {toks : List Token} {lns : List Line}
    (h : ln.Divides s m label front head toks operands lns) (keeps : u.Keeps s.dialect ln)
    (accepted : (u.copy s.dialect ln).Accepted s) :
    ∃ label', (u.copy s.dialect ln).Divides s m label' (front.flatMap (u.place s.dialect)) head
      (toks.flatMap (u.place s.dialect)) (operands.map (·.flatMap (u.place s.dialect)))
      (lns.map (u'.copy s.dialect)) := by
  have body : Token.body ln.tokens = head :: toks := by rw [Token.body, h.split]
  have placed : u.place s.dialect head = [head] := keeps.head head (by rw [body]; rfl)
  obtain ⟨label', m', head', toks', stacked⟩ := exists_stacks accepted
  have kept : head' :: toks' = head :: toks.flatMap (u.place s.dialect) := by
    have := keeps.body
    rwa [Token.body, stacked.split, body, flatMap_cons, placed, singleton_append] at this
  obtain ⟨rfl, rfl⟩ := List.cons.inj kept
  have same : m' = m := by
    obtain ⟨text, word⟩ := h.word
    obtain ⟨text', word'⟩ := stacked.word
    rw [word] at word'
    cases word'
    rfl
  subst same
  have tokens : (u.copy s.dialect ln).tokens =
      front.flatMap (u.place s.dialect) ++ head' :: toks.flatMap (u.place s.dialect) := by
    rw [tokens_copy, h.tokens, flatMap_append, flatMap_cons, placed, singleton_append]
  obtain ⟨front', split, fronts⟩ := fronts_of_splitLabel stacked.split
  have ahead : front' = front.flatMap (u.place s.dialect) := append_cancel_right (split.symm.trans tokens)
  have singles : (u.copy s.dialect ln).AreSingles head' (front.flatMap (u.place s.dialect))
      (s.stackOrder m' (operands.map (·.flatMap (u.place s.dialect)))) (lns.map (u'.copy s.dialect)) := by
    rw [Settings.stackOrder_map]
    exact areSingles_copy alike placed h.singles
  exact ⟨label', { stacked with
    tokens := tokens
    fronts := ahead ▸ fronts
    joins := joins_place s.dialect u h.joins
    singles := singles }⟩

end Macro

/-! ## Sources -/

/-- The line is a line of `push` or `pop`, and the rows have its single operands in the order in which it
    takes them.  The first of them has its label. -/
def Line.TakenApart (s : Settings) (ln : Line) (rows : List Text) : Prop :=
  ln.Accepted s ∧ ∃ m ∈ ln.mnemonic?, ∃ head ∈ (Token.body ln.tokens).head?,
    ln.AreSingles head (Token.beforeBody ln.tokens)
      (s.stackOrder m (Token.splitArgs ((Token.body ln.tokens).drop 1)))
      (Source.linesAt s.dialect ln.pos.file 1 rows)

instance {s : Settings} {ln : Line} {rows : List Text} : Decidable (ln.TakenApart s rows) :=
  inferInstanceAs (Decidable (_ ∧ _))

theorem Line.AreSingles.renumber {dialect : Dialect} {file : Text} {n : Nat} {rows : List Text}
    (h : ln.AreSingles head front operands (Source.linesAt dialect file n rows)) (n' : Nat) :
    ln.AreSingles head front operands (Source.linesAt dialect file n' rows) := by
  induction rows generalizing n n' front operands with
  | nil => exact h
  | cons row rows ih =>
    cases h with
    | cons first others =>
      exact .cons ⟨first.file, first.fault, first.script, first.ahead, first.behind⟩ (ih others (n' + 1))

theorem Line.TakenApart.divides {s : Settings} {rows : List Text} (h : ln.TakenApart s rows)
    (n : Nat) : ∃ m label front head toks operands, ln.Divides s m label front head toks operands
      (Source.linesAt s.dialect ln.pos.file n rows) := by
  obtain ⟨accepted, m', mnemonic, head', isHead, singles⟩ := h
  obtain ⟨label, m, head, toks, stacked⟩ := exists_stacks accepted
  have body : Token.body ln.tokens = head :: toks := by rw [Token.body, stacked.split]
  obtain ⟨front, tokens, fronts⟩ := fronts_of_splitLabel stacked.split
  obtain ⟨text, word⟩ := stacked.word
  rw [beforeBody_eq (body ▸ tokens)] at singles
  rw [Line.mnemonic?, body] at mnemonic
  rw [body] at isHead singles
  obtain rfl : head = head' := Option.some.inj isHead
  obtain rfl : m = m' := by simpa [Token.mnemonic?, word] using mnemonic
  have joins : Joins (splitArgs toks) toks := by
    obtain ⟨as, isRead, nonempty⟩ := stacked.read
    rw [splitArgs_eq (toks_ne_nil stacked.stack isRead nonempty)]
    exact joins_splitFrom 0 toks
  exact ⟨m, label, front, head, toks, splitArgs toks, { stacked with
    tokens := tokens
    fronts := fronts
    joins := joins
    singles := singles.renumber n }⟩

open Assembly

namespace Source.Replacement

/-- The lines in place of which others stand, and the copies of them. -/
def Touched (r : Replacement) (s : Settings) (file data : Text) : Line → Prop :=
  Macro.Copied s.dialect (usesOf s file data) fun ln => ln ∈ loadedOf s file data ∧ (r ln.pos).isSome

/-- In place of lines of `push` or `pop` in a source file, or in the files that it includes, stand lines of
    their single operands. -/
structure TakesApart (r : Replacement) (s : Settings) (read : Text → Except Fault Text)
    (file data data' : Text) : Prop where
  main : r.Fits s.dialect file data data'
  files : ∀ path, r.Reads s.dialect path (s.read path) (read path)
  rows : ∀ ln ∈ loadedOf s file data, ∀ rows ∈ r ln.pos, ln.TakenApart s rows
  names : ∀ ln ∈ loadedOf s file data, (r ln.pos).isSome →
    ∀ tok ∈ (Token.body ln.tokens).head?, tok.text ∉ (expansionOf s file data).macros
  /-- In every use of a macro the copy of such a line is such a line again, and is accepted. -/
  copies : ∀ u ∈ usesOf s file data, ∀ ln ∈ u.definition.body, r.Touched s file data ln →
    u.Keeps s.dialect ln ∧ (u.copy s.dialect ln).Accepted s
  binaries : ∀ ln ∈ (expansionOf s file data).lines.toList, ∀ name ∈ ln.binary?,
    (s.reading read).find name ln.pos.file = s.find name ln.pos.file

/-- Lines of single operands in place of a line that is touched. -/
def Divided (r : Replacement) (s : Settings) (file data : Text) (ln : Line) (lns : List Line) : Prop :=
  r.Touched s file data ln ∧
    ∃ m label front head toks operands, ln.Divides s m label front head toks operands lns

namespace TakesApart
variable {r : Replacement} {s : Settings} {read : Text → Except Fault Text} {file data data' : Text}

section
variable (h : r.TakesApart s read file data data')
include h

theorem head_touched (touched : r.Touched s file data ln) :
    ∀ tok ∈ (Token.body ln.tokens).head?, tok.text ∉ (expansionOf s file data).macros := by
  induction touched with
  | chosen chosen => exact h.names _ chosen.1 chosen.2
  | @copy u isUse ln inBody touched ih =>
    have keeps := (h.copies u isUse ln inBody touched).1
    rw [keeps.body]
    cases body : Token.body ln.tokens with
    | nil => simp
    | cons head toks =>
      have isHead : head ∈ (Token.body ln.tokens).head? := by rw [body]; rfl
      rw [flatMap_cons, keeps.head head isHead]
      rintro _ ⟨⟩
      exact ih head isHead

theorem allInert : AllInert (· ∈ (expansionOf s file data).macros) (r.Divided s file data) := by
  rintro ln lns ⟨touched, m, label, front, head, toks, operands, divides⟩
  obtain ⟨text, word⟩ := divides.word
  have body : Token.body ln.tokens = head :: toks := by rw [Token.body, divides.split]
  have unknown : text ∉ (expansionOf s file data).macros := by
    have := h.head_touched touched head (by rw [body]; rfl)
    simpa [Token.text, word] using this
  refine ⟨⟨divides.fault, divides.script, head, by rw [body]; rfl, text, m, word, unknown⟩, ?_⟩
  intro ln' mem
  obtain ⟨label', head', toks', stacked, same⟩ := stacks_singles divides ln' mem
  refine ⟨stacked.fault, stacked.script, head', ?_, text, m, same.trans word, unknown⟩
  rw [Token.body, stacked.split]
  rfl

theorem allowed : r.Allowed s.dialect (r.Divided s file data) (loadedOf s file data) := by
  intro ln mem rows replaced n
  have chosen : r.Touched s file data ln := .chosen ⟨mem, by rw [Option.mem_def.1 replaced]; rfl⟩
  exact ⟨chosen, (h.rows ln mem rows replaced).divides n⟩

theorem carries : ∀ u ∈ usesOf s file data, u.Carries s.dialect (r.Divided s file data) := by
  rintro u isUse u' alike ln inBody lns ⟨touched, m, label, front, head, toks, operands, divides⟩
  obtain ⟨keeps, accepted⟩ := h.copies u isUse ln inBody touched
  obtain ⟨label', copied⟩ := Macro.divides_copy alike divides keeps accepted
  exact ⟨.copy isUse inBody touched, m, label', _, head, _, _, copied⟩

end

theorem builtAlike {ls ls' : List Line} (pieces : Pieces (r.Divided s file data) ls ls')
    (binaries : ∀ ln ∈ ls, ∀ name ∈ ln.binary?, (s.reading read).find name ln.pos.file = s.find name ln.pos.file) :
    BuiltAlike False s (s.reading read) ls ls' := by
  induction pieces with
  | nil => exact .nil
  | @keep ln ln' moved rest rest' _ ih =>
    rw [forall_mem_cons] at binaries
    have first : BuiltAlike False s (s.reading read) [ln] [ln'] := .moved moved binaries.1
    exact first.append (ih binaries.2)
  | @replace ln lns divided rest rest' _ ih =>
    rw [forall_mem_cons] at binaries
    obtain ⟨-, m, label, front, head, toks, operands, divides⟩ := divided
    have first : BuiltAlike False s (s.reading read) [ln] lns := .singles read divides
    exact first.append (ih binaries.2)

end TakesApart

end Source.Replacement

namespace Assembly

/-- **A source in which lines of several operands on the stack are taken apart is assembled to the same
    result**: the same state, number of passes, code and symbols, and as many errors and warnings. -/
theorem assembleText_takesApart {r : Source.Replacement} {s : Settings} {read : Text → Except Fault Text}
    {file data data' : Text} (h : r.TakesApart s read file data data') (cancelled : Nat → Bool) :
    Outcome.Same (assembleText s cancelled file data)
      (assembleText (s.reading read) cancelled file data') := by
  have loaded := Source.load_alike h.allInert h.files Source.includeLimit h.main
    (⟨.nil, rfl, rfl⟩ : Loading.Alike _ {} {}) h.allowed
  unfold assembleText
  dsimp only
  rw [loaded.fatal]
  cases (Source.load s Source.includeLimit file data {}).fatal with
  | some fault => exact .finished (.of_placed (S := fun _ _ => True) rfl rfl rfl .none loaded.diagnostics)
  | none =>
    have expanded : (expansionOf s file data).Alike (r.Divided s file data) _ :=
      Macro.expand_pieces read h.allInert h.carries (fun _ mem => mem) loaded.lines
        ⟨fun _ => by simp, rfl, .nil, rfl⟩
    obtain ⟨T, known, ordered, built⟩ :=
      (Source.Replacement.TakesApart.builtAlike expanded.lines h.binaries).build
    have reports := Diagnostics.severities_append
      (Diagnostics.severities_append loaded.diagnostics expanded.diagnostics) built.diagnostics
    unfold expansionOf loadedOf at reports built
    dsimp only
    rw [built.fatal]
    cases (Program.build s (Macro.expand s Macro.depthLimit
      (Source.load s Source.includeLimit file data {}).lines.toList {}).lines.toList).fatal with
    | some fault => exact .finished (.of_placed (S := fun _ _ => True) rfl rfl rfl .none reports)
    | none =>
      have same : predefined (s.reading read) = predefined s := rfl
      have limit : (s.reading read).passLimit = s.passLimit := rfl
      exact passesOver_placed ordered known same limit built.root.reverse cancelled reports

/-- A macro and a file `b.asm`, each with a line of several operands. -/
def stackSource : Text := bytes "m macro x\n push x, af\n endm\n m hl\n include b.asm\n dw q\n"

def stackFile : Text := bytes "q: pop de, bc\n"

def singleSource : Text := bytes "m macro x\n push x\n push af\n endm\n m hl\n include b.asm\n dw q\n"

def singleFile : Text := bytes "q: pop bc\n pop de\n"

def singleRows : Source.Replacement := fun pos =>
  if pos = { file := bytes "a.asm", line := 2 } then some [bytes " push x", bytes " push af"]
  else if pos = { file := bytes "b.asm", line := 1 } then some [bytes "q: pop bc", bytes " pop de"]
  else none

/-- The settings of a run that can include `b.asm`, and in which `pop` takes its last operand first. -/
def stackSettings (included : Text) : Settings :=
  { dialect := .compass, reversePop := true
    read := fun path => if path = bytes "b.asm" then .ok included else .error (.plain .fileAccess) }

theorem stackSource_takesApart :
    singleRows.TakesApart (stackSettings stackFile) (stackSettings singleFile).read (bytes "a.asm") stackSource
        singleSource ∧
      Outcome.Same (assembleText (stackSettings stackFile) neverCancelled (bytes "a.asm") stackSource)
        (assembleText (stackSettings singleFile) neverCancelled (bytes "a.asm") singleSource) := by
  have included : singleRows.Fits .compass (bytes "b.asm") stackFile singleFile := by decide +kernel
  have files (path : Text) : singleRows.Reads .compass path ((stackSettings stackFile).read path)
      ((stackSettings singleFile).read path) := by
    by_cases named : path = bytes "b.asm"
    · subst named
      exact .ok included
    · simp only [stackSettings, if_neg named]
      exact .error _
  have copies : ∀ u ∈ usesOf (stackSettings stackFile) (bytes "a.asm") stackSource, ∀ ln ∈ u.definition.body,
      u.Keeps .compass ln ∧ (u.copy .compass ln).Accepted (stackSettings stackFile) := by decide +kernel
  have binaries : ∀ ln ∈ (expansionOf (stackSettings stackFile) (bytes "a.asm") stackSource).lines.toList,
      ln.binary? = none := by decide +kernel
  have apart : singleRows.TakesApart (stackSettings stackFile) (stackSettings singleFile).read (bytes "a.asm")
      stackSource singleSource := {
    main := by decide +kernel
    files := files
    rows := by decide +kernel
    names := by decide +kernel
    copies := fun u isUse ln inBody _ => copies u isUse ln inBody
    binaries := fun ln mem name isName => by
      rw [binaries ln mem] at isName
      cases isName }
  exact ⟨apart, assembleText_takesApart apart neverCancelled⟩

end Assembly

end Z80Asm
