import Z80Asm.Proofs.LocalNames
import Z80Asm.Proofs.RunsAlongside
import Z80Asm.Proofs.SplitSources

/-!
# Rows that are skipped

Rows of code between ` if 0` and ` endif` become one block that nothing is done for.  All that is left of them
beside its size is the owner of local names, because labels inside of the block take over like all labels.
-/

namespace Z80Asm

open Token List

variable {ls ls' : List Line} {rows : List Text} {dialect : Dialect} {S : Numbering} {x : Statement}

/-! ## Rows of code -/

/-- The body of a line is empty, or it starts with a mnemonic or a directive of data. -/
def Token.isCode (toks : List Token) : Bool :=
  (Token.body toks).head?.all fun tok =>
    match tok.lexeme with
    | .word _ (.mnemonic _) | .word _ (.directive (.data _)) => true
    | _ => false

theorem Token.bodyIs_of_isCode {toks : List Token} (code : isCode toks = true) {d : Directive}
    (other : ∀ width, d ≠ .data width) : bodyIs d toks = false := by
  rw [isCode] at code
  rw [bodyIs]
  cases head : (body toks).head? with
  | none => rfl
  | some tok =>
    rw [head, Option.all_some] at code
    rw [Option.any_some, isDirective]
    split at code
    next lexeme => simp [lexeme]
    next width lexeme => simpa [lexeme] using (other width).symm
    · cases code

theorem Source.rowTask_of_isCode {row : Text} (code : isCode (lex dialect row).tokens = true) :
    rowTask dialect row = .line := by
  rw [rowTask]
  simp [bodyIs_of_isCode code]

namespace Program
variable {s : Settings} {owner : Text}

/-! ## What the rows become -/

def AllActs (es : List Edit) : Prop := ∀ e ∈ es, ∃ node action, e = .act node action

theorem allActs_nil : AllActs [] := forall_mem_nil _

theorem allActs_single (node : Node) (action : Action) : AllActs [.act node action] :=
  forall_mem_singleton.2 ⟨node, action, rfl⟩

theorem instructionEdits_acts (node : Node) (m : Cpu.Mnemonic) (toks : List Token) :
    AllActs (instructionEdits s owner node m toks) := by
  unfold instructionEdits
  cases args s owner m toks with
  | error fault => exact allActs_single _ _
  | ok args =>
    dsimp only
    split
    · split
      · exact allActs_nil
      · refine forall_mem_cons.2 ⟨⟨_, _, rfl⟩, ?_⟩
        simp
    · exact allActs_single _ _

theorem dataEdits_acts (node : Node) (width : Width) (toks : List Token) :
    AllActs (dataEdits s owner node width toks) := by
  unfold dataEdits
  dsimp only
  split
  · exact allActs_single _ _
  · cases (splitArgs toks).mapM (item s owner width) <;> exact allActs_single _ _

/-- **A line of code only adds statements.** -/
theorem edits_acts {ln : Line} (code : isCode ln.tokens = true) (owner : Text) (seq : Nat) :
    AllActs (edits s owner seq ln) := by
  have body (owner : Text) (node : Node) : AllActs (bodyEdits s owner node (Token.body ln.tokens)) := by
    rw [isCode] at code
    generalize Token.body ln.tokens = toks at code
    cases toks with
    | nil =>
      rw [bodyEdits, labelEdits]
      split
      · exact allActs_single _ _
      · exact allActs_nil
    | cons head rest =>
      rw [head?_cons, Option.all_some] at code
      split at code
      next lexeme =>
        simp only [bodyEdits, lexeme]
        exact instructionEdits_acts node _ rest
      next lexeme =>
        simp only [bodyEdits, lexeme]
        exact dataEdits_acts node _ rest
      · cases code
  have becomes := edits_becomes s owner seq ln
  generalize edits s owner seq ln = es at becomes
  cases becomes with
  | lexical | label | script | foreign => exact allActs_single _ _
  | body => exact body _ _

theorem AllActs.exists_parses {es : List Edit} (h : AllActs es) :
    ∃ xs, Parses es xs ∧ es.filterMap Edit.report? = [] := by
  induction es with
  | nil => exact ⟨[], .nil, rfl⟩
  | cons e es ih =>
    obtain ⟨⟨node, action, rfl⟩, others⟩ := forall_mem_cons.1 h
    obtain ⟨xs, parses, quiet⟩ := ih others
    exact ⟨_, (Parses.act node action).append parses, quiet⟩

theorem allEdits_append (owner : Text) (seq : Nat) (as bs : List Line) :
    allEdits s owner seq (as ++ bs) =
      allEdits s owner seq as ++ allEdits s (ownerAfterAll owner as) (seq + as.length) bs := by
  induction as generalizing owner seq with
  | nil => rfl
  | cons ln rest ih =>
    rw [cons_append, allEdits, allEdits, ih, append_assoc, length_cons, Nat.add_right_comm, Nat.add_assoc seq]
    rfl

end Program

namespace Source

/-- Rows between ` if 0` and ` endif`. -/
def skipped (rows : List Text) : List Text := bytes " if 0" :: (rows ++ [bytes " endif"])

theorem linesAt_append (dialect : Dialect) (file : Text) (n : Nat) (as bs : List Text) :
    linesAt dialect file n (as ++ bs) = linesAt dialect file n as ++ linesAt dialect file (n + as.length) bs := by
  induction as generalizing n with
  | nil => rfl
  | cons row rows ih =>
    rw [cons_append, linesAt, linesAt, ih, length_cons, Nat.add_right_comm, Nat.add_assoc n]
    rfl

end Source

namespace Program
variable {s : Settings}

open Source

section
variable (s : Settings) (owner : Text) (seq : Nat) (file : Text) (n : Nat)

theorem edits_if :
    edits s owner seq (lineAt s.dialect file n (bytes " if 0")) =
      [.choose { seq, pos := { file, line := n }, text := bytes " if 0" } (.nonzero (.num 0))] := by
  obtain ⟨dialect⟩ := s
  cases dialect <;> rfl

theorem edits_endif :
    edits s owner seq (lineAt s.dialect file n (bytes " endif")) = [.close { file, line := n } false] := by
  obtain ⟨dialect⟩ := s
  cases dialect <;> rfl

end

theorem allEdits_acts (code : ∀ row ∈ rows, isCode (lex s.dialect row).tokens = true) (file : Text) (n : Nat)
    (owner : Text) (seq : Nat) : AllActs (allEdits s owner seq (linesAt s.dialect file n rows)) := by
  induction rows generalizing n owner seq with
  | nil => exact allActs_nil
  | cons row rows ih =>
    rw [forall_mem_cons] at code
    have here : AllActs (edits s owner (seq + 1) (lineAt s.dialect file n row)) := edits_acts code.1 owner _
    exact forall_mem_append.2 ⟨here, ih code.2 _ _ _⟩

/-- **Rows that are skipped become a block that nothing is done for**, wherever they stand. -/
theorem lines_skipped (code : ∀ row ∈ rows, isCode (lex s.dialect row).tokens = true) (file : Text) (n : Nat)
    {st : Building} (going : st.fatal = none) :
    ∃ x : Statement, x.Untaken ∧ lines s (linesAt s.dialect file n (skipped rows)) st =
      (st.add x).atLine (st.seq + (linesAt s.dialect file n (skipped rows)).length)
        (ownerAfterAll st.owner (linesAt s.dialect file n (skipped rows))) := by
  obtain ⟨x, untaken, parses, quiet⟩ : ∃ x : Statement, x.Untaken ∧
      Parses (allEdits s st.owner st.seq (linesAt s.dialect file n (skipped rows))) [x] ∧
      (allEdits s st.owner st.seq (linesAt s.dialect file n (skipped rows))).filterMap Edit.report? = [] := by
    rw [skipped, linesAt, linesAt_append, allEdits, allEdits_append, edits_if, linesAt, linesAt, allEdits, allEdits,
      edits_endif, append_nil]
    obtain ⟨yes, parses, quiet⟩ := (allEdits_acts code file (n + 1)
      (ownerAfter st.owner (lineAt s.dialect file n (bytes " if 0"))) (st.seq + 1)).exists_parses
    refine ⟨_, .choose rfl yes, .choose _ _ _ parses, ?_⟩
    rw [singleton_append, filterMap_cons_none rfl, filterMap_append, quiet]
    rfl
  refine ⟨x, untaken, ?_⟩
  rw [lines_eq _ _ (lines_going going parses.going), parses.editAll_eq, quiet, Building.noting_nil]
  rfl

end Program

/-! ## The program with the block -/

theorem Block.Placed.skip {block block' : Block} (h : block.Placed S True block') (untaken : x.Untaken) :
    block.Placed S True (block'.add x) := by
  cases h with
  | choose h test yes no =>
    cases no with
    | none => exact .choose h test (.skip trivial untaken yes) .none
    | some no => exact .choose h test yes (.some (.skip trivial untaken no))
  | repeated h count body => exact .repeated h count (.skip trivial untaken body)

theorem Building.Placed.skip {st st' : Building} (h : st.Placed S True st') (untaken : x.Untaken) :
    st.Placed S True (st'.add x) := by
  have blocks := h.blocks
  unfold Building.add
  split
  · exact { h with root := .skip trivial untaken h.root }
  next block rest innermost =>
    rw [innermost] at blocks
    generalize outside : st.blocks = bs at blocks
    cases blocks with
    | cons first others => exact { h with blocks := outside ▸ .cons (first.skip untaken) others }

namespace Program
variable {s : Settings}

open Source

theorem ownsItself_moved (pieces : Pieces (fun _ _ => False) ls ls') : ownsItself ls' = ownsItself ls := by
  induction pieces with
  | nil => rfl
  | keep moved _ ih => rw [ownsItself, ownsItself, ownerAfter_moved moved, moved.tokens, ih]
  | replace h => exact h.elim

theorem finish_owner (st : Building) (owner : Text) : finish { st with owner } = { finish st with owner } := by
  have reported (bs : List Block) (st : Building) :
      bs.foldl (fun st block => st.fail block.pos block.lonely) { st with owner } =
        { bs.foldl (fun st block => st.fail block.pos block.lonely) st with owner } := by
    induction bs generalizing st with
    | nil => rfl
    | cons block bs ih => exact ih (st.fail block.pos block.lonely)
  simp only [finish, reported]

section
variable {front rest rest' : List Line} (code : ∀ row ∈ rows, Token.isCode (lex s.dialect row).tokens = true)
  (file : Text) (n : Nat) (pieces : Pieces (fun _ _ => False) rest rest')
  (owners : ownerAfterAll (ownerAfterAll [] front) (linesAt s.dialect file n (skipped rows)) =
    ownerAfterAll [] front ∨ ownsItself rest = true)
include code pieces owners

theorem lines_inside : ∃ (T : Numbering) (owner : Text), T (-1) (-1) ∧ T.Ordered ∧
    (lines s (front ++ rest) {}).Placed T True
      { lines s (front ++ (linesAt s.dialect file n (skipped rows) ++ rest')) {} with owner } := by
  obtain ⟨T, known, ordered, below, built⟩ :=
    (BuiltAlike.of_moved (.refl front) : BuiltAlike True s s front front).start
  rw [lines_append rfl, lines_append rfl]
  by_cases early : (lines s front {}).fatal.isSome
  · rw [if_pos early, if_pos early]
    exact ⟨T, _, known, ordered, built⟩
  · have going : (lines s front {}).fatal = none := by simpa using early
    have owner : (lines s front {}).owner = ownerAfterAll [] front := by
      rw [lines_eq front {} going]
      rfl
    obtain ⟨x, untaken, block⟩ := lines_skipped code file n going
    generalize linesAt s.dialect file n (skipped rows) = inside at owners block
    rw [if_neg early, if_neg early]
    generalize lines s front {} = st at *
    have skipped := built.skip untaken
    have going' : (lines s inside st).fatal = none := by
      rw [block]
      exact skipped.fatal.trans going
    rw [lines_append going, if_neg (by simp [going'])]
    -- the rest is built after the block as after the front, if it has the same owner of local names
    have placed := skipped.atLine st.seq (st.seq + inside.length) (ownerAfterAll [] front)
    have same : st = st.atLine st.seq (ownerAfterAll [] front) := by
      rw [← owner]
      rfl
    rw [← same] at placed
    obtain ⟨U, le', ordered, -, built⟩ := BuiltAlike.of_moved (s := s) pieces ordered
      (below.mono le_rfl (Nat.le_add_right ..)) placed going
    have known : U (-1) (-1) := le' _ _ known
    rcases owners with kept | free
    · rw [block, owner, kept]
      exact ⟨U, _, known, ordered, built⟩
    · rw [← ownsItself_moved pieces] at free
      obtain ⟨owner', other⟩ := lines_owner (s := s) free
        ((st.add x).atLine (st.seq + inside.length) (ownerAfterAll [] front)) (ownerAfterAll st.owner inside)
      have base : lines s inside st = { (st.add x).atLine (st.seq + inside.length) (ownerAfterAll [] front) with
          owner := ownerAfterAll st.owner inside } := block
      rw [base, other]
      exact ⟨U, _, known, ordered, built⟩

theorem build_inside : ∃ (T : Numbering) (owner : Text), T (-1) (-1) ∧ T.Ordered ∧
    (build s (front ++ rest)).Placed T True
      { build s (front ++ (linesAt s.dialect file n (skipped rows) ++ rest')) with owner } := by
  obtain ⟨T, owner, known, ordered, built⟩ := lines_inside code file n pieces owners
  refine ⟨T, owner, known, ordered, ?_⟩
  unfold build
  dsimp only
  have fatal := built.fatal
  dsimp only at fatal
  rw [fatal]
  split
  · exact built
  · rw [← finish_owner]
    exact built.finish

end

end Program

/-! ## The source with the block -/

namespace Source

theorem forall_mem_skipped (code : ∀ row ∈ rows, isCode (lex dialect row).tokens = true) :
    ∀ row ∈ skipped rows, rowTask dialect row = .line ∧
      bodyIs .define (lex dialect row).tokens = false ∧
      bodyIs .endm (lex dialect row).tokens = false := by
  refine forall_mem_cons.2 ⟨?_, forall_mem_append.2 ⟨fun row mem => ?_, ?_⟩⟩
  · cases dialect <;> exact ⟨rfl, rfl, rfl⟩
  · exact ⟨rowTask_of_isCode (code row mem), bodyIs_of_isCode (code row mem) nofun,
      bodyIs_of_isCode (code row mem) nofun⟩
  · rw [forall_mem_singleton]
    cases dialect <;> exact ⟨rfl, rfl, rfl⟩

end Source

namespace Program

open Source

/-- The owner of local names after the block is the owner after its rows, wherever they stand. -/
theorem ownerAfterAll_skipped (dialect : Dialect) (file : Text) (n : Nat) (rows : List Text) (owner : Text) :
    ownerAfterAll owner (linesAt dialect file n (skipped rows)) =
      ownerAfterAll owner (linesAt dialect file 1 rows) := by
  have inside (n n' : Nat) (owner : Text) : ownerAfterAll owner (linesAt dialect file n rows) =
      ownerAfterAll owner (linesAt dialect file n' rows) := by
    induction rows generalizing n n' owner with
    | nil => rfl
    | cons row rows ih => exact ih (n + 1) (n' + 1) _
  have first : ownerAfter owner (lineAt dialect file n (bytes " if 0")) = owner := by
    cases dialect <;> rfl
  have last (n : Nat) (owner : Text) : ownerAfter owner (lineAt dialect file n (bytes " endif")) = owner := by
    cases dialect <;> rfl
  rw [skipped, linesAt, linesAt_append, linesAt, linesAt, ownerAfterAll, foldl_cons, foldl_append, first,
    foldl_cons, foldl_nil, last]
  exact inside ..

end Program

theorem Outcome.Agree.refl (o : Outcome) : o.Agree o := by
  cases o with
  | outOfBounds => exact .outOfBounds
  | finished a =>
    refine .finished ⟨rfl, rfl, rfl, rfl, ?_, rfl, rfl⟩
    cases a.symbols with
    | none => exact .none
    | some t => exact .some fun name => Table.agreeOn_iff.2 rfl

theorem Outcome.Agree.any_eq {o o' : Outcome} (h : o.Agree o') (check : Result → Bool)
    (respects : ∀ {a a' : Result}, a.Same { a' with passes := a.passes } → check a' = check a) :
    o'.any check = o.any check := by
  cases h with
  | finished h => exact respects h
  | outOfBounds => rfl

namespace Assembly

open Program

/-- A source `data'` that has a block more than the source `data`: behind the rows of `front` it has rows of code
    between ` if 0` and ` endif`, and then goes on with the rows `rest`. -/
structure SkipsRows (s : Settings) (file front data data' : Text) (rows rest : List Text) : Prop where
  plain : Text.lines data = Text.lines front ++ rest
  longer : Text.lines data' = Text.lines front ++ (Source.skipped rows ++ rest)
  /-- The block does not start inside of a script, nor inside of a definition of a macro. -/
  scripts : Source.scriptsEnd s.dialect 0 (Text.lines front) = true
  definitions : Macro.definitionsEnd 0 (loadedOf s file front) = true
  code : ∀ row ∈ rows, Token.isCode (lex s.dialect row).tokens = true
  names : ∀ row ∈ Source.skipped rows, ∀ tok ∈ (Token.body (lex s.dialect row).tokens).head?,
    tok.text ∉ (expansionOf s file front).macros
  /-- The owner of local names is the same after the block, or does not matter to the lines behind it. -/
  owners : ownerAfterAll (ownerAfterAll [] (expansionOf s file front).lines.toList)
        (Source.linesAt s.dialect file 1 rows) = ownerAfterAll [] (expansionOf s file front).lines.toList ∨
      ownsItself ((expansionOf s file data).lines.toList.drop (expansionOf s file front).lines.size) = true
  /-- Two passes are allowed, and the tests and counts of the source without the block are constant; or else its
      turns settle in time. -/
  passes : (1 < s.passLimit ∧ Statement.allFixed (programOf s file data) = true) ∨
    TurnsSettle s (programOf s file data)

/-- Both sources are loaded, expanded and built to the same program, apart from blocks that nothing is done for. -/
structure StagesAlike (T : Numbering) (s : Settings) (file data data' : Text) : Prop where
  fatal : (Source.load s Source.includeLimit file data' {}).fatal =
    (Source.load s Source.includeLimit file data {}).fatal
  loaded : Diagnostics.severities (Source.load s Source.includeLimit file data' {}).diagnostics.toList =
    Diagnostics.severities (Source.load s Source.includeLimit file data {}).diagnostics.toList
  expanded : Diagnostics.severities (expansionOf s file data').diagnostics.toList =
    Diagnostics.severities (expansionOf s file data).diagnostics.toList
  /-- The owner of local names may be another one at the end. -/
  built : ∃ owner, (build s (expansionOf s file data).lines.toList).Placed T True
    { build s (expansionOf s file data').lines.toList with owner }

open Source Diagnostics

theorem assembleText_stages (s : Settings) (cancelled : Nat → Bool) (file data : Text) :
    assembleText s cancelled file data =
      match (load s includeLimit file data {}).fatal with
      | some fault => .finished
          { diagnostics := (load s includeLimit file data {}).diagnostics.toList, fault := some fault }
      | none =>
        match (build s (expansionOf s file data).lines.toList).fatal with
        | some fault => .finished { diagnostics := reports s file data, fault := some fault }
        | none => passesOver s cancelled (reports s file data) (programOf s file data) :=
  rfl

theorem StagesAlike.agree {T : Numbering} {s : Settings} {file data data' : Text}
    (h : StagesAlike T s file data data') (known : T (-1) (-1)) (ordered : T.Ordered)
    (turns : TurnsSettle s (programOf s file data)) :
    Outcome.Agree (assembleText s neverCancelled file data) (assembleText s neverCancelled file data') := by
  obtain ⟨owner, built⟩ := h.built
  have found : (reports s file data').severities = (reports s file data).severities :=
    severities_append (severities_append h.loaded h.expanded) built.diagnostics
  have fatal : (build s (expansionOf s file data').lines.toList).fatal =
      (build s (expansionOf s file data).lines.toList).fatal := built.fatal
  rw [assembleText_stages, assembleText_stages, h.fatal, fatal]
  cases (load s includeLimit file data {}).fatal with
  | some fault => exact .finished (.of_placed (S := T) rfl rfl rfl .none h.loaded)
  | none =>
    cases (build s (expansionOf s file data).lines.toList).fatal with
    | some fault => exact .finished (.of_placed (S := T) rfl rfl rfl .none found)
    | none => exact passesOver_agree ordered known built.root.reverse found turns

namespace SkipsRows
variable {s : Settings} {file front data data' : Text} {rest : List Text}
  (h : SkipsRows s file front data data' rows rest)
include h

theorem kept (n : Nat) :
    ∀ ln ∈ linesAt s.dialect file n (skipped rows), Macro.task (expansionOf s file front).macros ln = .keep := by
  intro ln mem
  obtain ⟨row, isRow, n', rfl⟩ := exists_of_mem_linesAt mem
  obtain ⟨-, define, endm⟩ := forall_mem_skipped h.code row isRow
  refine Macro.task_keep define endm fun tok isHead name isWord => ?_
  rw [← Token.text_of_word? isWord]
  exact h.names row isRow tok isHead

theorem expanded {n : Nat} (pieces : Pieces (fun _ _ => False) ls ls')
    (plain : loadedOf s file data = loadedOf s file front ++ ls)
    (longer : loadedOf s file data' = loadedOf s file front ++ (linesAt s.dialect file n (skipped rows) ++ ls')) :
    ∃ c c' : Expansion, c.Alike (fun _ _ => False) c' ∧
      expansionOf s file data = c.after (expansionOf s file front).lines (expansionOf s file front).diagnostics ∧
      expansionOf s file data' =
        c'.after ((expansionOf s file front).lines ++
          (linesAt s.dialect file n (skipped rows)).toArray) (expansionOf s file front).diagnostics := by
  have split := Macro.expand_inside rfl h.definitions (h.kept n) pieces
  rwa [← plain, ← longer] at split

/-- What comes before and behind the block is built as without it, if it is expanded so. -/
theorem built {n : Nat} {c c' : Expansion} (alike : c.Alike (fun _ _ => False) c')
    (plain : expansionOf s file data = c.after (expansionOf s file front).lines (expansionOf s file front).diagnostics)
    (longer : expansionOf s file data' = c'.after ((expansionOf s file front).lines ++
      (linesAt s.dialect file n (skipped rows)).toArray) (expansionOf s file front).diagnostics) :
    ∃ (T : Numbering) (owner : Text), T (-1) (-1) ∧ T.Ordered ∧
      (build s (expansionOf s file data).lines.toList).Placed T True
        { build s (expansionOf s file data').lines.toList with owner } := by
  have owners := h.owners
  simp only [plain, Expansion.after, Array.toList_append, ← Array.length_toList, drop_left] at owners
  rw [← ownerAfterAll_skipped s.dialect file n] at owners
  have split := build_inside h.code file n alike.lines owners
  simpa [plain, longer, Expansion.after] using split

/-- The source with the block ends before it, or is loaded, expanded and built to the same program. -/
theorem stages :
    assembleText s neverCancelled file data' = assembleText s neverCancelled file data ∨
      ∃ T : Numbering, T (-1) (-1) ∧ T.Ordered ∧ StagesAlike T s file data data' := by
  have inside : ∀ row ∈ skipped rows, rowTask s.dialect row = .line :=
    fun row mem => (forall_mem_skipped h.code row mem).1
  rcases load_parts h.plain h.longer h.scripts (forall_mem_nil _) inside includeLimit
    with ⟨same, same'⟩ | ⟨-, n, c, c', loaded, plain, longer⟩
  · left
    rw [assembleText, assembleText, same, same']
  · right
    obtain ⟨e, e', expanded, short, long⟩ := h.expanded (n := n) loaded.lines
      (by simp [loadedOf, plain, Loading.after, linesAt]) (by simp [loadedOf, longer, Loading.after])
    obtain ⟨T, owner, known, ordered, built⟩ := h.built expanded short long
    refine ⟨T, known, ordered, ?_, ?_, ?_, owner, built⟩
    · rw [plain, longer]
      exact loaded.fatal
    · rw [plain, longer]
      simp only [Loading.after, Array.toList_append]
      exact severities_append rfl loaded.diagnostics
    · rw [short, long]
      simp only [Expansion.after, Array.toList_append]
      exact severities_append rfl expanded.diagnostics

end SkipsRows

/-- **A block between ` if 0` and ` endif` is inert**: the source with it and the source without it are assembled
    to the same state, code and symbols, with as many errors and warnings. -/
theorem untaken_block_inert {s : Settings} {file front data data' : Text} {rows rest : List Text}
    (h : SkipsRows s file front data data' rows rest) :
    Outcome.Agree (assembleText s neverCancelled file data) (assembleText s neverCancelled file data') := by
  rcases h.stages with same | ⟨T, known, ordered, alike⟩
  · rw [same]
    exact .refl _
  · exact alike.agree known ordered (h.passes.elim (fun two => .of_fixed two.2 two.1) id)

/-- The rows before a block that stands in a repetition whose count is found only behind it. -/
def repeatedFront : Text := bytes "m macro\n nop\n endm\naa: m\n rept later\n"

/-- The source without the block, and with it. -/
def repeatedSource : Text := repeatedFront ++ bytes " endr\ncc: nop\n.l: nop\nlater equ 2\n"

def repeatedBlock : Text :=
  repeatedFront ++ bytes " if 0\nbb: ld a, 1\n db 2, bb\n endif\n endr\ncc: nop\n.l: nop\nlater equ 2\n"

/-- The source without the block needs two passes, and the source with it needs three. -/
theorem untaken_block_repeated :
    SkipsRows .bare (bytes "a.asm") repeatedFront repeatedSource repeatedBlock [bytes "bb: ld a, 1", bytes " db 2, bb"]
        [bytes " endr", bytes "cc: nop", bytes ".l: nop", bytes "later equ 2"] ∧
      (assembleText .bare neverCancelled (bytes "a.asm") repeatedSource).any (fun r =>
        r.state == .stable && r.passes == 2 && r.code == #[0, 0, 0]) = true ∧
      (assembleText .bare neverCancelled (bytes "a.asm") repeatedBlock).any (·.passes == 3) = true ∧
      Outcome.Agree (assembleText .bare neverCancelled (bytes "a.asm") repeatedSource)
        (assembleText .bare neverCancelled (bytes "a.asm") repeatedBlock) := by
  have turns : TurnsSettle .bare (programOf .bare (bytes "a.asm") repeatedSource) := by
    intro n pos _ before _ unchanged
    have settled : Settled .bare (programOf .bare (bytes "a.asm") repeatedSource) 2 :=
      ⟨by decide +kernel, by decide +kernel⟩
    have early : n ≤ 2 := by
      by_contra late
      exact (before 2 Nat.two_pos (by omega)).unsettled settled
    obtain rfl | rfl : n = 1 ∨ n = 2 := by omega
    · have changed : (table .bare (programOf .bare (bytes "a.asm") repeatedSource) 1).diff
          (table .bare (programOf .bare (bytes "a.asm") repeatedSource) 0) ≠ [] := by decide +kernel
      exact absurd unchanged changed
    · exact .inr ⟨by decide, by decide +kernel⟩
  have skips : SkipsRows .bare (bytes "a.asm") repeatedFront repeatedSource repeatedBlock
      [bytes "bb: ld a, 1", bytes " db 2, bb"]
      [bytes " endr", bytes "cc: nop", bytes ".l: nop", bytes "later equ 2"] := {
    plain := by decide +kernel
    longer := by decide +kernel
    scripts := by decide +kernel
    definitions := by decide +kernel
    code := by decide +kernel
    names := by decide +kernel
    owners := .inr (by decide +kernel)
    passes := .inr turns }
  exact ⟨skips, by decide +kernel, by decide +kernel, untaken_block_inert skips⟩

/-- **A block that is not taken can be seen.**  A label inside of it owns a local name behind it.  In a repetition
    whose count is found only behind it, its sizes need one more pass, which may be one too many, or may be the one
    in which a test for a definition has another outcome. -/
theorem untaken_block_seen :
    ¬ Outcome.Agree (assembleText .bare neverCancelled (bytes "a.asm") (bytes "aa: nop\n.l: nop\n"))
        (assembleText .bare neverCancelled (bytes "a.asm") (bytes "aa: nop\n if 0\nbb: nop\n endif\n.l: nop\n")) ∧
      ¬ Outcome.Agree
        (assembleText { Settings.bare with maxPasses := 2 } neverCancelled (bytes "a.asm")
          (bytes " rept later\n endr\nlater equ 3\n"))
        (assembleText { Settings.bare with maxPasses := 2 } neverCancelled (bytes "a.asm")
          (bytes " rept later\n if 0\nbb: nop\n endif\n endr\nlater equ 3\n")) ∧
      ¬ Outcome.Agree
        (assembleText .bare neverCancelled (bytes "a.asm") (movingSource ++ bytes " rept later\n endr\n"))
        (assembleText .bare neverCancelled (bytes "a.asm")
          (movingSource ++ bytes " rept later\n if 0\nbb: nop\n endif\n endr\n")) := by
  refine ⟨fun agree => ?_, fun agree => ?_, fun agree => ?_⟩
  · have same := agree.any_eq (fun r => r.symbols.any fun t => (t.value? (bytes "aa.l")).isSome) fun {a a'} h => by
      have symbols : Option.Rel _ a.symbols a'.symbols := h.symbols
      generalize a.symbols = x, a'.symbols = y at symbols
      cases symbols with
      | none => rfl
      | some same => rw [Option.any_some, Option.any_some, Table.value?_eq_of_agreeOn (same _)]
    revert same
    decide +kernel
  · have same := agree.any_eq (·.state == .stable) fun h => congrArg (· == State.stable) h.state
    revert same
    decide +kernel
  · have same := agree.any_eq (·.code == #[1]) fun h => congrArg (· == #[1]) h.code
    revert same
    decide +kernel

end Assembly

end Z80Asm
