import Z80Asm.Proofs.CompassWords
import Z80Asm.Proofs.DialectLines

/-!
# Sources in two dialects

The Compass dialect only adds to the native one.  A source in which the native dialect finds no lexical fault, and that
has neither words with an `@` nor empty strings, is loaded, expanded and built to the same program in both dialects,
unless the native one reports something that belongs to the other.
-/

namespace Z80Asm

open List

variable {st : Building} {ln : Line} {depth : Nat} {d : Diagnostic} {ls : List Line} {s : Settings}

/-! ## Loading -/

namespace Source

theorem lex_eq_inCompass {row : Text} (fine : (lex .native row).fault = none) : lex .compass row = lex .native row := by
  obtain ⟨tokens, fault⟩ := lex_inCompass row
  have fine' := fault fine
  generalize lex .compass row = lexed, lex .native row = lexed' at tokens fine fine'
  cases lexed
  cases lexed'
  cases tokens
  cases fine
  cases fine'
  rfl

theorem scriptRows_inCompass (rest : List Text) : scriptRows .compass rest = scriptRows .native rest := by
  have same : endsScript .compass = endsScript .native := by
    funext row
    rw [endsScript, endsScript, (lex_inCompass row).1]
  rw [scriptRows, scriptRows, same]

/-- No line that is loaded so far has a lexical fault. -/
def AllFine (st : Loading) : Prop := ∀ ln ∈ st.lines.toList, ln.fault = none

theorem AllFine.of_prefix {st st' : Loading} (h : AllFine st') (grown : st.lines.toList <+: st'.lines.toList) :
    AllFine st := fun ln mem => h ln (grown.subset mem)

variable {file : Text} {insert insert' : Pos → List Token → Loading → Loading}

theorem eq_keeps : Loading.Keeps (fun st st' => st' = st) (· = ·) where
  next same := congrArg (· + 1) same
  fatal h := by rw [h]
  push file ln same h := by rw [h, same]
  fail file fault same h := by rw [h, same]
  abort file fault same h := by rw [h, same]

theorem loadRows_inCompass (native : s.dialect = .native)
    (steps : ∀ pos args st, Loading.Steps (fun _ => True) st (insert pos args st))
    (inserts : Inserts (fun st st' => st' = st) AllFine (· = ·) insert insert')
    (n skip : Nat) (rows : List Text) (st : Loading) (fine : AllFine (loadRows s file insert n skip rows st)) :
    loadRows s.inCompass file insert' n skip rows st = loadRows s file insert n skip rows st := by
  induction rows generalizing n skip st with
  | nil => simp only [loadRows]
  | cons row rest ih =>
    cases skip with
    | succ skip => exact ih _ _ _ fine
    | zero =>
      have here : (lex .native row).fault = none := by
        obtain ⟨ln, mem, -, -, fault⟩ := @exists_mem_loadRows s file insert steps n row rest st
        rw [fine ln mem, native] at fault
        exact fault.symm
      have same : lex s.inCompass.dialect row = lex s.dialect row := by
        rw [native]
        exact lex_eq_inCompass here
      refine loadRows_cons_related eq_keeps inserts same (fun _ => ?_) rfl
        (fun fine => fine.of_prefix (loadRows_grows steps ..)) (fun _ _ _ h fine => ?_) rfl fine
      · rw [native]
        exact ⟨scriptRows_inCompass rest, Iff.rfl⟩
      · rw [h]
        exact ih _ _ _ fine

/-- **A source is loaded in both dialects to the same lines**, if none of them has a lexical fault in the native one. -/
theorem load_inCompass (native : s.dialect = .native) (depth : Nat) (file data : Text) (st : Loading)
    (fine : AllFine (load s depth file data st)) : load s.inCompass depth file data st = load s depth file data st := by
  refine (load_related eq_keeps (find_same s.find_inCompass) (fun depth inserts => ?_) depth).2 rfl rfl fine
  intro file data data' st st' same h fine
  rw [load_eq] at fine ⊢
  rw [load_eq, same, h]
  exact loadRows_inCompass native (inserter_steps s depth) inserts _ _ _ _ fine

end Source

/-! ## Expansion -/

def Diagnostic.isCompassOnly (d : Diagnostic) : Bool := d.fault.any Fault.isCompassOnly

/-- The name of the macro has no `@`, and its lines are neutral. -/
structure Macro.Neutral (m : Macro) : Prop where
  name : '@'.toUInt8 ∉ m.name
  body : ∀ ln ∈ m.body, ln.Neutral

/-- The macros are neutral, and so are the lines that are expanded. -/
structure Expansion.Neutral (st : Expansion) : Prop where
  macros : ∀ (name : Text) (m : Macro), st.macros[name]? = some m → m.Neutral
  lines : ∀ ln ∈ st.lines.toList, ln.Neutral

namespace Macro

theorem headingFault?_inCompass {name : Option Text} {params : List (List Token)} {compass : Bool}
    (allowed : ∀ fault ∈ headingFault? .native name params compass, fault.isCompassOnly = false) :
    headingFault? .compass name params compass = headingFault? .native name params compass := by
  unfold headingFault? at allowed ⊢
  split
  · rfl
  next named =>
    rw [if_neg named] at allowed
    split
    · rfl
    next proper =>
      simp only [proper] at allowed
      cases compass with
      | false => rfl
      | true => exact Bool.noConfusion (allowed _ rfl)

theorem define_inCompass (native : s.dialect = .native) (ln : Line) (label : Option Token) (args : List Token)
    (rest : List Line) (st : Expansion)
    (allowed : ∀ d ∈ (define s ln label args rest st).1.diagnostics.toList, d.isCompassOnly = false) :
    define s.inCompass ln label args rest st = define s ln label args rest st := by
  have compass : s.inCompass.dialect = .compass := rfl
  have faults : definitionFaults .compass label args (bodyLines 0 rest).2 =
      definitionFaults .native label args (bodyLines 0 rest).2 := by
    unfold definitionFaults
    dsimp only
    rw [headingFault?_inCompass fun fault mem => ?_]
    refine allowed _ (mem_define_diagnostics ?_ ln st)
    rw [native]
    exact mem_append_right _ (Option.mem_toList.2 mem)
  rw [define_eq, define_eq, native, compass, faults]

theorem settle_inCompass (native : s.dialect = .native) (deep : Bool) (ln : Line) (rest : List Line) (st : Expansion)
    (allowed : ∀ d ∈ (settle s deep ln rest st).1.diagnostics.toList, d.isCompassOnly = false) :
    settle s.inCompass deep ln rest st = settle s deep ln rest st := by
  unfold settle at allowed ⊢
  generalize task st.macros ln = isTask at allowed
  cases isTask with
  | keep | lonely | use => rfl
  | define label args => exact define_inCompass native ln label args rest st allowed

theorem localWord?_neutral {dialect : Dialect} {word rest : Text} (neutral : '@'.toUInt8 ∉ word)
    (h : localWord? dialect word = some rest) : '@'.toUInt8 ∉ rest := by
  unfold localWord? at h
  split at h
  · split at h
    · cases h
      exact fun mem => neutral (mem_cons_of_mem _ mem)
    · cases h
  · cases h

theorem localName_neutral {name word : Text} (neutral : '@'.toUInt8 ∉ name) (neutral' : '@'.toUInt8 ∉ word)
    (number : Nat) : '@'.toUInt8 ∉ localName name number word := by
  have digits : '@'.toUInt8 ∉ Text.ofNat number := fun mem =>
    absurd ((Lex.ofNat_decimal number).2.1 _ mem) (by decide)
  rw [localName_eq]
  simp only [mem_append, mem_cons, neutral, neutral', digits, or_false, false_or]
  decide

theorem copy_neutral {u : Use} (fits : u.args.length = u.definition.params.length)
    (name : '@'.toUInt8 ∉ u.definition.name) (args : ∀ arg ∈ u.args, ∀ tok ∈ arg, tok.lexeme.Neutral)
    (neutral : ln.Neutral) (dialect : Dialect) : (u.copy dialect ln).Neutral := by
  intro tok mem
  obtain ⟨tok', isToken, placed⟩ := mem_flatMap.1 mem
  have makes := makes_place dialect fits tok'
  change tok ∈ Use.place dialect u tok' at placed
  generalize Use.place dialect u tok' = toks at makes placed
  cases makes with
  | @argument word arg _ _ _ isArg same =>
    have mem : tok.lexeme ∈ arg.map (·.lexeme) := same ▸ mem_map_of_mem placed
    obtain ⟨original, isOriginal, lexeme⟩ := List.mem_map.1 mem
    rw [← lexeme]
    exact args arg (mem_of_getElem? isArg) original isOriginal
  | @renamed word rest isWord _ isLocal =>
    cases mem_singleton.1 placed
    exact localName_neutral name (localWord?_neutral (neutral.not_mem isToken isWord) isLocal) u.number
  | kept _ =>
    cases mem_singleton.1 placed
    exact neutral tok isToken

theorem copy_inCompass (u : Use) (neutral : ln.Neutral) : u.copy .compass ln = u.copy .native ln := by
  have words {word : Text} (plain : '@'.toUInt8 ∉ word) : localWord? .compass word = localWord? .native word := by
    rcases word with _ | ⟨a, _ | ⟨b, rest⟩⟩
    · rfl
    · rfl
    · have start : a ≠ '@'.toUInt8 := fun same => plain (same ▸ mem_cons_self)
      simp [localWord?, start]
  unfold Use.copy substituteLine
  congr 1
  refine flatMap_congr fun tok mem => ?_
  unfold substituteToken
  cases isWord : tok.word? with
  | none => rfl
  | some word =>
    dsimp only
    rw [words (neutral.not_mem mem isWord)]

theorem lines_inCompass (u : Use) (neutral : ∀ ln ∈ u.definition.body, ln.Neutral) :
    u.lines .compass = u.lines .native :=
  map_congr_left fun ln mem => copy_inCompass u (neutral ln mem)

theorem keeps_neutral (s : Settings) (us : List Use) : Keeps s us (∀ ln ∈ ·, ln.Neutral) Neutral Line.Neutral where
  behind n all ln mem := (forall_mem_cons.1 all).2 ln (mem_of_mem_drop mem)
  define all isTask m isMacro := by
    obtain ⟨here, behind⟩ := forall_mem_cons.1 all
    obtain ⟨tok, mem, isWord⟩ := heading_word isTask _ (recorded?_name isMacro)
    exact ⟨here.not_mem mem isWord, fun ln inBody => behind ln ((recorded?_initial isMacro).subset inBody)⟩
  line all := (forall_mem_cons.1 all).1
  label {ln _ label} all isLabel := by
    intro tok mem
    rcases mem_cons.1 mem with rfl | mem
    · exact (forall_mem_cons.1 all).1 label ((Token.splitLabel_subset rfl).1 label isLabel).1
    · cases mem_singleton.1 mem
      trivial
  use u _ st ln rest st₁ isUse all known ln' mem := by
    obtain ⟨original, inBody, rfl⟩ := List.mem_map.1 mem
    obtain ⟨label, m, args, isTask, fits, rfl, rfl⟩ := use?_eq_some isUse
    obtain ⟨head, split⟩ := task_use_split isTask
    refine copy_neutral fits known.name (fun arg isArg tok mem => ?_) (known.body original inBody) _
    exact (forall_mem_cons.1 all).1 tok ((Token.splitLabel_subset split).2
      (mem_cons_of_mem _ (Token.mem_splitArgs isArg tok mem)))

/-- **Lines are expanded in both dialects by the same uses**, if the macros that are used are neutral and the native one
    reports no definition. -/
theorem Runs.inCompass (native : s.dialect = .native) {lines : List Line} {st st' : Expansion} {us : List Use}
    (run : Runs s depth lines st us st') (neutral : ∀ u ∈ us, u.definition.Neutral)
    (allowed : ∀ d ∈ st'.diagnostics.toList, d.isCompassOnly = false) : Runs s.inCompass depth lines st us st' := by
  induction run with
  | done depth st => exact .done depth st
  | @line depth ln rest st st₁ st₂ size us noUse settled behind ih =>
    have grown : st₁.diagnostics.toList ⊆ st₂.diagnostics.toList := by
      rw [← behind.expand_eq]
      exact diagnostics_subset_expand _ _
    have same := settle_inCompass native (depth = 0) ln rest st
      (by rw [settled]; exact fun d mem => allowed d (grown mem))
    exact .line noUse (same.trans settled) (ih neutral allowed)
  | @use depth ln rest st st₁ st₂ st₃ u us us' isUse _ behind insideIH behindIH =>
    simp only [forall_mem_cons, forall_mem_append] at neutral
    have grown : st₂.diagnostics.toList ⊆ st₃.diagnostics.toList := by
      rw [← behind.expand_eq]
      exact diagnostics_subset_expand _ _
    have inside := insideIH neutral.2.1 fun d mem => allowed d (grown mem)
    have compass : s.inCompass.dialect = .compass := rfl
    rw [native, ← lines_inCompass _ neutral.1.body, ← compass] at inside
    exact .use isUse inside (behindIH neutral.2.2 allowed)

theorem expand_inCompass (native : s.dialect = .native) {lines : List Line} (neutral : ∀ ln ∈ lines, ln.Neutral)
    (allowed : ∀ d ∈ (expand s depth lines {}).diagnostics.toList, d.isCompassOnly = false) :
    expand s.inCompass depth lines {} = expand s depth lines {} ∧ (expand s depth lines {}).Neutral := by
  have run := runs_expand s depth lines {}
  obtain ⟨macros, ends⟩ := run.keeps (keeps_neutral s _) neutral .empty
  exact ⟨(run.inCompass native macros allowed).expand_eq, ends.macros, ends.lines⟩

end Macro

/-! ## Building -/

namespace Building

theorem mem_diagnostics_editAll (mem : d ∈ st.diagnostics) (es : List Edit) : d ∈ (st.editAll es).diagnostics := by
  induction es generalizing st with
  | nil => exact mem
  | cons e es ih => exact ih (mem_diagnostics_edit mem e)

theorem mem_diagnostics_of_fail {pos : Pos} {fault : Fault} {es : List Edit} (mem : .fail pos fault ∈ es)
    (st : Building) : .of .error pos 1 fault ∈ (st.editAll es).diagnostics := by
  induction es generalizing st with
  | nil => cases mem
  | cons e es ih =>
    rcases mem_cons.1 mem with rfl | mem
    · exact mem_diagnostics_editAll (by simp [edit, fail]) es
    · exact ih mem _

end Building

namespace Program

theorem mem_diagnostics_lines (mem : d ∈ st.diagnostics) (ls : List Line) : d ∈ (lines s ls st).diagnostics := by
  induction ls generalizing st with
  | nil => exact mem
  | cons ln rest ih =>
    have here : d ∈ (line s st ln).diagnostics := by
      rw [line_eq]
      exact Building.mem_diagnostics_editAll mem _
    rw [lines]
    split
    · exact here
    · exact ih here

/-- Neutral lines are added in both dialects alike, unless the native one reports a directive. -/
theorem lines_inCompass (native : s.dialect = .native) (neutral : ∀ ln ∈ ls, ln.Neutral) (st : Building)
    (allowed : ∀ d ∈ (lines s ls st).diagnostics, d.isCompassOnly = false) :
    lines s.inCompass ls st = lines s ls st := by
  induction ls generalizing st with
  | nil => rfl
  | cons ln rest ih =>
    rw [forall_mem_cons] at neutral
    have reported : ∀ d ∈ (line s st ln).diagnostics, d.isCompassOnly = false := by
      intro d mem
      refine allowed d ?_
      rw [lines]
      split
      · exact mem
      · exact mem_diagnostics_lines mem rest
    have same : line s.inCompass st ln = line s st ln := by
      rw [line_eq, line_eq, edits_inCompass s native _ _ neutral.1]
      intro e isEdit
      cases e with
      | fail pos fault =>
        refine reported (.of .error pos 1 fault) ?_
        rw [line_eq]
        exact Building.mem_diagnostics_of_fail isEdit st
      | _ => rfl
    rw [lines] at allowed
    rw [lines, lines, same]
    split
    · rfl
    next going =>
      rw [if_neg going] at allowed
      exact ih neutral.2 _ allowed

theorem build_inCompass (native : s.dialect = .native) (neutral : ∀ ln ∈ ls, ln.Neutral)
    (allowed : ∀ d ∈ (build s ls).diagnostics, d.isCompassOnly = false) : build s.inCompass ls = build s ls := by
  have same := lines_inCompass native neutral {} fun d mem => by
    refine allowed d ?_
    unfold build
    dsimp only
    split
    · exact mem
    · rw [diagnostics_finish]
      exact Array.mem_append_left _ mem
  rw [build, build, same]

end Program

/-! ## Runs -/

namespace Assembly

/-- A run looks at the predefined constants and at whether a listing is kept. -/
theorem resolve_congr {s s' : Settings} (listing : s'.listing = s.listing) (same : predefined s' = predefined s)
    (cancelled : Nat → Bool) (program : List Statement) (found : Diagnostics) (left index : Nat) (prev : Table)
    (sizes : Array Nat) :
    resolve s' cancelled program found left index prev sizes = resolve s cancelled program found left index prev sizes := by
  induction left generalizing index prev sizes with
  | zero => rw [resolve, resolve, listing, same]
  | succ left ih =>
    rw [resolve, resolve, listing, same]
    simp only [ih]

theorem found_subset_resolve {cancelled : Nat → Bool} {program : List Statement} {found : Diagnostics} {left : Nat}
    {r : Result}
    (run : resolve s cancelled program found left 1 (table s program 0) (sizesOf s program 0) = .finished r) :
    found ⊆ r.diagnostics := by
  obtain ⟨n, -, -, -, ends⟩ := resolve_ending s program cancelled found left 0
  rw [run] at ends
  cases ends with
  | cancelled | limit | settled => exact subset_append_left _ _
  | exhausted =>
    rw [final, append_assoc]
    exact subset_append_left _ _

def recorded (s : Settings) (cancelled : Nat → Bool) (file data : Text) : Diagnostics :=
  match assembleText s cancelled file data with
  | .finished r => r.diagnostics
  | .outOfBounds => reports s file data

theorem reports_subset_recorded {file data : Text}
    (going : (Source.load s Source.includeLimit file data {}).fatal = none) (cancelled : Nat → Bool) :
    reports s file data ⊆ recorded s cancelled file data := by
  rw [recorded, assembleText_stages, going]
  dsimp only
  cases (Program.build s (expansionOf s file data).lines.toList).fatal with
  | some fault => exact Subset.refl _
  | none =>
    dsimp only
    cases run : passesOver s cancelled (reports s file data) (programOf s file data) with
    | finished r => exact found_subset_resolve run
    | outOfBounds => exact Subset.refl _

/-- **The Compass dialect is a conservative extension of the native one.**  If a source has no lexical fault in the
    native dialect, no word with an `@` and no empty string, and if the native run does not report anything as
    belonging to the Compass dialect, then the run in the Compass dialect has the same outcome. -/
theorem compass_conservative {s : Settings} (native : s.dialect = .native) (cancelled : Nat → Bool) {file data : Text}
    (neutral : ∀ ln ∈ loadedOf s file data, ln.fault = none ∧ ln.Neutral)
    (quiet : ∀ d ∈ recorded s cancelled file data, d.isCompassOnly = false) :
    assembleText s.inCompass cancelled file data = assembleText s cancelled file data := by
  have loaded : Source.load s.inCompass Source.includeLimit file data {} = Source.load s Source.includeLimit file data {} :=
    Source.load_inCompass native _ _ _ _ fun ln mem => (neutral ln mem).1
  rw [assembleText_stages, assembleText_stages, loaded]
  cases fatal : (Source.load s Source.includeLimit file data {}).fatal with
  | some fault => rfl
  | none =>
    have allowed : ∀ d ∈ reports s file data, d.isCompassOnly = false :=
      fun d mem => quiet d (reports_subset_recorded fatal cancelled mem)
    have lines : loadedOf s.inCompass file data = loadedOf s file data := by rw [loadedOf, loadedOf, loaded]
    obtain ⟨same, kept⟩ := Macro.expand_inCompass native (fun ln mem => (neutral ln mem).2)
      fun d mem => allowed d (List.mem_append_left _ (List.mem_append_right _ mem))
    have expanded : expansionOf s.inCompass file data = expansionOf s file data := by
      rw [expansionOf, expansionOf, lines, same]
    have built : Program.build s.inCompass (expansionOf s file data).lines.toList =
        Program.build s (expansionOf s file data).lines.toList :=
      Program.build_inCompass native kept.lines
        fun d mem => allowed d (List.mem_append_right _ (Array.mem_toList_iff.2 mem))
    have found : reports s.inCompass file data = reports s file data := by
      change (Source.load s.inCompass _ file data {}).diagnostics.toList ++
        (expansionOf s.inCompass file data).diagnostics.toList ++
        (Program.build s.inCompass (expansionOf s.inCompass file data).lines.toList).diagnostics.toList = _
      rw [loaded, expanded, built]
      rfl
    have program : programOf s.inCompass file data = programOf s file data := by
      change (Program.build s.inCompass (expansionOf s.inCompass file data).lines.toList).program = _
      rw [expanded, built]
      rfl
    rw [expanded, built, found, program]
    cases (Program.build s (expansionOf s file data).lines.toList).fatal with
    | some fault => rfl
    | none => exact @resolve_congr s s.inCompass rfl rfl ..

/-- A source with a macro that has a local word, a block, data with a string and a `pop` of two registers. -/
def neutralSource : Text :=
  bytes "m macro p\n.l: ld a, p\n jr .l\n endm\n if $\n m 1\n endif\n pop hl, bc\n db \"ab\", 'c'\n m 2\n undefined\n"

theorem compass_conservative_neutral :
    (assembleText Settings.bare.inCompass neverCancelled (bytes "a.asm") neutralSource).any
        (fun r => r.state == .syntaxFailed && r.code.size == 9) = true ∧
      assembleText Settings.bare.inCompass neverCancelled (bytes "a.asm") neutralSource =
        assembleText .bare neverCancelled (bytes "a.asm") neutralSource :=
  ⟨by decide +kernel, compass_conservative rfl neverCancelled (by decide +kernel) (by decide +kernel)⟩

end Assembly

end Z80Asm
