import Z80Asm.Proofs.FreshNames

/-!
# Sources in two parts

Rows behind other rows are loaded, expanded and built as they would be by themselves, only in other rows of the
file and after other lines, provided that no script and no definition of a macro is open where they start.
-/

namespace Z80Asm

open List

variable {lines ls ls' rest rest' front inside : List Line} {rows : List Text} {skip depth : Nat}
  {P : Line → List Line → Prop} {dialect : Dialect}

/-! ## What stands before -/

def Loading.after (ls : Array Line) (ds : Array Diagnostic) (st : Loading) : Loading :=
  { st with lines := ls ++ st.lines, diagnostics := ds ++ st.diagnostics }

def Expansion.after (ls : Array Line) (ds : Array Diagnostic) (st : Expansion) : Expansion :=
  { st with lines := ls ++ st.lines, diagnostics := ds ++ st.diagnostics }

/-- The macros and the number of uses, without lines and diagnostics. -/
def Expansion.emptied (st : Expansion) : Expansion := { macros := st.macros, uses := st.uses }

theorem Pieces.refl (lines : List Line) : Pieces P lines lines := by
  induction lines with
  | nil => exact .nil
  | cons ln rest ih => exact .keep ⟨rfl, rfl, rfl, rfl⟩ ih

theorem Pieces.length_eq (h : Pieces (fun _ _ => False) ls ls') : ls'.length = ls.length := by
  induction h with
  | nil => rfl
  | keep _ _ ih => rw [length_cons, length_cons, ih]
  | replace never => exact never.elim

theorem Pieces.exists_moved (h : Pieces (fun _ _ => False) ls ls') : ∀ ln' ∈ ls', ∃ ln ∈ ls, ln.Moved ln' := by
  induction h with
  | nil => exact fun _ mem => nomatch mem
  | keep moved _ ih =>
    refine forall_mem_cons.2 ⟨⟨_, mem_cons_self, moved⟩, fun ln' mem => ?_⟩
    obtain ⟨ln, known, same⟩ := ih ln' mem
    exact ⟨ln, mem_cons_of_mem _ known, same⟩
  | replace never => exact never.elim

theorem Expansion.Alike.emptied (st : Expansion) : st.emptied.Alike P st.emptied := by
  refine ⟨fun name => ?_, rfl, .nil, rfl⟩
  cases st.emptied.macros[name]? with
  | none => exact .none
  | some m => exact .some ⟨rfl, rfl, .refl m.body⟩

namespace Source
variable {s : Settings} {file : Text} {insert : Pos → List Token → Loading → Loading} {ls : Array Line}
  {ds : Array Diagnostic}

theorem after_keeps : Loading.Keeps (fun st st' => st' = st.after ls ds) (· = ·) where
  next same := congrArg (· + 1) same
  fatal h := by rw [h]; rfl
  push file ln same h := by simp [h, same, Loading.after, Loading.push]
  fail file fault same h := by simp [h, same, Loading.after, Loading.fail]
  abort file fault same h := by simp [h, same, Loading.after, Loading.abort]

/-! ## Rows behind rows -/

/-- No script is open at the end of the rows; the first `skip` of them belong to one.  Rows behind an `end` do
    not count. -/
def scriptsEnd (dialect : Dialect) : Nat → List Text → Bool
  | 0, [] => true
  | _ + 1, [] => false
  | skip + 1, _ :: rest => scriptsEnd dialect skip rest
  | 0, row :: rest =>
    match rowTask dialect row with
    | .finish => true
    | task => scriptsEnd dialect (passedOver dialect rest task) rest

theorem le_of_scriptsEnd (h : scriptsEnd dialect skip rows = true) : skip ≤ rows.length := by
  induction rows generalizing skip with
  | nil =>
    cases skip with
    | zero => exact Nat.le_refl 0
    | succ skip => cases h
  | cons row rest ih =>
    cases skip with
    | zero => exact Nat.zero_le _
    | succ skip => exact Nat.succ_le_succ (ih h)

theorem scriptRows_append (ends : (scriptRows dialect rows).length < rows.length) (more : List Text) :
    scriptRows dialect (rows ++ more) = scriptRows dialect rows := by
  unfold scriptRows at ends ⊢
  induction rows with
  | nil => simp at ends
  | cons row rest ih =>
    rw [cons_append, takeWhile_cons, takeWhile_cons]
    cases last : endsScript dialect row with
    | true => rfl
    | false =>
      simp only [takeWhile_cons, last, Bool.not_false, if_true, length_cons, Nat.add_lt_add_iff_right] at ends ⊢
      rw [ih ends]

/-- **Rows behind rows** are not loaded, or are loaded after them. -/
theorem loadRows_append (ends : scriptsEnd s.dialect skip rows = true) (n : Nat)
    {st : Loading} (going : st.fatal = none) :
    (∀ more, loadRows s file insert n skip (rows ++ more) st = loadRows s file insert n skip rows st) ∨
      (loadRows s file insert n skip rows st).fatal = none ∧ ∀ more,
        loadRows s file insert n skip (rows ++ more) st =
          loadRows s file insert (n + rows.length) 0 more (loadRows s file insert n skip rows st) := by
  induction rows generalizing n skip st with
  | nil =>
    cases skip with
    | succ skip => cases ends
    | zero => exact .inr ⟨going, fun more => rfl⟩
  | cons row rest ih =>
    have count : n + (row :: rest).length = n + 1 + rest.length := by
      rw [length_cons]
      omega
    rw [count]
    cases skip with
    | succ skip => exact ih ends (n + 1) going
    | zero =>
      simp only [cons_append, loadRows_cons]
      rw [scriptsEnd] at ends
      cases task : rowTask s.dialect row with
      | line =>
        rw [task] at ends
        exact ih ends (n + 1) going
      | finish => exact .inl fun more => rfl
      | insert args =>
        rw [task] at ends
        dsimp only
        by_cases early : (insert (lineAt s.dialect file n row).pos args
            (st.push (lineAt s.dialect file n row))).fatal.isSome
        · refine .inl fun more => ?_
          simp only [early, if_true]
        · simp only [early, Bool.false_eq_true, if_false]
          exact ih ends (n + 1) (by simpa using early)
      | script =>
        rw [task] at ends
        have room : (scriptRows s.dialect rest).length < rest.length := le_of_scriptsEnd ends
        have same (more : List Text) : scriptEnds s.dialect st (lineAt s.dialect file n row).pos (rest ++ more) =
            scriptEnds s.dialect st (lineAt s.dialect file n row).pos rest := by
          rw [scriptEnds, scriptEnds, scriptRows_append room, if_pos room, if_pos]
          rw [length_append]
          omega
        simp only [same, scriptLine, scriptRows_append room]
        refine ih ends (n + 1) ?_
        rw [scriptEnds, if_pos room]
        exact going

/-- **Files that differ in rows inside.**  Both end before these, or the rows behind them are loaded in the same
    way. -/
theorem load_parts {front data data' : Text} {rows rows' rest : List Text}
    (first : Text.lines data = Text.lines front ++ (rows ++ rest))
    (second : Text.lines data' = Text.lines front ++ (rows' ++ rest))
    (ends : scriptsEnd s.dialect 0 (Text.lines front) = true)
    (inside : ∀ row ∈ rows, rowTask s.dialect row = .line) (inside' : ∀ row ∈ rows', rowTask s.dialect row = .line)
    (depth : Nat) :
    (load s depth file data {} = load s depth file front {} ∧ load s depth file data' {} = load s depth file front {}) ∨
      (load s depth file front {}).fatal = none ∧ ∃ n, ∃ c c' : Loading, c.Alike (fun _ _ => False) c' ∧
        load s depth file data {} =
          c.after ((load s depth file front {}).lines ++ (linesAt s.dialect file n rows).toArray)
            (load s depth file front {}).diagnostics ∧
        load s depth file data' {} =
          c'.after ((load s depth file front {}).lines ++ (linesAt s.dialect file n rows').toArray)
            (load s depth file front {}).diagnostics := by
  simp only [load_eq, first, second]
  rcases @loadRows_append _ 0 s file (inserter s depth) ends 1 {} rfl with early | ⟨going, goes⟩
  · exact .inl ⟨early _, early _⟩
  · have loaded {rows : List Text} (inside : ∀ row ∈ rows, rowTask s.dialect row = .line) :
        loadRows s file (inserter s depth) 1 0 (Text.lines front ++ (rows ++ rest)) {} =
          (loadRows s file (inserter s depth) (1 + (Text.lines front).length + rows.length) 0 rest {}).after
            ((loadRows s file (inserter s depth) 1 0 (Text.lines front) {}).lines ++
              (linesAt s.dialect file (1 + (Text.lines front).length) rows).toArray)
            (loadRows s file (inserter s depth) 1 0 (Text.lines front) {}).diagnostics := by
      rw [goes, loadRows_lines inside, ← loadRows_same after_keeps rfl s depth file rfl 0 rest rfl]
      congr 1
      cases loaded : loadRows s file (inserter s depth) 1 0 (Text.lines front) {}
      simp_all [Loading.after]
    exact .inr ⟨going, 1 + (Text.lines front).length, _, _,
      loadRows_same Loading.Alike.keeps trivial s depth file trivial 0 rest ⟨.nil, rfl, rfl⟩, loaded inside,
      loaded inside'⟩

end Source

namespace Macro
variable {s : Settings} {ls : Array Line} {ds : Array Diagnostic} {st : Expansion} {ln : Line}

/-! ## Lines behind lines -/

section
variable (st : Expansion) (ln : Line)

theorem after_push : (st.after ls ds).push ln = (st.push ln).after ls ds := by
  simp [Expansion.after, Expansion.push]

theorem after_pushLabel (label : Option Token) :
    pushLabel (st.after ls ds) ln label = (pushLabel st ln label).after ls ds := by
  cases label with
  | none => rfl
  | some label => exact after_push ..

theorem after_fail (pos : Pos) (fault : Fault) : (st.after ls ds).fail pos fault = (st.fail pos fault).after ls ds := by
  simp [Expansion.after, Expansion.fail]

theorem after_failAll (pos : Pos) (faults : List Fault) :
    failAll (st.after ls ds) pos faults = (failAll st pos faults).after ls ds := by
  simp [Expansion.after, failAll]

theorem use?_after : use? (st.after ls ds) ln = (use? st ln).map fun entered => (entered.1, entered.2.after ls ds) := by
  have same : task (st.after ls ds).macros ln = task st.macros ln := rfl
  rw [use?, use?, same]
  cases task st.macros ln with
  | keep | define | lonely => rfl
  | use label m args =>
    dsimp only
    split
    · rw [after_pushLabel]
      rfl
    · rfl

end

theorem settle_after (deep : Bool) (ln : Line) (rest : List Line) (st : Expansion) :
    settle s deep ln rest (st.after ls ds) =
      ((settle s deep ln rest st).1.after ls ds, (settle s deep ln rest st).2) := by
  have same : task (st.after ls ds).macros ln = task st.macros ln := rfl
  rw [settle, settle, same]
  cases task st.macros ln with
  | keep => rw [after_push]
  | lonely => rw [after_fail]
  | use label m args => simp only [after_pushLabel, after_fail]
  | define label args =>
    have known : (st.after ls ds).macros = st.macros := rfl
    dsimp only
    rw [define_eq, define_eq, after_failAll, known]
    cases recorded? label args (bodyLines 0 rest).1 with
    | none => rfl
    | some m =>
      dsimp only
      split
      · rw [after_fail]
      · rfl

theorem Runs.after {st₂ : Expansion} {us : List Use}
    (h : Runs s depth lines st us st₂) : Runs s depth lines (st.after ls ds) us (st₂.after ls ds) := by
  induction h with
  | done depth st => exact .done depth _
  | line noUse settled _ ih =>
    refine .line (noUse.imp_right fun noUse => ?_) ?_ ih
    · rw [use?_after, noUse]
      rfl
    · rw [settle_after, settled]
  | use isUse _ _ inside behind => exact .use (by rw [use?_after, isUse]; rfl) inside behind

theorem expand_after (depth : Nat) (lines : List Line) (st : Expansion) :
    expand s depth lines (st.after ls ds) = (expand s depth lines st).after ls ds :=
  (runs_expand s depth lines st).after.expand_eq

/-- No definition of a macro is open at the end of the lines; the first `skip` of them belong to one. -/
def definitionsEnd : Nat → List Line → Bool
  | 0, [] => true
  | _ + 1, [] => false
  | skip + 1, _ :: rest => definitionsEnd skip rest
  | 0, ln :: rest =>
    definitionsEnd (if ln.StartsDefinition then (bodyLines 0 rest).1.length + 1 else 0) rest

theorem le_of_definitionsEnd (h : definitionsEnd skip lines = true) : skip ≤ lines.length := by
  induction lines generalizing skip with
  | nil =>
    cases skip with
    | zero => exact Nat.le_refl 0
    | succ skip => cases h
  | cons ln rest ih =>
    cases skip with
    | zero => exact Nat.zero_le _
    | succ skip => exact Nat.succ_le_succ (ih h)

theorem bodyLines_append {nest : Nat} (ends : (bodyLines nest lines).1.length < lines.length)
    (more : List Line) : bodyLines nest (lines ++ more) = bodyLines nest lines := by
  induction lines generalizing nest with
  | nil => simp at ends
  | cons ln rest ih =>
    rw [cons_append, bodyLines_cons, bodyLines_cons]
    rw [bodyLines_cons] at ends
    split at ends
    next closes =>
      rw [if_pos closes, if_pos closes]
      cases nest with
      | zero => rfl
      | succ nest => simp only [ih (Nat.lt_of_succ_lt_succ ends)]
    next inside =>
      rw [if_neg inside, if_neg inside]
      simp only [ih (Nat.lt_of_succ_lt_succ ends)]

theorem startsDefinition_iff (macros : Std.TreeMap Text Macro) (ln : Line) :
    ln.StartsDefinition ↔ ∃ label args, task macros ln = .define label args := by
  constructor
  · rintro ⟨fault, script, body⟩
    unfold task
    rw [Token.bodyIs, Token.body] at body
    generalize Token.splitLabel ln.tokens = parts at body
    rcases parts with ⟨label, _ | ⟨head, args⟩⟩
    · simp at body
    · have defines : head.isDirective .define = true := by simpa using body
      exact ⟨label, args, by simp [fault, script, defines]⟩
  · rintro ⟨label, args, isTask⟩
    exact (startsDefinition_of_task isTask).1

/-- **Lines behind lines** are expanded after them. -/
theorem expandLines_append (expand : Option (List Line → Expansion → Expansion))
    (ends : definitionsEnd skip lines = true) (more : List Line) (st : Expansion) :
    expandLines s expand skip (lines ++ more) st =
      expandLines s expand 0 more (expandLines s expand skip lines st) := by
  induction lines generalizing skip st with
  | nil =>
    cases skip with
    | zero => rfl
    | succ skip => cases ends
  | cons ln rest ih =>
    cases skip with
    | succ skip => exact ih ends st
    | zero =>
      rw [definitionsEnd] at ends
      have starts := startsDefinition_iff st.macros ln
      rw [cons_append, expandLines_cons, expandLines_cons]
      cases isTask : task st.macros ln with
      | keep | lonely | use =>
        rw [if_neg (by simp [starts, isTask])] at ends
        exact ih ends _
      | define label args =>
        rw [if_pos (starts.2 ⟨label, args, isTask⟩)] at ends
        have body := bodyLines_append (le_of_definitionsEnd ends) more
        simp only [define_eq, body]
        exact ih ends _

theorem expand_append (ends : definitionsEnd 0 lines = true) (depth : Nat) (more : List Line)
    (st : Expansion) : expand s depth (lines ++ more) st = expand s depth more (expand s depth lines st) := by
  cases depth <;> exact expandLines_append _ ends more st

/-! ## Lines in other rows -/

/-- **The same lines in other rows** are expanded to the same lines. -/
theorem expand_moved {lines lines' : List Line} (pieces : Pieces (fun _ _ => False) lines lines') (depth : Nat)
    {st' : Expansion} (alike : st.Alike (fun _ _ => False) st') :
    (expand s depth lines st).Alike (fun _ _ => False) (expand s depth lines' st') := by
  have inert : AllInert (fun _ => True) fun _ _ => False := fun _ _ => False.elim
  have carries (u : Use) : u.Carries s.dialect fun _ _ => False := fun _ _ _ _ _ => False.elim
  obtain ⟨us', st₂', run, alike₂⟩ :=
    (runs_expand s depth lines st).pieces inert (fun u _ => carries u) (fun _ _ => trivial) pieces alike
  rw [run.expand_eq]
  exact alike₂

section
variable (before : expand s depth front {} = st)
  (ends : definitionsEnd 0 front = true) (kept : ∀ ln ∈ inside, task st.macros ln = .keep)
include before ends kept

/-- **Lines that differ inside**, where they are nothing to expansion: what comes before and behind is expanded in
    the same way. -/
theorem expand_parts {inside' : List Line} (kept' : ∀ ln ∈ inside', task st.macros ln = .keep)
    (pieces : Pieces (fun _ _ => False) rest rest') : ∃ c c' : Expansion, c.Alike (fun _ _ => False) c' ∧
      expand s depth (front ++ (inside ++ rest)) {} = c.after (st.lines ++ inside.toArray) st.diagnostics ∧
      expand s depth (front ++ (inside' ++ rest')) {} = c'.after (st.lines ++ inside'.toArray) st.diagnostics := by
  -- what comes behind is expanded with the macros of what comes before, but by itself
  have goes {inside : List Line} (kept : ∀ ln ∈ inside, task st.macros ln = .keep) (rest : List Line) :
      expand s depth (front ++ (inside ++ rest)) {} =
        (expand s depth rest st.emptied).after (st.lines ++ inside.toArray) st.diagnostics := by
    have passed : expand s depth (inside ++ rest) st =
        expand s depth rest { st with lines := st.lines ++ inside.toArray } := by
      cases depth <;> exact expandLines_keep s _ kept rest
    rw [expand_append ends, before, passed, ← expand_after]
    simp [Expansion.after, Expansion.emptied]
  exact ⟨_, _, expand_moved (s := s) pieces depth (.emptied st), goes kept rest, goes kept' rest'⟩

/-- **Further lines inside**, which are nothing to expansion: what comes before and behind them is expanded as
    without them. -/
theorem expand_inside (pieces : Pieces (fun _ _ => False) rest rest') :
    ∃ c c' : Expansion, c.Alike (fun _ _ => False) c' ∧
      expand s depth (front ++ rest) {} = c.after st.lines st.diagnostics ∧
      expand s depth (front ++ (inside ++ rest')) {} = c'.after (st.lines ++ inside.toArray) st.diagnostics := by
  have none : ∀ ln ∈ ([] : List Line), task st.macros ln = .keep := by simp
  simpa using expand_parts before ends none kept pieces

end

end Macro

namespace Program

variable {s : Settings} {skips : Prop} {ls ls' : List Line}

/-- **The same lines in other rows** build the same program, if they find the same binary files. -/
theorem BuiltAlike.of_reading {read : Text → Except Fault Text} (pieces : Pieces (fun _ _ => False) ls ls')
    (binaries : ∀ ln ∈ ls, ∀ name ∈ ln.binary?, (s.reading read).find name ln.pos.file = s.find name ln.pos.file) :
    BuiltAlike skips s (s.reading read) ls ls' := by
  induction pieces with
  | nil => exact .nil
  | @keep ln ln' moved rest rest' _ ih =>
    rw [forall_mem_cons] at binaries
    have first : BuiltAlike skips s (s.reading read) [ln] [ln'] := .moved moved binaries.1
    exact first.append (ih binaries.2)
  | replace h => exact h.elim

theorem BuiltAlike.of_moved (pieces : Pieces (fun _ _ => False) ls ls') : BuiltAlike skips s s ls ls' :=
  @BuiltAlike.of_reading s skips ls ls' s.read pieces fun _ _ _ _ => rfl

end Program

end Z80Asm
