import Z80Asm.Proofs.Reports

/-!
# Loading in two ways

A row of a file is only a line, or it includes a file, ends its file or starts a script (`RowTask`).  Two ways of
loading that find related files and treat their rows alike lead from related states to related states.
-/

namespace Z80Asm

variable {n n' : Nat} {rows : List Text}

namespace Source

def lineAt (dialect : Dialect) (file : Text) (n : Nat) (row : Text) : Line :=
  { pos := { file, line := n }, text := row, tokens := (lex dialect row).tokens
    fault := (lex dialect row).fault }

def linesAt (dialect : Dialect) (file : Text) : Nat → List Text → List Line
  | _, [] => []
  | n, row :: rows => lineAt dialect file n row :: linesAt dialect file (n + 1) rows

theorem exists_of_mem_linesAt {dialect : Dialect} {file : Text} {ln : Line} (mem : ln ∈ linesAt dialect file n rows) :
    ∃ row ∈ rows, ∃ n', ln = lineAt dialect file n' row := by
  induction rows generalizing n with
  | nil => cases mem
  | cons row rows ih =>
    rcases List.mem_cons.1 mem with rfl | mem
    · exact ⟨row, List.mem_cons_self, n, rfl⟩
    · obtain ⟨row', known, n', e⟩ := ih mem
      exact ⟨row', List.mem_cons_of_mem _ known, n', e⟩

inductive RowTask where
  | line
  | insert (args : List Token)
  | finish
  | script

def rowTask (dialect : Dialect) (row : Text) : RowTask :=
  let lexed := lex dialect row
  if lexed.fault.isSome then .line
  else if Token.bodyIs .insert lexed.tokens then .insert ((Token.body lexed.tokens).drop 1)
  else if Token.bodyIs .finish lexed.tokens then .finish
  else if Token.bodyIs .script lexed.tokens then .script
  else .line

def scriptRows (dialect : Dialect) (rest : List Text) : List Text := rest.takeWhile (!endsScript dialect ·)

def passedOver (dialect : Dialect) (rest : List Text) : RowTask → Nat
  | .script => (scriptRows dialect rest).length + 1
  | _ => 0

variable {s s' : Settings} {file : Text} {insert insert' : Pos → List Token → Loading → Loading} {st st' : Loading}

def scriptLine (dialect : Dialect) (file : Text) (n : Nat) (row : Text) (rest : List Text) : Line :=
  { lineAt dialect file n row with script := Text.join (bytes "\n") (scriptRows dialect rest) ++ bytes "\n" }

def scriptEnds (dialect : Dialect) (st : Loading) (pos : Pos) (rest : List Text) : Loading :=
  if (scriptRows dialect rest).length < rest.length then st else st.fail pos (.plain .scriptLonely)

theorem loadRows_cons (n : Nat) (row : Text) (rest : List Text) (st : Loading) :
    loadRows s file insert n 0 (row :: rest) st =
      (let line := lineAt s.dialect file n row
       match rowTask s.dialect row with
       | .line => loadRows s file insert (n + 1) 0 rest (st.push line)
       | .insert args =>
         let st := insert line.pos args (st.push line)
         if st.fatal.isSome then st else loadRows s file insert (n + 1) 0 rest st
       | .finish => st.push line
       | .script =>
         loadRows s file insert (n + 1) ((scriptRows s.dialect rest).length + 1) rest
           ((scriptEnds s.dialect st line.pos rest).push (scriptLine s.dialect file n row rest))) := by
  rw [loadRows, rowTask]
  dsimp only
  by_cases fault : (lex s.dialect row).fault.isSome
  · simp only [fault, if_true]
    rfl
  simp only [fault, Bool.false_eq_true, if_false]
  by_cases inserts : Token.bodyIs .insert (lex s.dialect row).tokens
  · simp only [inserts, if_true]
    rfl
  simp only [inserts, Bool.false_eq_true, if_false]
  by_cases finishes : Token.bodyIs .finish (lex s.dialect row).tokens
  · simp only [finishes, if_true]
    rfl
  simp only [finishes, Bool.false_eq_true, if_false]
  by_cases scripts : Token.bodyIs .script (lex s.dialect row).tokens
  · simp only [scripts, if_true]
    rfl
  · simp only [scripts, Bool.false_eq_true, if_false]
    rfl

theorem loadRows_grows (steps : ∀ pos args st, Loading.Steps (fun _ => True) st (insert pos args st)) (n skip : Nat)
    (rows : List Text) (st : Loading) : st.lines.toList <+: (loadRows s file insert n skip rows st).lines.toList :=
  (loadRows_steps steps n skip rows st (by simp)).isPrefix

theorem loadRows_lines (plain : ∀ row ∈ rows, rowTask s.dialect row = .line) (rest : List Text) (st : Loading) :
    loadRows s file insert n 0 (rows ++ rest) st =
      loadRows s file insert (n + rows.length) 0 rest
        { st with lines := st.lines ++ (linesAt s.dialect file n rows).toArray } := by
  induction rows generalizing n st with
  | nil => simp [linesAt]
  | cons row rows ih =>
    rw [List.forall_mem_cons] at plain
    rw [List.cons_append, loadRows_cons, plain.1]
    dsimp only
    rw [ih plain.2, linesAt, List.length_cons, Nat.add_right_comm, Nat.add_assoc n]
    simp [Loading.push]

theorem exists_mem_loadRows (steps : ∀ pos args st, Loading.Steps (fun _ => True) st (insert pos args st))
    (n : Nat) (row : Text) (rest : List Text) (st : Loading) :
    ∃ ln ∈ (loadRows s file insert n 0 (row :: rest) st).lines.toList,
      ln.pos = (lineAt s.dialect file n row).pos ∧ ln.tokens = (lineAt s.dialect file n row).tokens ∧
      ln.fault = (lineAt s.dialect file n row).fault := by
  have pushed (st : Loading) (ln : Line) {more : List Line} (grown : (st.push ln).lines.toList <+: more) :
      ln ∈ more := grown.subset (by simp [Loading.push])
  rw [loadRows_cons]
  dsimp only
  cases rowTask s.dialect row with
  | line => exact ⟨_, pushed _ _ (loadRows_grows steps ..), rfl, rfl, rfl⟩
  | insert args =>
    dsimp only
    split
    · exact ⟨_, pushed _ _ (steps _ _ _).isPrefix, rfl, rfl, rfl⟩
    · exact ⟨_, pushed _ _ ((steps _ _ _).isPrefix.trans (loadRows_grows steps ..)), rfl, rfl, rfl⟩
  | finish => exact ⟨_, pushed _ _ List.prefix_rfl, rfl, rfl, rfl⟩
  | script => exact ⟨_, pushed _ _ (loadRows_grows steps ..), rfl, rfl, rfl⟩

def inserter (s : Settings) : Nat → Pos → List Token → Loading → Loading
  | 0 => insertFile s none
  | depth + 1 => insertFile s (some (load s depth))

theorem load_eq (s : Settings) (depth : Nat) (file data : Text) (st : Loading) :
    load s depth file data st = loadRows s file (inserter s depth) 1 0 (Text.lines data) st := by
  cases depth <;> rfl

theorem inserter_steps (s : Settings) (depth : Nat) (pos : Pos) (args : List Token) (st : Loading) :
    Loading.Steps (fun _ => True) st (inserter s depth pos args st) := by
  cases depth with
  | zero =>
    rw [inserter]
    exact insertFile_steps (by simp) pos args st
  | succ depth =>
    rw [inserter]
    refine insertFile_steps ?_ pos args st
    rintro _ ⟨⟩
    exact load_steps (fun _ _ => trivial) depth

end Source

/-! ## Related states -/

/-- What loading does keeps a relation of states, for rows whose numbers are related. -/
structure Loading.Keeps (rel : Loading → Loading → Prop) (row : Int → Int → Prop) : Prop where
  next : ∀ {n n'}, row n n' → row (n + 1) (n' + 1)
  fatal : ∀ {st st'}, rel st st' → st'.fatal = st.fatal
  push : ∀ {st st' n n'} (file : Text) (ln : Line), row n n' → rel st st' →
    rel (st.push { ln with pos := { file, line := n } }) (st'.push { ln with pos := { file, line := n' } })
  fail : ∀ {st st' n n'} (file : Text) (fault : Fault), row n n' → rel st st' →
    rel (st.fail { file, line := n } fault) (st'.fail { file, line := n' } fault)
  abort : ∀ {st st' n n'} (file : Text) (fault : Fault), row n n' → rel st st' →
    rel (st.abort { file, line := n } fault) (st'.abort { file, line := n' } fault)

namespace Source
variable {s s' : Settings} {file : Text} {insert insert' : Pos → List Token → Loading → Loading} {st st' : Loading}
  {rel : Loading → Loading → Prop} {good : Loading → Prop} {row : Int → Int → Prop} {fits : Text → Text → Text → Prop}

/-- Directives of inclusion keep the relation, if the first one leads to a good state. -/
def Inserts (rel : Loading → Loading → Prop) (good : Loading → Prop) (row : Int → Int → Prop)
    (insert insert' : Pos → List Token → Loading → Loading) : Prop :=
  ∀ (file : Text) ⦃n n' : Int⦄ (args : List Token) ⦃st st' : Loading⦄, row n n' → rel st st' →
    good (insert { file, line := n } args st) →
      rel (insert { file, line := n } args st) (insert' { file, line := n' } args st')

/-- Files whose contents fit keep the relation, if the first one leads to a good state. -/
def Loads (rel : Loading → Loading → Prop) (good : Loading → Prop) (fits : Text → Text → Text → Prop)
    (load load' : Text → Text → Loading → Loading) : Prop :=
  ∀ ⦃file data data' : Text⦄ ⦃st st' : Loading⦄, fits file data data' → rel st st' → good (load file data st) →
    rel (load file data st) (load' file data' st')

/-- **A row that is split alike keeps the relation**, if the rows behind it do. -/
theorem loadRows_cons_related (k : Loading.Keeps rel row) (inserts : Inserts rel good row insert insert') {first : Text}
    {rest rest' : List Text} (lexed : lex s'.dialect first = lex s.dialect first)
    (script : rowTask s.dialect first = .script → scriptRows s'.dialect rest' = scriptRows s.dialect rest ∧
      ((scriptRows s.dialect rest).length < rest'.length ↔ (scriptRows s.dialect rest).length < rest.length))
    (here : row n n')
    (before : ∀ {skip : Nat} {st : Loading}, good (loadRows s file insert (n + 1) skip rest st) → good st)
    (behind : rowTask s.dialect first ≠ .finish → ∀ {st st' : Loading}, rel st st' →
      good (loadRows s file insert (n + 1) (passedOver s.dialect rest (rowTask s.dialect first)) rest st) →
      rel (loadRows s file insert (n + 1) (passedOver s.dialect rest (rowTask s.dialect first)) rest st)
        (loadRows s' file insert' (n' + 1) (passedOver s.dialect rest (rowTask s.dialect first)) rest' st'))
    (h : rel st st') (fine : good (loadRows s file insert n 0 (first :: rest) st)) :
    rel (loadRows s file insert n 0 (first :: rest) st) (loadRows s' file insert' n' 0 (first :: rest') st') := by
  have pushed : rel (st.push (lineAt s.dialect file n first)) (st'.push (lineAt s.dialect file n' first)) :=
    k.push file (lineAt s.dialect file n first) here h
  have same : lineAt s'.dialect file n' first = lineAt s.dialect file n' first := by rw [lineAt, lineAt, lexed]
  have task : rowTask s'.dialect first = rowTask s.dialect first := by rw [rowTask, rowTask, lexed]
  rw [loadRows_cons] at fine
  rw [loadRows_cons, loadRows_cons, task, same]
  cases isTask : rowTask s.dialect first with
  | line =>
    simp only [isTask, passedOver] at behind fine
    exact behind (by simp) pushed fine
  | finish => exact pushed
  | insert args =>
    simp only [isTask, passedOver] at behind fine
    have within : good (insert (lineAt s.dialect file n first).pos args (st.push (lineAt s.dialect file n first))) := by
      split at fine
      · exact fine
      · exact before fine
    have next : rel (insert (lineAt s.dialect file n first).pos args (st.push (lineAt s.dialect file n first)))
        (insert' (lineAt s.dialect file n' first).pos args (st'.push (lineAt s.dialect file n' first))) :=
      inserts file args here pushed within
    dsimp only
    rw [k.fatal next]
    split
    · exact next
    next going =>
      rw [if_neg going] at fine
      exact behind (by simp) next fine
  | script =>
    obtain ⟨rows, size⟩ := script isTask
    simp only [isTask, passedOver] at behind fine
    have ended : rel (scriptEnds s.dialect st (lineAt s.dialect file n first).pos rest)
        (scriptEnds s'.dialect st' (lineAt s.dialect file n' first).pos rest') := by
      unfold scriptEnds
      rw [rows]
      simp only [size]
      split
      · exact h
      · exact k.fail file _ here h
    have text : scriptLine s'.dialect file n' first rest' = scriptLine s.dialect file n' first rest := by
      rw [scriptLine, scriptLine, same, rows]
    dsimp only
    rw [rows, text]
    exact behind (by simp) (k.push file (scriptLine s.dialect file n first rest) here ended) fine

/-- **The same rows keep the relation.** -/
theorem loadRows_related (k : Loading.Keeps rel row) (inserts : Inserts rel good row insert insert')
    (dialect : s'.dialect = s.dialect)
    (before : ∀ {n skip : Nat} {rows : List Text} {st : Loading}, good (loadRows s file insert n skip rows st) → good st)
    (here : row n n') (skip : Nat) (rows : List Text) (h : rel st st')
    (fine : good (loadRows s file insert n skip rows st)) :
    rel (loadRows s file insert n skip rows st) (loadRows s' file insert' n' skip rows st') := by
  induction rows generalizing n n' skip st st' with
  | nil => simpa [loadRows] using h
  | cons first rest ih =>
    cases skip with
    | succ skip => exact ih (k.next here) _ h fine
    | zero =>
      exact loadRows_cons_related k inserts (by rw [dialect]) (fun _ => ⟨by rw [dialect], Iff.rfl⟩) here before
        (fun _ _ _ => ih (k.next here) _) h fine

/-! ## Related files -/

/-- **Files are found under the same paths**, if the same files can be read, for the same reasons. -/
theorem find_related (paths : s'.candidates = s.candidates)
    (files : ∀ path, (∃ fault, s.read path = .error fault ∧ s'.read path = .error fault) ∨
      ∃ data data', s.read path = .ok data ∧ s'.read path = .ok data' ∧ fits path data data') (name source : Text) :
    (∃ fault, s.find name source = .error fault ∧ s'.find name source = .error fault) ∨
      ∃ path data data', s.find name source = .ok (path, data) ∧ s'.find name source = .ok (path, data') ∧
        fits path data data' := by
  have first (paths : List Text) (reason : Option Fault) :
      (∃ fault, s.readFirst reason paths = .error fault ∧ s'.readFirst reason paths = .error fault) ∨
      ∃ path data data', s.readFirst reason paths = .ok (path, data) ∧ s'.readFirst reason paths = .ok (path, data') ∧
        fits path data data' := by
    induction paths generalizing reason with
    | nil => exact .inl ⟨reason, rfl, rfl⟩
    | cons path paths ih =>
      rw [Settings.readFirst, Settings.readFirst]
      rcases files path with ⟨fault, failed, failed'⟩ | ⟨data, data', found, found', related⟩
      · rw [failed, failed']
        exact ih _
      · rw [found, found']
        exact .inr ⟨path, data, data', rfl, rfl, related⟩
  rw [Settings.find, Settings.find, paths]
  rcases first (s.candidates name source) none with ⟨fault, found, found'⟩ | ⟨path, data, data', found, found', related⟩
  · rw [found, found']
    exact .inl ⟨_, rfl, rfl⟩
  · rw [found, found']
    exact .inr ⟨path, data, data', rfl, rfl, related⟩

theorem find_same (same : s'.find = s.find) (name source : Text) :
    (∃ fault, s.find name source = .error fault ∧ s'.find name source = .error fault) ∨
      ∃ path data data', s.find name source = .ok (path, data) ∧ s'.find name source = .ok (path, data') ∧
        data' = data := by
  rw [same]
  cases s.find name source with
  | error fault => exact .inl ⟨fault, rfl, rfl⟩
  | ok found => exact .inr ⟨found.1, found.2, found.2, rfl, rfl, rfl⟩

section
variable (k : Loading.Keeps rel row)
  (finds : ∀ name source, (∃ fault, s.find name source = .error fault ∧ s'.find name source = .error fault) ∨
    ∃ path data data', s.find name source = .ok (path, data) ∧ s'.find name source = .ok (path, data') ∧
      fits path data data')
include k finds

theorem insertFile_related {load load' : Option (Text → Text → Loading → Loading)}
    (loads : Option.Rel (Loads rel good fits) load load') :
    Inserts rel good row (insertFile s load) (insertFile s' load') := by
  intro file n n' args st st' here h fine
  unfold insertFile at fine ⊢
  dsimp only at fine ⊢
  split
  · exact k.fail file _ here h
  next named =>
    rw [if_neg named] at fine
    split
    · exact k.fail file _ here h
    next alone =>
      rw [if_neg alone] at fine
      cases loads with
      | none => exact k.fail file _ here h
      | some loads =>
        dsimp only at fine ⊢
        rcases finds (Token.fileName args).1 file with
          ⟨fault, found, found'⟩ | ⟨path, data, data', found, found', related⟩
        · rw [found, found']
          exact k.abort file fault here h
        · rw [found] at fine ⊢
          rw [found']
          exact loads related h fine

/-- **A source file and the files that it includes keep the relation**, if the rows of one file do. -/
theorem load_related (rows : ∀ depth, Inserts rel good row (inserter s depth) (inserter s' depth) →
      Loads rel good fits (load s depth) (load s' depth)) (depth : Nat) :
    Inserts rel good row (inserter s depth) (inserter s' depth) ∧ Loads rel good fits (load s depth) (load s' depth) := by
  induction depth with
  | zero =>
    have inserts : Inserts rel good row (inserter s 0) (inserter s' 0) := insertFile_related k finds .none
    exact ⟨inserts, rows 0 inserts⟩
  | succ depth ih =>
    have inserts : Inserts rel good row (inserter s (depth + 1)) (inserter s' (depth + 1)) :=
      insertFile_related k finds (.some ih.2)
    exact ⟨inserts, rows _ inserts⟩

end

/-- **The same rows and files keep the relation**, in other rows and from other states. -/
theorem loadRows_same (k : Loading.Keeps rel row) (start : row 1 1) (s : Settings) (depth : Nat) (file : Text)
    (here : row n n') (skip : Nat) (rows : List Text) (h : rel st st') :
    rel (loadRows s file (inserter s depth) n skip rows st) (loadRows s file (inserter s depth) n' skip rows st') := by
  have inserts : Inserts rel (fun _ => True) row (inserter s depth) (inserter s depth) := by
    refine (load_related k (find_same rfl) (fun depth inserts => ?_) depth).1
    intro file data data' st st' same h _
    rw [load_eq, load_eq, same]
    exact loadRows_related k inserts rfl (fun _ => trivial) start 0 _ h trivial
  exact loadRows_related k inserts rfl (fun _ => trivial) here skip rows h trivial

end Source

end Z80Asm
