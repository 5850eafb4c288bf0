import Z80Asm.Proofs.LocalNames
import Z80Asm.Proofs.Readers
import Z80Asm.Proofs.SameTokens

/-!
# Names that a program mentions

A statement mentions the names that it defines or looks up.  They are words of its line, or have a dot in them
because they belong to a label, or a byte that stands in no word because they were made for the use of a macro.
-/

namespace Z80Asm

open List

variable {file name source : Text} {condition : Bool} {action : Action}

/-! ## Scripts -/

namespace Script

/-- The names that a script binds outside of functions. -/
def bound (source : Text) : List Text :=
  match read source with
  | .ok body => Resolve.boundByAll body
  | .error _ => []

def mentions (source : Text) : List Text := names source ++ bound source

/-- **A script sees only the symbols that it names.** -/
theorem run_of_names {symbols symbols' : List (Text × Int)}
    (same : symbols'.filter ((names source).contains ·.1) = symbols.filter ((names source).contains ·.1)) (file : Text)
    (pc : Int) : run file source symbols' pc = run file source symbols pc := by
  simp only [run, evaluate, same]

theorem mem_of_mem_distinct {names : List Text} (mem : name ∈ Resolve.distinct names) : name ∈ names := by
  have seen (names before : List Text) (mem : name ∈ names.foldl
      (fun seen name => if seen.contains name then seen else seen ++ [name]) before) :
      name ∈ before ∨ name ∈ names := by
    induction names generalizing before with
    | nil => exact .inl mem
    | cons first rest ih =>
      rcases ih _ mem with mem | mem
      · dsimp only at mem
        split at mem
        · exact .inl mem
        · rw [mem_append, mem_singleton] at mem
          rcases mem with mem | rfl
          · exact .inl mem
          · exact .inr mem_cons_self
      · exact .inr (mem_cons_of_mem _ mem)
  exact (seen names [] mem).resolve_left (by simp)

theorem mem_of_mem_constants {names : List Text} {values : List (Option Value)} {c : Text × Int}
    (mem : c ∈ constants names values) : c.1 ∈ names := by
  simp only [constants, mem_mergeSort, List.mem_filterMap] at mem
  obtain ⟨⟨name, v⟩, entry, found⟩ := mem
  split at found
  · split at found
    · cases found
    · cases found
      exact (of_mem_zip entry).1
  · cases found

theorem globals_bound {known everywhere : List Text} {body : List Stmt} {r : Resolved}
    (ok : resolve file known everywhere body = .ok r) : ∀ name ∈ r.globals, name ∈ Resolve.boundByAll body := by
  intro name mem
  simp only [resolve] at ok
  split at ok
  split at ok
  · cases ok
  · cases ok
  · cases ok
    exact mem_of_mem_distinct (List.mem_filter.1 mem).1

theorem constants_bound {symbols : List (Text × Int)} {pc : Int} {o : Outcome}
    (ok : run file source symbols pc = .ok o) : ∀ c ∈ o.constants, c.1 ∈ bound source := by
  intro c mem
  simp only [run, evaluate, bound] at ok ⊢
  cases body : read source with
  | error problem => simp [body, Except.mapError, bind, Except.bind] at ok
  | ok body' =>
    simp only [body, Except.mapError, bind, Except.bind] at ok ⊢
    generalize resolved : resolve file _ everywhereNames body' = r at ok
    cases r with
    | error problem => cases ok
    | ok r =>
      dsimp only at ok
      generalize StateT.run _ _ = result at ok
      cases result with
      | error failure => cases ok
      | ok result =>
        cases ok
        exact globals_bound resolved _ (mem_of_mem_constants mem)

end Script

/-! ## Statements -/

def Arg.mentions (arg : Arg) : List Text := arg.expr?.elim [] Expr.names

def Item.mentions : Item → List Text
  | .bytes _ => []
  | .value e => e.names

def Action.mentions : Action → List Text
  | .label | .bad _ | .message _ => []
  | .instruction _ args => args.flatMap Arg.mentions
  | .data _ items => items.flatMap Item.mentions
  | .space e fill | .align e fill => e.names ++ fill.elim [] Expr.names
  | .org e | .assert e => e.names
  | .equate name e _ => name :: e.names
  | .incbin _ _ offset length => offset.elim [] Expr.names ++ length.elim [] Expr.names
  | .script source => Script.mentions source

def Test.mentions : Test → List Text
  | .nonzero e => e.names
  | .defined name _ => [name]

/-- The names that a statement mentions, without those of the statements inside of it. -/
def Heading.mentions : Heading → List Text
  | .act node action => node.label.toList ++ action.mentions
  | .choose node test => node.label.toList ++ test.mentions
  | .repeated node count => node.label.toList ++ count.names

/-! ## Expressions -/

def Token.Lack (name : Text) (toks : List Token) : Prop := ∀ tok ∈ toks, tok.word? ≠ some name

theorem Token.Lack.mono {toks part : List Token} (h : Lack name toks) (subset : part ⊆ toks) : Lack name part :=
  fun tok mem => h tok (subset mem)

namespace Parse

open Token (Lack)

/-- Tokens without the name are read to expressions without it. -/
def omitting (dialect : Dialect) (name : Text) : Readings dialect dialect where
  token tok := tok.word? ≠ some name
  expr e := name ∉ e.names
  string _ _ := rfl
  word different lexeme mem := different (by rw [Token.word?, lexeme, List.mem_singleton.1 mem])
  num _ := List.not_mem_nil
  pc := List.not_mem_nil
  unary _ _ omitted := omitted
  binary _ _ _ left right := List.not_mem_append left right

/-- What was read, and what had been read where the reading failed, does not have the name. -/
def Omits (name : Text) : Except Failure (Expr × List Token) → Prop
  | .ok (e, rest) => name ∉ e.names ∧ Lack name rest
  | .error failure => ∀ e ∈ failure.read, name ∉ e.names

theorem chains_omits (dialect : Dialect) (depth : Nat) {toks : List Token} (lack : Lack name toks) :
    Omits name (chains (operand dialect depth) toks) := by
  have holds := (Readings.chains (k := omitting dialect name) (Readings.operand depth) toks lack).2
  generalize chains _ toks = read at holds
  cases read with
  | ok found => exact holds
  | error failure => exact holds.2

end Parse

namespace Program
variable {s : Settings} {owner name : Text} {toks : List Token}

theorem mentions_of_wordArg? {arg : Arg} (found : wordArg? condition toks = some arg) : arg.mentions = [] := by
  unfold wordArg? at found
  split at found
  · split at found
    · cases found
    · split at found
      · cases found
        rfl
      · obtain ⟨reg, -, rfl⟩ := Option.map_eq_some_iff.1 found
        rfl
  · cases found

theorem forall_of_mapM {α β ε : Type} {f : α → Except ε β} {xs : List α} {ys : List β} {P : β → Prop}
    (ok : xs.mapM f = .ok ys) (each : ∀ x ∈ xs, ∀ y, f x = .ok y → P y) : ∀ y ∈ ys, P y := by
  have pairs := mapM_eq_ok.1 ok
  clear ok
  induction pairs with
  | nil => exact forall_mem_nil _
  | cons first _ ih =>
    rw [forall_mem_cons] at each ⊢
    exact ⟨each.1 _ first, ih each.2⟩

variable (plain : '.'.toUInt8 ∉ name)
include plain

open Token (Lack)

theorem qualify_ne {word : Text} (other : word ≠ name) : qualify owner word ≠ name := by
  unfold qualify
  split
  next isLocal =>
    rintro rfl
    exact plain (mem_append_right _ (mem_of_head? (by simpa using isLocal)))
  next => exact other

theorem lack_qualified (lack : Lack name toks) : Lack name (toks.map (qualifyToken owner)) := by
  intro tok mem
  obtain ⟨tok, known, rfl⟩ := List.mem_map.1 mem
  have other := lack tok known
  unfold qualifyToken
  split
  next word lexeme =>
    have different : word ≠ name := by simpa [Token.word?, lexeme] using other
    simpa [Token.word?] using @qualify_ne owner _ plain _ different
  next => exact other

section
variable (lack : Lack name toks)
include lack

/-- **An expression has only names that are among its tokens**, with the owner in front of local ones. -/
theorem expr_omits : match expr s owner toks with
    | .ok e => name ∉ e.names
    | .error failure => ∀ e ∈ failure.read, name ∉ e.names := by
  have reads := Parse.chains_omits s.dialect (toks.map (qualifyToken owner)).length
    (@lack_qualified owner _ _ plain lack)
  unfold expr Expr.parse
  by_cases empty : (toks.map (qualifyToken owner)).isEmpty
  · rw [if_pos empty]
    exact nofun
  · rw [if_neg empty]
    generalize Parse.chains _ _ = read at reads ⊢
    rcases read with failure | ⟨e, _ | ⟨tok, rest⟩⟩
    · exact reads
    · exact reads.1
    · exact nofun

theorem wholeExpr_omits {e : Expr} (ok : wholeExpr s owner toks = .ok e) : name ∉ e.names := by
  have reads := @expr_omits s owner name toks plain lack
  unfold wholeExpr at ok
  cases read : expr s owner toks with
  | error failure =>
    rw [read] at ok
    cases ok
  | ok e' =>
    rw [read] at ok reads
    cases ok
    exact reads

theorem made_omits {α : Type} {make : Expr → α} {x : α} (ok : (wholeExpr s owner toks).map make = .ok x) :
    ∃ e, x = make e ∧ name ∉ e.names := by
  cases read : wholeExpr s owner toks with
  | error fault =>
    rw [read] at ok
    cases ok
  | ok e =>
    rw [read] at ok
    cases ok
    exact ⟨e, rfl, wholeExpr_omits plain lack read⟩

theorem bracketed_omits {all : List Token} {arg : Arg} (ok : bracketed s owner all toks = .ok arg) :
    name ∉ arg.mentions := by
  have memory (ok : (wholeExpr s owner toks).map .mem = .ok arg) : name ∉ arg.mentions := by
    obtain ⟨e, rfl, omitted⟩ := made_omits plain lack ok
    exact omitted
  unfold bracketed at ok
  cases toks with
  | nil => exact memory ok
  | cons first rest =>
    dsimp only at ok
    split at ok
    · exact memory ok
    · split at ok
      · cases ok
        split <;> simp [Arg.mentions, Arg.expr?, Expr.names]
      · split at ok
        · obtain ⟨e, rfl, omitted⟩ := made_omits plain (lack.mono (subset_cons_self _ _)) ok
          exact omitted
        · cases ok

theorem arg_omits {a : Arg} (ok : arg s owner condition toks = .ok a) : name ∉ a.mentions := by
  unfold arg at ok
  split at ok
  · cases ok
  · split at ok
    next found =>
      cases ok
      simp [mentions_of_wordArg? found]
    next =>
      split at ok
      next inner enclosed =>
        obtain ⟨first, last, -, -, rfl, -⟩ := Token.enclosed?_eq_some_iff.1 enclosed
        exact bracketed_omits plain (lack.mono (by simp)) ok
      next =>
        obtain ⟨e, rfl, omitted⟩ := made_omits plain lack ok
        exact omitted

theorem args_omit {m : Cpu.Mnemonic} {as : List Arg} (ok : args s owner m toks = .ok as) :
    ∀ a ∈ as, name ∉ a.mentions := by
  have part {part : List Token} (mem : part ∈ Token.splitArgs toks) : Lack name part :=
    lack.mono (Token.mem_splitArgs mem)
  unfold args at ok
  cases parts : Token.splitArgs toks with
  | nil =>
    rw [parts] at ok
    cases ok
    simp
  | cons first rest =>
    rw [parts] at ok part
    dsimp only at ok
    cases read : arg s owner (conditionFirst m (rest.length + 1)) first with
    | error fault =>
      rw [read] at ok
      cases ok
    | ok a =>
      rw [read] at ok
      cases others : rest.mapM (arg s owner false) with
      | error fault =>
        simp [others, bind, Except.bind] at ok
      | ok as' =>
        obtain rfl : a :: as' = as := by simpa [others, bind, Except.bind, pure, Except.pure] using ok
        refine forall_mem_cons.2 ⟨arg_omits plain (part mem_cons_self) read, ?_⟩
        exact forall_of_mapM others fun part' mem a ok =>
          arg_omits plain (part (mem_cons_of_mem _ mem)) ok

theorem exprs_omit {least most : Nat} {es : List Expr} (ok : exprs s owner toks least most = .ok es) :
    ∀ e ∈ es, name ∉ e.names := by
  simp only [exprs] at ok
  split at ok
  · cases ok
  · split at ok
    · cases ok
    · exact forall_of_mapM ok fun part mem e ok =>
        wholeExpr_omits plain (lack.mono (Token.mem_splitArgs mem)) ok

theorem item_omits {width : Width} {i : Item} (ok : item s owner width toks = .ok i) : name ∉ i.mentions := by
  have value (ok : (wholeExpr s owner toks).map .value = .ok i) : name ∉ i.mentions := by
    obtain ⟨e, rfl, omitted⟩ := made_omits plain lack ok
    exact omitted
  unfold item at ok
  split at ok
  · split at ok
    · split at ok <;> cases ok
      simp [Item.mentions]
    · cases ok
      simp [Item.mentions]
    · exact value ok
  · exact value ok

end

end Program

/-! ## Lines -/

def Edit.Omit (name : Text) (es : List Edit) : Prop := ∀ e ∈ es, ∀ h ∈ e.added?, name ∉ h.mentions

theorem Edit.Omit.act {node : Node} (label : name ∉ node.label.toList) (here : name ∉ action.mentions) :
    Omit name [.act node action] := by
  simp only [Omit, mem_singleton, forall_eq]
  rintro h ⟨⟩
  exact not_mem_append label here

namespace Program
variable {name owner : Text} {node : Node} {toks : List Token}

open Token (Lack)
open Edit (Omit)

theorem badEdit_omits (label : name ∉ node.label.toList) (fault : Fault) : Omit name [badEdit node fault] :=
  .act label (by simp [Action.mentions])

section
variable {s : Settings} (plain : '.'.toUInt8 ∉ name) (lack : Lack name toks)
include plain lack

theorem readFrom_omits (read : action.ReadFrom s owner toks) : name ∉ action.mentions := by
  cases read with
  | label | bad | message => simp [Action.mentions]
  | instruction read among =>
    simp only [Action.mentions, mem_flatMap, not_exists, not_and]
    exact fun a mem => args_omit plain lack read a (among mem)
  | data read =>
    simp only [Action.mentions, mem_flatMap, not_exists, not_and]
    exact forall_of_mapM read fun part mem i ok => item_omits plain (lack.mono (Token.mem_splitArgs mem)) ok
  | one known read =>
    have omitted := exprs_omit plain lack read _ mem_cons_self
    rcases known with rfl | rfl <;> exact omitted
  | @two e rest make known read =>
    have omitted := exprs_omit plain lack read
    have both : name ∉ e.names ++ rest.head?.elim [] Expr.names := by
      refine not_mem_append (omitted e mem_cons_self) ?_
      cases rest with
      | nil => simp
      | cons fill => exact omitted fill (by simp)
    rcases known with rfl | rfl <;> exact both
  | @incbin parts file data read =>
    have omitted : ∀ e ∈ parts, name ∉ e.names := by
      rcases read with rfl | read
      · exact forall_mem_nil _
      · exact exprs_omit plain (lack.mono (Subset.trans (tail_subset _) (Token.fileName_subset toks))) read
    have part (i : Nat) : name ∉ parts[i]?.elim [] Expr.names := by
      cases found : parts[i]? with
      | none => simp
      | some e => exact omitted e (mem_of_getElem? found)
    exact not_mem_append (part 0) (part 1)

theorem headOf_omits : name ∉ (headOf s owner toks).names := by
  have reads := @expr_omits s owner name toks plain lack
  unfold headOf
  cases read : expr s owner toks with
  | ok e => simpa only [read] using reads
  | error failure =>
    rw [read] at reads
    cases known : failure.read with
    | none => simp [known, Expr.names]
    | some e => simpa [known] using reads e known

theorem definedOf_ne (some : name ≠ []) : definedOf owner toks ≠ name := by
  unfold definedOf
  cases found : Token.singleWord? toks with
  | none => exact some.symm
  | some word =>
    obtain ⟨tok, rfl, isWord⟩ := Token.singleWord?_eq_some found
    exact qualify_ne plain fun same => lack tok mem_cons_self (same ▸ isWord)

end

theorem bodyEdits_omit (s : Settings) (plain : '.'.toUInt8 ∉ name) (label : name ∉ node.label.toList)
    (lack : Lack name toks) (some : name ≠ []) : Omit name (bodyEdits s owner node toks) := by
  have behind : Lack name toks.tail := lack.mono (tail_subset _)
  intro e mem h adds
  cases forall₂_same.1 (@bodyEdits_wrote s owner node node rfl rfl toks).each e mem with
  | act read =>
    cases adds
    exact not_mem_append label (readFrom_omits plain behind read)
  | further read =>
    cases adds
    exact readFrom_omits plain behind read
  | equate assigned isLabel read =>
    cases adds
    rw [isLabel] at label
    exact not_mem_cons_of_ne_of_not_mem (by simpa using label) (wholeExpr_omits plain behind read)
  | choose | repeated =>
    cases adds
    exact headOf_omits plain behind
  | defined =>
    cases adds
    simpa [Heading.mentions, Test.mentions, eq_comm] using definedOf_ne plain behind some
  | divide | close | fail | abort => cases adds

theorem labelName_ne (plain : '.'.toUInt8 ∉ name) {word : Text} (other : word ≠ name) :
    (labelName owner word).1 ≠ name := by
  unfold labelName
  split
  · exact other
  · split
    · exact qualify_ne plain other
    · split
      · exact other
      · split <;> exact other

end Program

structure Line.Omits (name : Text) (ln : Line) : Prop where
  words : Token.Lack name ln.tokens
  script : ∀ source ∈ ln.script, name ∉ Script.mentions source

instance (name : Text) (ln : Line) : Decidable (ln.Omits name) :=
  decidable_of_iff ((∀ tok ∈ ln.tokens, tok.word? ≠ some name) ∧ ∀ source ∈ ln.script, name ∉ Script.mentions source)
    ⟨fun h => ⟨h.1, h.2⟩, fun h => ⟨h.words, h.script⟩⟩

namespace Program
variable {name : Text} {ln : Line} (plain : '.'.toUInt8 ∉ name) (some : name ≠ [])
include plain some

/-- **What a line does not mention, its statements do not mention.** -/
theorem edits_omit (h : ln.Omits name) (s : Settings) (owner : Text) (seq : Nat) :
    Edit.Omit name (edits s owner seq ln) := by
  have label : name ∉ (lineNode owner seq ln).label.toList := by
    rw [lineNode]
    cases isLabel : (Token.splitLabel ln.tokens).1 with
    | none => simp
    | some label =>
      obtain ⟨known, isWord⟩ := (Token.splitLabel_subset rfl).1 label isLabel
      have other : label.text ≠ name := fun same => h.words label known (same ▸ isWord)
      simpa [eq_comm] using @labelName_ne _ owner plain _ other
  have becomes := edits_becomes s owner seq ln
  generalize edits s owner seq ln = es at becomes
  cases becomes with
  | lexical | foreign => exact badEdit_omits (by simp) _
  | label => exact badEdit_omits label _
  | script _ isScript => exact .act label (h.script _ isScript)
  | body => exact bodyEdits_omit s plain label (h.words.mono (Token.splitLabel_subset rfl).2) some

end Program

namespace Assembly
variable {name : Text} (plain : '.'.toUInt8 ∉ name) (unmarked : Macro.mark ∉ name) (some : name ≠ [])
include plain unmarked some

/-- **What no row of a source mentions, the program does not mention.** -/
theorem programOf_omits {s : Settings} {data : Text} (rows : ∀ ln ∈ loadedOf s file data, ln.Omits name) :
    ∀ h ∈ Statement.flattenAll (programOf s file data), name ∉ h.mentions := by
  have words : ∀ ln ∈ (expansionOf s file data).lines.toList, ln.Words (· ≠ name) := by
    refine expansionOf_words_of_rows (fun ln mem tok isToken word isWord => ?_) fun owner use word => ?_
    · rintro rfl
      exact (rows ln mem).words tok isToken isWord
    · rintro rfl
      exact unmarked (Macro.mark_mem_localName owner use word)
  have scripts : ∀ ln ∈ (expansionOf s file data).lines.toList, ∀ source ∈ ln.script,
      name ∉ Script.mentions source := by
    refine expansionOf_lines _ (fun ln mem => (rows ln mem).script) (fun ln label _ _ => nofun) ?_
    exact fun _ _ _ _ ln _ _ inBody => inBody
  intro h mem
  obtain ⟨ln, isLine, owner, seq, -, e, isEdit, adds⟩ :=
    Program.exists_edit_of_build (fun _ => True) trivial (fun _ _ _ _ => trivial) mem
  have omitted : ln.Omits name := ⟨fun tok isToken isWord => words ln isLine tok isToken name isWord rfl,
    scripts ln isLine⟩
  exact Program.edits_omit plain some omitted s owner seq e isEdit h adds

end Assembly

end Z80Asm
