import Mathlib.Tactic.Common
import Z80Asm.Program

/-!
# Lines as edits

A line does a few things to the program built so far: it adds statements, opens, divides or closes a
block, or reports something.  What it does is a list of edits that depends on the line, its number and
the owner of local names, and not on the statements and blocks before it.
-/

namespace Z80Asm

open Building

inductive Edit where
  | act (node : Node) (action : Action)
  | choose (node : Node) (test : Test)
  | repeated (node : Node) (count : Expr)
  | divide (pos : Pos)
  | close (pos : Pos) (repeated : Bool)
  | fail (pos : Pos) (fault : Fault)
  | abort (pos : Pos) (fault : Fault)

namespace Building

def divide (st : Building) (pos : Pos) : Building :=
  match st.blocks with
  | .choose head test yes none :: rest =>
    { st with blocks := .choose head test yes (some []) :: rest }
  | .choose _ _ _ (some _) :: _ => st.fail pos (.plain .elseDuplicate)
  | _ => st.fail pos (.plain .elseLonely)

def edit (st : Building) : Edit → Building
  | .act node action => st.act node action
  | .choose node test => st.enter (.choose node test [] none)
  | .repeated node count => st.enter (.repeated node count [])
  | .divide pos => st.divide pos
  | .close pos false => st.leave pos false .endifLonely
  | .close pos true => st.leave pos true .endrLonely
  | .fail pos fault => st.fail pos fault
  | .abort pos fault => st.abort pos fault

def editAll (st : Building) (es : List Edit) : Building := es.foldl edit st

@[simp] theorem editAll_nil (st : Building) : st.editAll [] = st := rfl

@[simp] theorem editAll_cons (st : Building) (e : Edit) (es : List Edit) :
    st.editAll (e :: es) = (st.edit e).editAll es := rfl

theorem editAll_append (st : Building) (es fs : List Edit) :
    st.editAll (es ++ fs) = (st.editAll es).editAll fs := List.foldl_append

/-- The same program with another line number and another owner of local names. -/
def atLine (st : Building) (seq : Nat) (owner : Text) : Building := { st with seq, owner }

/-- Edits neither read nor change the line number and the owner of local names. -/
theorem edit_atLine (st : Building) (seq : Nat) (owner : Text) (e : Edit) :
    (st.atLine seq owner).edit e = (st.edit e).atLine seq owner := by
  have add (s : Statement) : (st.atLine seq owner).add s = (st.add s).atLine seq owner := by
    unfold add atLine; dsimp only; split <;> rfl
  have leave (pos : Pos) (repeated : Bool) (lonely : Cause) :
      (st.atLine seq owner).leave pos repeated lonely = (st.leave pos repeated lonely).atLine seq owner := by
    cases h : st.blocks with
    | nil => simp [Building.leave, atLine, h, fail]
    | cons block rest =>
      by_cases kind : block.isRepeated == repeated
      · cases rest <;> simp [Building.leave, Building.add, atLine, h, kind]
      · simp [Building.leave, atLine, h, kind, fail]
  cases e with
  | act node action => exact add _
  | choose | repeated | fail | abort => rfl
  | divide pos =>
    unfold edit Building.divide atLine
    dsimp only
    split <;> rfl
  | close pos repeated => cases repeated <;> exact leave _ _ _

theorem editAll_atLine (st : Building) (seq : Nat) (owner : Text) (es : List Edit) :
    (st.atLine seq owner).editAll es = (st.editAll es).atLine seq owner := by
  induction es generalizing st with
  | nil => rfl
  | cons e es ih => rw [editAll_cons, edit_atLine, ih, editAll_cons]

end Building

namespace Program

/-! ## The edits of a line -/

def labelEdits (node : Node) : List Edit := if node.label.isSome then [.act node .label] else []

def badEdit (node : Node) (fault : Fault) : Edit := .act node (.bad fault)

/-- The instructions of a line.  Only the first of several has the label. -/
def instructionEdits (s : Settings) (owner : Text) (node : Node) (m : Cpu.Mnemonic)
    (toks : List Token) : List Edit :=
  match args s owner m toks with
  | .error fault => [badEdit node fault]
  | .ok args =>
    if (m = .push || m = .pop) && args.length > 1 then
      match if m = .pop && s.popsReversed then args.reverse else args with
      | [] => []
      | first :: rest =>
        .act node (.instruction m [first]) ::
          rest.map fun arg => .act { node with label := none } (.instruction m [arg])
    else [.act node (.instruction m args)]

def withOneEdits (s : Settings) (owner : Text) (node : Node) (toks : List Token)
    (make : Expr → Action) : List Edit :=
  match exprs s owner toks 1 1 with
  | .error fault => [badEdit node fault]
  | .ok (e :: _) => [.act node (make e)]
  | .ok [] => []

def withTwoEdits (s : Settings) (owner : Text) (node : Node) (toks : List Token)
    (make : Expr → Option Expr → Action) : List Edit :=
  match exprs s owner toks 1 2 with
  | .error fault => [badEdit node fault]
  | .ok (e :: rest) => [.act node (make e rest.head?)]
  | .ok [] => []

/-- The statement of `equ` or of an assignment, for which a label is required. -/
def equateEdits (s : Settings) (owner : Text) (node : Node) (word : Text) (assigned : Bool)
    (toks : List Token) : List Edit :=
  match node.label with
  | none => [badEdit node (.about .labelRequired word)]
  | some name =>
    match wholeExpr s owner toks with
    | .error fault => [badEdit node fault]
    | .ok value => [.act { node with label := none } (.equate name value assigned)]

def dataEdits (s : Settings) (owner : Text) (node : Node) (width : Width) (toks : List Token) :
    List Edit :=
  let groups := Token.splitArgs toks
  if groups.isEmpty then [badEdit node (.plain .operandsMissing)]
  else match groups.mapM (item s owner width) with
    | .error fault => [badEdit node fault]
    | .ok items => [.act node (.data width items)]

/-- The statement of a part of a binary file.  A file that is not found ends the building. -/
def incbinEdits (s : Settings) (owner : Text) (node : Node) (toks : List Token) : List Edit :=
  let (name, rest) := Token.fileName toks
  let parts : Except Fault (List Expr) := match rest with
    | [] => .ok []
    | comma :: more =>
      if comma.isSign .comma then exprs s owner more 1 2
      else .error (.about .operandsExtra (Token.renderAll rest))
  if name.isEmpty then [badEdit node (.plain .operandsMissing)]
  else match parts with
    | .error fault => [badEdit node fault]
    | .ok parts =>
      match s.find name node.pos.file with
      | .error fault => [.abort node.pos fault]
      | .ok (_, data) => [.act node (.incbin name data parts[0]? parts[1]?)]

def compassOnlyEdits (s : Settings) (node : Node) (d : Directive) : List Edit :=
  if s.dialect = .native then [.fail node.pos (.about .compassOnly d.name)] else []

/-- The expression that heads a block, and the report if it cannot be read. -/
def headEdits (s : Settings) (owner : Text) (node : Node) (toks : List Token)
    (enter : Expr → Edit) : List Edit :=
  match expr s owner toks with
  | .ok e => [enter e]
  | .error failure => [.fail node.pos failure.fault, enter (failure.read.getD (.num 0))]

def enterIfEdits (s : Settings) (owner : Text) (node : Node) (toks : List Token) : List Edit :=
  labelEdits node ++ headEdits s owner node toks fun e =>
    .choose { node with label := none } (.nonzero e)

def enterDefinedEdits (owner : Text) (node : Node) (negated : Bool) (toks : List Token) :
    List Edit :=
  labelEdits node ++ match Token.singleWord? toks with
    | some word => [.choose { node with label := none } (.defined (qualify owner word) negated)]
    | none =>
      [.fail node.pos (.about .labelInvalid (Token.renderAll toks)),
        .choose { node with label := none } (.defined [] negated)]

def enterReptEdits (s : Settings) (owner : Text) (node : Node) (toks : List Token) : List Edit :=
  labelEdits node ++ headEdits s owner node toks fun e => .repeated { node with label := none } e

def directiveEdits (s : Settings) (owner : Text) (node : Node) (d : Directive)
    (toks : List Token) : List Edit :=
  match d with
  | .data width => dataEdits s owner node width toks
  | .equ => equateEdits s owner node (bytes "equ") false toks
  | .defl => equateEdits s owner node (bytes "defl") true toks
  | .org => withOneEdits s owner node toks .org
  | .space => withTwoEdits s owner node toks .space
  | .align => withTwoEdits s owner node toks .align
  | .incbin => incbinEdits s owner node toks
  | .insert | .finish => labelEdits node
  | .assert => withOneEdits s owner node toks .assert
  | .message => [.act node (.message (messageText toks))]
  | .ifTrue => enterIfEdits s owner node toks
  | .cond => compassOnlyEdits s node d ++ enterIfEdits s owner node toks
  | .ifdef => enterDefinedEdits owner node false toks
  | .ifndef => enterDefinedEdits owner node true toks
  | .otherwise => labelEdits node ++ [.divide node.pos]
  | .endif => labelEdits node ++ [.close node.pos false]
  | .endc => compassOnlyEdits s node d ++ (labelEdits node ++ [.close node.pos false])
  | .rept => enterReptEdits s owner node toks
  | .endr => labelEdits node ++ [.close node.pos true]
  | .endscript => [.fail node.pos (.plain .scriptLonely)]
  | .define | .endm | .script => [badEdit node (.about .macroSyntax d.name)]

def bodyEdits (s : Settings) (owner : Text) (node : Node) (toks : List Token) : List Edit :=
  match toks with
  | [] => labelEdits node
  | head :: rest =>
    match head.lexeme with
    | .sign .eq => equateEdits s owner node (bytes "=") true rest
    | .word _ (.directive d) => directiveEdits s owner node d rest
    | .word _ (.mnemonic m) => instructionEdits s owner node m rest
    | _ => [badEdit node (.instruction head.render)]

def labelledEdits (s : Settings) (owner : Text) (line : Line) (node : Node) (toks : List Token) :
    List Edit :=
  match line.script with
  | some source => [.act node (.script source)]
  | none =>
    match if s.dialect = .native then Token.compassWord? line.tokens else none with
    | some word => [badEdit { node with label := none } (.about .compassOnly word)]
    | none => bodyEdits s owner node toks

/-- The edits of a line of a number, where local names belong to `owner`. -/
def edits (s : Settings) (owner : Text) (seq : Nat) (line : Line) : List Edit :=
  let node : Node := { seq, pos := line.pos, text := line.text }
  match line.fault with
  | some fault => [badEdit node fault]
  | none =>
    match Token.splitLabel line.tokens with
    | (none, toks) => labelledEdits s owner line node toks
    | (some label, toks) =>
      let (name, owner, fault) := labelName owner label.text
      let node := { node with label := some name }
      match fault with
      | some fault => [badEdit node fault]
      | none => labelledEdits s owner line node toks

def ownerAfter (owner : Text) (line : Line) : Text :=
  match line.fault with
  | some _ => owner
  | none =>
    match Token.splitLabel line.tokens with
    | (none, _) => owner
    | (some label, _) => (labelName owner label.text).2.1

/-- The number, place, text and label of the statements of a line. -/
def lineNode (owner : Text) (seq : Nat) (ln : Line) : Node :=
  { seq, pos := ln.pos, text := ln.text
    label := (Token.splitLabel ln.tokens).1.map fun label => (labelName owner label.text).1 }

/-- Nothing is lexically wrong with a line, and its label is valid. -/
structure Labelled (owner : Text) (ln : Line) : Prop where
  fault : ln.fault = none
  label : ∀ label ∈ (Token.splitLabel ln.tokens).1, (labelName owner label.text).2.2 = none

/-- What a line becomes: a report of what is wrong with it, its script, or the edits of its body. -/
inductive Becomes (s : Settings) (owner : Text) (seq : Nat) (ln : Line) : List Edit → Prop
  | lexical {fault : Fault} (wrong : ln.fault = some fault) :
      Becomes s owner seq ln [badEdit { lineNode owner seq ln with label := none } fault]
  | label {label : Token} {fault : Fault} (lexical : ln.fault = none) (isLabel : (Token.splitLabel ln.tokens).1 = some label)
      (wrong : (labelName owner label.text).2.2 = some fault) :
      Becomes s owner seq ln [badEdit (lineNode owner seq ln) fault]
  | script {source : Text} (labelled : Labelled owner ln) (isScript : ln.script = some source) :
      Becomes s owner seq ln [.act (lineNode owner seq ln) (.script source)]
  | foreign {word : Text} (labelled : Labelled owner ln) (noScript : ln.script = none) (native : s.dialect = .native)
      (isWord : Token.compassWord? ln.tokens = some word) :
      Becomes s owner seq ln [badEdit { lineNode owner seq ln with label := none } (.about .compassOnly word)]
  | body (labelled : Labelled owner ln) (noScript : ln.script = none)
      (noWord : s.dialect = .native → Token.compassWord? ln.tokens = none) :
      Becomes s owner seq ln
        (bodyEdits s (ownerAfter owner ln) (lineNode owner seq ln) (Token.body ln.tokens))

theorem edits_of_labelled (s : Settings) {owner : Text} (seq : Nat) {ln : Line} (h : Labelled owner ln) :
    edits s owner seq ln = labelledEdits s (ownerAfter owner ln) ln (lineNode owner seq ln) (Token.body ln.tokens) := by
  have valid := h.label
  rcases split : Token.splitLabel ln.tokens with ⟨_ | label, toks⟩
  · simp [edits, ownerAfter, lineNode, h.fault, split, Token.body]
  · rw [split] at valid
    simp [edits, ownerAfter, lineNode, h.fault, split, valid label rfl, Token.body]

theorem Becomes.edits_eq {s : Settings} {owner : Text} {seq : Nat} {ln : Line} {es : List Edit}
    (h : Becomes s owner seq ln es) : edits s owner seq ln = es := by
  cases h with
  | lexical wrong => simp [edits, lineNode, wrong]
  | @label label fault lexical isLabel wrong =>
    rcases split : Token.splitLabel ln.tokens with ⟨first, toks⟩
    obtain rfl : first = some label := by rw [← isLabel, split]
    simp [edits, lineNode, lexical, split, wrong]
  | script labelled isScript => simp [edits_of_labelled s seq labelled, labelledEdits, isScript]
  | foreign labelled noScript native isWord =>
    simp [edits_of_labelled s seq labelled, labelledEdits, noScript, native, isWord]
  | body labelled noScript noWord =>
    have other : (if s.dialect = .native then Token.compassWord? ln.tokens else none) = none := by
      simpa using noWord
    simp [edits_of_labelled s seq labelled, labelledEdits, noScript, other]

theorem edits_becomes (s : Settings) (owner : Text) (seq : Nat) (ln : Line) :
    Becomes s owner seq ln (edits s owner seq ln) := by
  obtain ⟨es, h⟩ : ∃ es, Becomes s owner seq ln es := by
    cases lexical : ln.fault with
    | some fault => exact ⟨_, .lexical lexical⟩
    | none =>
      by_cases valid : ∀ label ∈ (Token.splitLabel ln.tokens).1, (labelName owner label.text).2.2 = none
      · cases isScript : ln.script with
        | some source => exact ⟨_, .script ⟨lexical, valid⟩ isScript⟩
        | none =>
          by_cases native : s.dialect = .native
          · cases isWord : Token.compassWord? ln.tokens with
            | some word => exact ⟨_, .foreign ⟨lexical, valid⟩ isScript native isWord⟩
            | none => exact ⟨_, .body ⟨lexical, valid⟩ isScript fun _ => isWord⟩
          · exact ⟨_, .body ⟨lexical, valid⟩ isScript fun h => absurd h native⟩
      · push Not at valid
        obtain ⟨label, isLabel, wrong⟩ := valid
        obtain ⟨fault, isFault⟩ := Option.ne_none_iff_exists'.1 wrong
        exact ⟨_, .label lexical isLabel isFault⟩
  rwa [h.edits_eq]

def allEdits (s : Settings) : Text → Nat → List Line → List Edit
  | _, _, [] => []
  | owner, seq, ln :: rest =>
    edits s owner (seq + 1) ln ++ allEdits s (ownerAfter owner ln) (seq + 1) rest

/-! ## Adding lines -/

variable {s : Settings} {st : Building}

section
variable (line : Line) (node : Node) (toks : List Token) (st : Building)

theorem labelFirst_eq (node : Node) : st.labelFirst node = st.editAll (labelEdits node) := by
  unfold labelFirst labelEdits; split <;> rfl

theorem labelFirst_owner (node : Node) : (st.labelFirst node).owner = st.owner := by
  unfold labelFirst act add
  split
  · split <;> rfl
  · rfl

theorem compassOnly_eq (s : Settings) (node : Node) (d : Directive) (st : Building) :
    compassOnly s node d st = st.editAll (compassOnlyEdits s node d) := by
  unfold compassOnly compassOnlyEdits; split <;> rfl

theorem compassOnly_owner (s : Settings) (node : Node) (d : Directive) (st : Building) :
    (compassOnly s node d st).owner = st.owner := by
  unfold compassOnly; split <;> rfl

theorem instruction_eq (s : Settings) (node : Node) (m : Cpu.Mnemonic) (toks : List Token) (st : Building) :
    instruction s node m toks st = st.editAll (instructionEdits s st.owner node m toks) := by
  have rest_eq (args : List Arg) (st : Building) :
      args.foldl (fun st arg => st.act { node with label := none } (.instruction m [arg])) st =
        st.editAll (args.map fun arg => .act { node with label := none } (.instruction m [arg])) := by
    rw [editAll, List.foldl_map]
    rfl
  unfold instruction instructionEdits
  cases args s st.owner m toks with
  | error fault => rfl
  | ok args =>
    dsimp only
    split
    · generalize (if m = .pop && s.popsReversed then args.reverse else args) = args
      cases args with
      | nil => rfl
      | cons first rest => exact rest_eq rest _
    · rfl

theorem withOne_eq (make : Expr → Action) (st : Building) :
    withOne s node toks make st = st.editAll (withOneEdits s st.owner node toks make) := by
  unfold withOne withOneEdits
  rcases exprs s st.owner toks 1 1 with _ | _ | _ <;> rfl

theorem withTwo_eq (make : Expr → Option Expr → Action) (st : Building) :
    withTwo s node toks make st = st.editAll (withTwoEdits s st.owner node toks make) := by
  unfold withTwo withTwoEdits
  rcases exprs s st.owner toks 1 2 with _ | _ | _ <;> rfl

theorem equate_eq (word : Text) (assigned : Bool) (toks : List Token) (st : Building) :
    equate s node word assigned toks st = st.editAll (equateEdits s st.owner node word assigned toks) := by
  unfold equate equateEdits
  cases node.label with
  | none => rfl
  | some name => cases wholeExpr s st.owner toks <;> rfl

theorem data_eq (width : Width) (toks : List Token) (st : Building) :
    data s node width toks st = st.editAll (dataEdits s st.owner node width toks) := by
  unfold data dataEdits
  dsimp only
  split
  · rfl
  · cases (Token.splitArgs toks).mapM (item s st.owner width) <;> rfl

theorem incbin_eq : incbin s node toks st = st.editAll (incbinEdits s st.owner node toks) := by
  unfold incbin incbinEdits
  rcases Token.fileName toks with ⟨name, rest⟩
  have found (parts : List Expr) :
      (match s.find name node.pos.file with
        | .error fault => st.abort node.pos fault
        | .ok (_, data) => st.act node (.incbin name data parts[0]? parts[1]?)) =
      st.editAll (match s.find name node.pos.file with
        | .error fault => [.abort node.pos fault]
        | .ok (_, data) => [.act node (.incbin name data parts[0]? parts[1]?)]) := by
    cases s.find name node.pos.file <;> rfl
  dsimp only
  split
  · rfl
  cases rest with
  | nil => exact found []
  | cons comma more =>
    by_cases sign : comma.isSign .comma = true
    · simp only [sign, if_true]
      cases exprs s st.owner more 1 2 with
      | error fault => rfl
      | ok parts => exact found parts
    · simp only [sign]
      rfl

theorem headExpr_eq (make : Expr → Block)
    (enter : Expr → Edit) (same : ∀ (st : Building) e, st.edit (enter e) = st.enter (make e)) :
    (headExpr s node toks st).2.enter (make (headExpr s node toks st).1) =
      st.editAll (headEdits s st.owner node toks enter) := by
  unfold headExpr headEdits
  cases expr s st.owner toks with
  | ok e => exact (same st e).symm
  | error failure => exact (same _ _).symm

theorem enterIf_eq : enterIf s node toks st = st.editAll (enterIfEdits s st.owner node toks) := by
  rw [enterIfEdits, editAll_append, ← labelFirst_eq, ← labelFirst_owner st node]
  exact headExpr_eq node toks _ (fun e => .choose { node with label := none } (.nonzero e) [] none)
    (fun e => .choose { node with label := none } (.nonzero e)) fun _ _ => rfl

theorem enterRept_eq : enterRept s node toks st = st.editAll (enterReptEdits s st.owner node toks) := by
  rw [enterReptEdits, editAll_append, ← labelFirst_eq, ← labelFirst_owner st node]
  exact headExpr_eq node toks _ (fun e => .repeated { node with label := none } e [])
    (fun e => .repeated { node with label := none } e) fun _ _ => rfl

theorem enterDefined_eq (negated : Bool) (toks : List Token) (st : Building) :
    enterDefined node negated toks st = st.editAll (enterDefinedEdits st.owner node negated toks) := by
  rw [enterDefinedEdits, editAll_append, ← labelFirst_eq, ← labelFirst_owner st node, enterDefined]
  cases Token.singleWord? toks <;> rfl

theorem enterElse_eq : enterElse node st = st.editAll (labelEdits node ++ [.divide node.pos]) := by
  rw [editAll_append, ← labelFirst_eq]
  rfl

theorem leave_eq (repeated : Bool) (st : Building) :
    (st.labelFirst node).leave node.pos repeated (if repeated then .endrLonely else .endifLonely) =
      st.editAll (labelEdits node ++ [.close node.pos repeated]) := by
  rw [editAll_append, ← labelFirst_eq]
  cases repeated <;> rfl

theorem directive_eq (d : Directive) (toks : List Token) (st : Building) :
    directive s node d toks st = st.editAll (directiveEdits s st.owner node d toks) := by
  cases d with
  | data width => exact data_eq node width toks st
  | equ | defl => exact equate_eq node _ _ toks st
  | org | assert => exact withOne_eq node toks _ st
  | space | align => exact withTwo_eq node toks _ st
  | incbin => exact incbin_eq node toks st
  | insert | finish => exact labelFirst_eq st node
  | message | endscript | define | endm | script => rfl
  | ifTrue => exact enterIf_eq node toks st
  | cond =>
    rw [directive, directiveEdits, editAll_append, ← compassOnly_eq, enterIf_eq, compassOnly_owner]
  | ifdef | ifndef => exact enterDefined_eq node _ toks st
  | otherwise => exact enterElse_eq node st
  | endif => exact leave_eq node false st
  | endc =>
    rw [directive, directiveEdits, editAll_append, ← compassOnly_eq]
    exact leave_eq node false _
  | rept => exact enterRept_eq node toks st
  | endr => exact leave_eq node true st

theorem body_eq : body s node toks st = st.editAll (bodyEdits s st.owner node toks) := by
  cases toks with
  | nil => exact labelFirst_eq st node
  | cons head rest =>
    unfold body bodyEdits
    dsimp only
    rcases head.lexeme with ⟨_, _ | m | d⟩ | _ | _ | sign
    case word.mnemonic => exact instruction_eq s node m rest st
    case word.directive => exact directive_eq node d rest st
    case sign => cases sign <;> first | exact equate_eq node _ _ rest st | rfl
    all_goals rfl

theorem labelled_eq : labelled s line node toks st = st.editAll (labelledEdits s st.owner line node toks) := by
  unfold labelled labelledEdits
  cases line.script with
  | some source => rfl
  | none =>
    dsimp only
    cases if s.dialect = .native then Token.compassWord? line.tokens else none with
    | some word => rfl
    | none => exact body_eq node toks st

end

/-- **To add a line is to make its edits.** -/
theorem line_eq (s : Settings) (st : Building) (ln : Line) :
    line s st ln = (st.editAll (edits s st.owner (st.seq + 1) ln)).atLine (st.seq + 1) (ownerAfter st.owner ln) := by
  rw [← editAll_atLine]
  unfold line edits ownerAfter
  cases ln.fault with
  | some fault => rfl
  | none =>
    rcases Token.splitLabel ln.tokens with ⟨_ | label, toks⟩
    · exact labelled_eq ln _ toks _
    · dsimp only
      rcases labelName st.owner label.text with ⟨name, owner, _ | fault⟩
      · exact labelled_eq ln _ toks _
      · rfl

def ownerAfterAll (owner : Text) (ls : List Line) : Text := ls.foldl ownerAfter owner

/-- **To add lines is to make their edits**, unless one of them ends the building. -/
theorem lines_eq (ls : List Line) (st : Building) (whole : (lines s ls st).fatal = none) :
    lines s ls st = (st.editAll (allEdits s st.owner st.seq ls)).atLine (st.seq + ls.length)
      (ownerAfterAll st.owner ls) := by
  induction ls generalizing st with
  | nil => rfl
  | cons ln rest ih =>
    rw [lines] at whole ⊢
    split at whole
    next early => simp [whole] at early
    next going =>
      rw [if_neg going, ih _ whole, line_eq, editAll_atLine, allEdits, editAll_append]
      simp only [atLine, ownerAfterAll, List.foldl_cons, List.length_cons]
      congr 1
      omega

end Program

end Z80Asm
