import Z80Asm.Expr.Parse
import Z80Asm.Source
import Z80Asm.Statement

/-!
# From lines to a program

Each line gets a number and becomes at most a few statements.  Statements are added to the innermost
open block; a block is added to the one around it when it is closed, and blocks that are still open at
the end of the source are closed with a report.

A line that is wrong becomes a statement that reports it, so that only lines that are reached count;
what is wrong with the blocks themselves is reported at once.
-/

namespace Z80Asm

/-- A block that is still open, with its statements so far, last statement first. -/
inductive Block where
  | choose (node : Node) (test : Test) (yes : List Statement) (no : Option (List Statement))
  | repeated (node : Node) (count : Expr) (body : List Statement)

namespace Block

def add (s : Statement) : Block → Block
  | choose node test yes none => choose node test (s :: yes) none
  | choose node test yes (some no) => choose node test yes (some (s :: no))
  | repeated node count body => repeated node count (s :: body)

def close : Block → Statement
  | choose node test yes no => .choose node test yes.reverse (no.getD []).reverse
  | repeated node count body => .repeated node count body.reverse

def isRepeated : Block → Bool
  | repeated _ _ _ => true
  | choose _ _ _ _ => false

def pos : Block → Pos
  | choose node _ _ _ | repeated node _ _ => node.pos

def lonely : Block → Fault
  | choose _ _ _ _ => .plain .ifLonely
  | repeated _ _ _ => .plain .reptLonely

end Block

structure Building where
  seq : Nat := 0
  /-- The last global label, which local labels belong to. -/
  owner : Text := []
  /-- The open blocks, innermost first. -/
  blocks : List Block := []
  root : List Statement := []
  diagnostics : Array Diagnostic := #[]
  fatal : Option Fault := none

namespace Building

def add (st : Building) (s : Statement) : Building :=
  match st.blocks with
  | [] => { st with root := s :: st.root }
  | block :: rest => { st with blocks := block.add s :: rest }

def fail (st : Building) (pos : Pos) (fault : Fault) : Building :=
  { st with diagnostics := st.diagnostics.push (.of .error pos 1 fault) }

def abort (st : Building) (pos : Pos) (fault : Fault) : Building :=
  { st with diagnostics := st.diagnostics.push (.of .fatal pos 1 fault), fatal := some fault }

def act (st : Building) (node : Node) (action : Action) : Building := st.add (.act node action)

def bad (st : Building) (node : Node) (fault : Fault) : Building := st.act node (.bad fault)

def enter (st : Building) (block : Block) : Building := { st with blocks := block :: st.blocks }

/-- Closes the innermost block, if it is one of the kind. -/
def leave (st : Building) (pos : Pos) (repeated : Bool) (lonely : Cause) : Building :=
  match st.blocks with
  | block :: rest =>
    if block.isRepeated == repeated then { st with blocks := rest }.add block.close
    else st.fail pos (.plain lonely)
  | [] => st.fail pos (.plain lonely)

/-- The line that starts or ends a block defines its label by a statement of its own, before it. -/
def labelFirst (st : Building) (node : Node) : Building :=
  if node.label.isSome then st.act node .label else st

end Building

namespace Program

/-! ## Names -/

def qualify (owner name : Text) : Text :=
  if name.head? == some '.'.toUInt8 then owner ++ name else name

def qualifyToken (owner : Text) (tok : Token) : Token :=
  match tok.lexeme with
  | .word name .name => { tok with lexeme := .word (qualify owner name) .name }
  | _ => tok

/-- Reads an expression in which local names belong to `owner`. -/
def expr (s : Settings) (owner : Text) (toks : List Token) : Except Failure Expr :=
  Expr.parse s.dialect (toks.map (qualifyToken owner))

/-- Reads an expression of which nothing is kept if it fails. -/
def wholeExpr (s : Settings) (owner : Text) (toks : List Token) : Except Fault Expr :=
  (expr s owner toks).mapError (·.fault)

/-- The symbol that a label defines, the owner of local labels after it, and what is wrong with it.  A
    label that is a register or a lone dot is wrong, but defined all the same. -/
def labelName (owner name : Text) : Text × Text × Option Fault :=
  if name == bytes "." then (name, owner, some (.about .labelInvalid name))
  else if name.head? == some '.'.toUInt8 then (qualify owner name, owner, none)
  else if name.contains '>'.toUInt8 then (name, owner, none)
  else if (Cpu.Reg.ofWord? name).isSome then (name, owner, some (.about .labelInvalid name))
  else (name, name, none)

/-! ## Operands -/

/-- The operand inside brackets; `all` are the tokens with their brackets. -/
def bracketed (s : Settings) (owner : Text) (all inner : List Token) : Except Fault Arg :=
  let memory := (wholeExpr s owner inner).map .mem
  match inner with
  | [] => memory
  | first :: rest =>
    match first.word?.bind Cpu.Reg.ofWord? with
    | none => memory
    | some rr =>
      match rest with
      | [] => .ok (if rr.isIndex then .idx rr (.num 0) else .ind rr)
      | sign :: _ =>
        if rr.isIndex && (sign.isSign .plus || sign.isSign .minus) then
          (wholeExpr s owner rest).map (.idx rr)
        else .error (.about .expression (Token.renderAll all))

def wordArg? (condition : Bool) : List Token → Option Arg
  | [tok] =>
    match tok.word? with
    | none => none
    | some word =>
      match if condition then Cpu.Cond.ofWord? word else none with
      | some cc => some (.cond cc)
      | none => (Cpu.Reg.ofWord? word).map .reg
  | _ => none

def arg (s : Settings) (owner : Text) (condition : Bool) (toks : List Token) : Except Fault Arg :=
  if toks.isEmpty then .error (.plain .operandsMissing)
  else match wordArg? condition toks with
    | some arg => .ok arg
    | none =>
      match Token.enclosed? toks with
      | some inner => bracketed s owner toks inner
      | none => (wholeExpr s owner toks).map .imm

/-- The first of `count` operands of an instruction may be a condition. -/
def conditionFirst (m : Cpu.Mnemonic) (count : Nat) : Bool :=
  match m with
  | .jp | .jr | .call => count == 2
  | .ret => count == 1
  | _ => false

def args (s : Settings) (owner : Text) (m : Cpu.Mnemonic) (toks : List Token) :
    Except Fault (List Arg) :=
  match Token.splitArgs toks with
  | [] => .ok []
  | first :: rest => do
    let first ← arg s owner (conditionFirst m (rest.length + 1)) first
    let rest ← rest.mapM (arg s owner false)
    return first :: rest

/-- Adds an instruction.  `push` and `pop` of several registers are as many instructions, with the
    label at the first. -/
def instruction (s : Settings) (node : Node) (m : Cpu.Mnemonic) (toks : List Token) (st : Building) :
    Building :=
  match args s st.owner m toks with
  | .error fault => st.bad node fault
  | .ok args =>
    if (m = .push || m = .pop) && args.length > 1 then
      let args := if m = .pop && s.popsReversed then args.reverse else args
      match args with
      | [] => st
      | first :: rest =>
        rest.foldl (fun st arg => st.act { node with label := none } (.instruction m [arg]))
          (st.act node (.instruction m [first]))
    else st.act node (.instruction m args)

/-! ## Directives -/

/-- Reads between `least` and `most` expressions divided by commas. -/
def exprs (s : Settings) (owner : Text) (toks : List Token) (least most : Nat) :
    Except Fault (List Expr) :=
  let groups := Token.splitArgs toks
  if groups.length < least then .error (.plain .operandsMissing)
  else if groups.length > most then .error (.about .operandsExtra (Token.renderAll toks))
  else groups.mapM (wholeExpr s owner)

def withOne (s : Settings) (node : Node) (toks : List Token) (make : Expr → Action) (st : Building) :
    Building :=
  match exprs s st.owner toks 1 1 with
  | .error fault => st.bad node fault
  | .ok (e :: _) => st.act node (make e)
  | .ok [] => st

def withTwo (s : Settings) (node : Node) (toks : List Token) (make : Expr → Option Expr → Action)
    (st : Building) : Building :=
  match exprs s st.owner toks 1 2 with
  | .error fault => st.bad node fault
  | .ok (e :: rest) => st.act node (make e rest.head?)
  | .ok [] => st

/-- Adds a definition of the label by a value, under the word `word`. -/
def equate (s : Settings) (node : Node) (word : Text) (assigned : Bool) (toks : List Token)
    (st : Building) : Building :=
  match node.label with
  | none => st.bad node (.about .labelRequired word)
  | some name =>
    match wholeExpr s st.owner toks with
    | .error fault => st.bad node fault
    | .ok value => st.act { node with label := none } (.equate name value assigned)

/-- Reads an item of a data directive.  A string by itself is bytes for a directive of bytes; an empty
    one is a zero byte in the Compass dialect and wrong in the native one. -/
def item (s : Settings) (owner : Text) (width : Width) (toks : List Token) : Except Fault Item :=
  match toks, width with
  | [tok], .byte =>
    match tok.string? with
    | some [] =>
      if s.dialect = .compass then .ok (.bytes [0]) else .error (.plain .stringEmpty)
    | some text => .ok (.bytes text)
    | none => (wholeExpr s owner toks).map .value
  | _, _ => (wholeExpr s owner toks).map .value

def data (s : Settings) (node : Node) (width : Width) (toks : List Token) (st : Building) :
    Building :=
  let groups := Token.splitArgs toks
  if groups.isEmpty then st.bad node (.plain .operandsMissing)
  else match groups.mapM (item s st.owner width) with
    | .error fault => st.bad node fault
    | .ok items => st.act node (.data width items)

/-- Adds a part of a binary file, which is read at once. -/
def incbin (s : Settings) (node : Node) (toks : List Token) (st : Building) : Building :=
  let (name, rest) := Token.fileName toks
  let parts : Except Fault (List Expr) := match rest with
    | [] => .ok []
    | comma :: more =>
      if comma.isSign .comma then exprs s st.owner more 1 2
      else .error (.about .operandsExtra (Token.renderAll rest))
  if name.isEmpty then st.bad node (.plain .operandsMissing)
  else match parts with
    | .error fault => st.bad node fault
    | .ok parts =>
      match s.find name node.pos.file with
      | .error fault => st.abort node.pos fault
      | .ok (_, data) => st.act node (.incbin name data parts[0]? parts[1]?)

/-- Reports a word of the Compass dialect in the native one. -/
def compassOnly (s : Settings) (node : Node) (d : Directive) (st : Building) : Building :=
  if s.dialect = .native then st.fail node.pos (.about .compassOnly d.name) else st

/-- The expression that heads a block.  If it cannot be read, this is reported, and what had been read
    of it counts; nothing counts as zero. -/
def headExpr (s : Settings) (node : Node) (toks : List Token) (st : Building) : Expr × Building :=
  match expr s st.owner toks with
  | .ok e => (e, st)
  | .error failure => (failure.read.getD (.num 0), st.fail node.pos failure.fault)

def enterIf (s : Settings) (node : Node) (toks : List Token) (st : Building) : Building :=
  let (e, st) := headExpr s node toks (st.labelFirst node)
  st.enter (.choose { node with label := none } (.nonzero e) [] none)

def enterDefined (node : Node) (negated : Bool) (toks : List Token) (st : Building) : Building :=
  let st := st.labelFirst node
  let node' := { node with label := none }
  match Token.singleWord? toks with
  | some word => st.enter (.choose node' (.defined (qualify st.owner word) negated) [] none)
  | none =>
    (st.fail node.pos (.about .labelInvalid (Token.renderAll toks))).enter
      (.choose node' (.defined [] negated) [] none)

def enterElse (node : Node) (st : Building) : Building :=
  let st := st.labelFirst node
  match st.blocks with
  | .choose head test yes none :: rest =>
    { st with blocks := .choose head test yes (some []) :: rest }
  | .choose _ _ _ (some _) :: _ => st.fail node.pos (.plain .elseDuplicate)
  | _ => st.fail node.pos (.plain .elseLonely)

def enterRept (s : Settings) (node : Node) (toks : List Token) (st : Building) : Building :=
  let (e, st) := headExpr s node toks (st.labelFirst node)
  st.enter (.repeated { node with label := none } e [])

/-- The text of an error directive: a string by itself, or the tokens. -/
def messageText : List Token → Text
  | [tok] => tok.string?.getD tok.render
  | toks => Token.renderAll toks

def directive (s : Settings) (node : Node) (d : Directive) (toks : List Token) (st : Building) :
    Building :=
  match d with
  | .data width => data s node width toks st
  | .equ => equate s node (bytes "equ") false toks st
  | .defl => equate s node (bytes "defl") true toks st
  | .org => withOne s node toks .org st
  | .space => withTwo s node toks .space st
  | .align => withTwo s node toks .align st
  | .incbin => incbin s node toks st
  | .insert | .finish => st.labelFirst node
  | .assert => withOne s node toks .assert st
  | .message => st.act node (.message (messageText toks))
  | .ifTrue => enterIf s node toks st
  | .cond => enterIf s node toks (compassOnly s node d st)
  | .ifdef => enterDefined node false toks st
  | .ifndef => enterDefined node true toks st
  | .otherwise => enterElse node st
  | .endif => (st.labelFirst node).leave node.pos false .endifLonely
  | .endc => ((compassOnly s node d st).labelFirst node).leave node.pos false .endifLonely
  | .rept => enterRept s node toks st
  | .endr => (st.labelFirst node).leave node.pos true .endrLonely
  | .endscript => st.fail node.pos (.plain .scriptLonely)
  | .define | .endm | .script => st.bad node (.about .macroSyntax d.name)

/-! ## Lines -/

def body (s : Settings) (node : Node) (toks : List Token) (st : Building) : Building :=
  match toks with
  | [] => st.labelFirst node
  | head :: rest =>
    match head.lexeme with
    | .sign .eq => equate s node (bytes "=") true rest st
    | .word _ (.directive d) => directive s node d rest st
    | .word _ (.mnemonic m) => instruction s node m rest st
    | _ => st.bad node (.instruction head.render)

def labelled (s : Settings) (line : Line) (node : Node) (toks : List Token) (st : Building) :
    Building :=
  match line.script with
  | some source => st.act node (.script source)
  | none =>
    match if s.dialect = .native then Token.compassWord? line.tokens else none with
    | some word => st.bad { node with label := none } (.about .compassOnly word)
    | none => body s node toks st

def line (s : Settings) (st : Building) (line : Line) : Building :=
  let st := { st with seq := st.seq + 1 }
  let node : Node := { seq := st.seq, pos := line.pos, text := line.text }
  match line.fault with
  | some fault => st.bad node fault
  | none =>
    match Token.splitLabel line.tokens with
    | (none, toks) => labelled s line node toks st
    | (some label, toks) =>
      let (name, owner, fault) := labelName st.owner label.text
      let node := { node with label := some name }
      let st := { st with owner }
      match fault with
      | some fault => st.bad node fault
      | none => labelled s line node toks st

def lines (s : Settings) : List Line → Building → Building
  | [], st => st
  | ln :: rest, st =>
    let st := line s st ln
    if st.fatal.isSome then st else lines s rest st

/-- Closes open blocks, innermost first; `inner` is the block that was closed inside of them.  Gives the
    statements outside of blocks, last statement first. -/
def closeAll (root : List Statement) : Option Statement → List Block → List Statement
  | inner, [] => inner.toList ++ root
  | inner, block :: rest =>
    let block := match inner with
      | some s => block.add s
      | none => block
    closeAll root (some block.close) rest

/-- Reports the blocks that are still open, outermost first, and closes them. -/
def finish (st : Building) : Building :=
  let reported := st.blocks.reverse.foldl (fun st block => st.fail block.pos block.lonely) st
  { reported with blocks := [], root := closeAll st.root none st.blocks }

def build (s : Settings) (ls : List Line) : Building :=
  let st := lines s ls {}
  if st.fatal.isSome then st else finish st

end Program

def Building.program (st : Building) : List Statement := st.root.reverse

end Z80Asm
