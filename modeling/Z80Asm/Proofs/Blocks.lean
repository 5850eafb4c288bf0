import Mathlib.Data.List.Forall2
import Z80Asm.Proofs.Edits
import Z80Asm.Proofs.Readers
import Z80Asm.Proofs.Trace

/-!
# Blocks

A program is built with a stack of open blocks, and a block becomes a statement of the one around it only
when it is closed.  Read in order, the finished tree is nevertheless the statements in the order in which
they were added, however wrong the nesting is.
-/

namespace Z80Asm

open List

/-! ## Reading a tree in order -/

/-- A statement without the ones inside of it. -/
inductive Heading where
  | act (node : Node) (action : Action)
  | choose (node : Node) (test : Test)
  | repeated (node : Node) (count : Expr)
  deriving DecidableEq

namespace Heading

def node : Heading → Node
  | .act node _ | .choose node _ | .repeated node _ => node

/-- The names that a statement defines by itself: its label, and that of an equation. -/
def names : Heading → List Text
  | .act node (.equate name _ _) => node.label.toList ++ [name]
  | .act node _ | .choose node _ | .repeated node _ => node.label.toList

/-- What a statement has from its line, whose number, place, text and label are in `node`. -/
structure Stems (node : Node) (h : Heading) : Prop where
  seq : h.node.seq = node.seq
  pos : h.node.pos = node.pos
  text : h.node.text = node.text
  names : h.names ⊆ node.label.toList

end Heading

mutual

/-- A statement and the ones inside of it, in the order of the source. -/
def Statement.flatten : Statement → List Heading
  | .act node action => [.act node action]
  | .choose node test yes no => .choose node test :: (flattenAll yes ++ flattenAll no)
  | .repeated node count body => .repeated node count :: flattenAll body

def Statement.flattenAll : List Statement → List Heading
  | [] => []
  | s :: rest => s.flatten ++ flattenAll rest

end

open Statement (flattenAll)

theorem Statement.flattenAll_append (xs ys : List Statement) :
    flattenAll (xs ++ ys) = flattenAll xs ++ flattenAll ys := by
  induction xs with
  | nil => rfl
  | cons x xs ih => simp [flattenAll, ih]

def Statement.heading : Statement → Heading
  | .act node action => .act node action
  | .choose node test _ _ => .choose node test
  | .repeated node count _ => .repeated node count

@[simp] theorem Statement.node_heading (st : Statement) : st.heading.node = st.node := by cases st <;> rfl

namespace Walk

theorem heading_of_timesVisits {f : Walk → Walk} {visits : Walk → List Visit} {hs : List Heading}
    (h : ∀ w, ∀ v ∈ visits w, v.statement.heading ∈ hs) :
    ∀ (n : Nat) (w : Walk), ∀ v ∈ timesVisits f visits n w, v.statement.heading ∈ hs
  | 0, _, _, mem => by cases mem
  | n + 1, w, v, mem => (mem_append.1 mem).elim (h w v) (heading_of_timesVisits h n (f w) v)

/-- **A statement that is executed stands in the program.** -/
theorem heading_of_visit (p : Pass) :
    ∀ program w, ∀ v ∈ visits p program w, v.statement.heading ∈ flattenAll program := by
  refine (Statement.tree_induction
    (P := fun st => ∀ w, ∀ v ∈ stepVisits p st w, v.statement.heading ∈ st.flatten)
    (fun node action w v mem => ?_) (fun node test yes no yes_ih no_ih w v mem => ?_)
    (fun node count body ih w v mem => ?_) (fun w v mem => ?_) (fun st rest st_ih ih w v mem => ?_)).2
  · rw [mem_singleton.1 mem]
    exact mem_singleton_self _
  · rw [stepVisits_choose] at mem
    rcases mem_cons.1 mem with rfl | mem
    · exact mem_cons_self
    · refine mem_cons_of_mem _ (mem_append.2 ?_)
      split at mem
      · exact .inl (yes_ih _ v mem)
      · exact .inr (no_ih _ v mem)
  · rw [stepVisits_repeated] at mem
    rcases mem_cons.1 mem with rfl | mem
    · exact mem_cons_self
    · refine mem_cons_of_mem _ ?_
      split at mem
      · cases mem
      · exact heading_of_timesVisits ih _ _ v mem
  · cases mem
  · rw [visits] at mem
    split at mem
    · cases mem
    · exact mem_append.2 ((mem_append.1 mem).imp (st_ih w v) (ih _ v))

end Walk

theorem Block.flatten_add (block : Block) (s : Statement) :
    (block.add s).close.flatten = block.close.flatten ++ s.flatten := by
  rcases block with ⟨node, test, yes, _ | no⟩ | ⟨node, count, body⟩ <;>
    simp [Block.add, Block.close, Statement.flatten, flattenAll, Statement.flattenAll_append]

def Edit.added? : Edit → Option Heading
  | act node action => some (.act node action)
  | choose node test => some (.choose node test)
  | repeated node count => some (.repeated node count)
  | divide _ | close _ _ | fail _ _ | abort _ _ => none

namespace Building

/-- The statements so far, in the order of the source: those outside of blocks, then those of the open
    blocks, outermost first. -/
def flatten (st : Building) : List Heading :=
  flattenAll st.root.reverse ++ st.blocks.reverse.flatMap (·.close.flatten)

section
variable (st : Building)

theorem flatten_add (s : Statement) : (st.add s).flatten = st.flatten ++ s.flatten := by
  unfold add flatten
  cases st.blocks with
  | nil => simp [Statement.flattenAll_append, flattenAll]
  | cons block rest => simp [Block.flatten_add]

theorem flatten_leave (pos : Pos) (repeated : Bool) (lonely : Cause) :
    (st.leave pos repeated lonely).flatten = st.flatten := by
  unfold leave
  cases open_ : st.blocks with
  | nil => rfl
  | cons block rest =>
    dsimp only
    split
    · rw [flatten_add]
      simp [flatten, open_]
    · rfl

theorem flatten_divide (pos : Pos) : (st.divide pos).flatten = st.flatten := by
  unfold divide
  split
  next open_ => simp [flatten, open_, Block.close]
  · rfl
  · rfl

/-- **An edit adds its statement at the end**, and changes nothing before it. -/
theorem flatten_edit (e : Edit) : (st.edit e).flatten = st.flatten ++ e.added?.toList := by
  cases e with
  | act node action => exact flatten_add st _
  | choose | repeated =>
    simp [edit, enter, flatten, Block.close, Statement.flatten, flattenAll, Edit.added?]
  | divide pos => simp [edit, flatten_divide, Edit.added?]
  | close pos repeated => cases repeated <;> simp [edit, flatten_leave, Edit.added?]
  | fail | abort => simp [edit, fail, abort, flatten, Edit.added?]

theorem flatten_editAll (es : List Edit) : (st.editAll es).flatten = st.flatten ++ es.filterMap Edit.added? := by
  induction es generalizing st with
  | nil => simp
  | cons e es ih => cases h : e.added? <;> simp [ih, flatten_edit, h]

end

end Building

namespace Program

theorem flatten_closeAll (root : List Statement) (inner : Option Statement) (blocks : List Block) :
    flattenAll (closeAll root inner blocks).reverse =
      flattenAll root.reverse ++ blocks.reverse.flatMap (·.close.flatten) ++ flattenAll inner.toList := by
  induction blocks generalizing inner with
  | nil => cases inner <;> simp [closeAll, Statement.flattenAll_append, flattenAll]
  | cons block rest ih =>
    cases inner <;> simp [closeAll, ih, flattenAll, Block.flatten_add]

theorem finish_root (st : Building) : (finish st).root = closeAll st.root none st.blocks := rfl

/-- Closing the open blocks keeps the order of the statements. -/
theorem flatten_finish (st : Building) : flattenAll (finish st).program = st.flatten := by
  rw [Building.program, finish_root, flatten_closeAll]
  simp [Building.flatten, flattenAll]

end Program

/-! ## Words of blocks -/

inductive BlockWord where
  | enterIf | otherwise | leaveIf | enterRept | leaveRept
  deriving Repr, DecidableEq

def Directive.blockWord? : Directive → Option BlockWord
  | ifTrue | cond | ifdef | ifndef => some .enterIf
  | otherwise => some .otherwise
  | endif | endc => some .leaveIf
  | rept => some .enterRept
  | endr => some .leaveRept
  | _ => none

def Token.isWrongLabel (label : Token) : Bool := (Program.labelName [] label.text).2.2.isSome

def bodyWord? : List Token → Option BlockWord
  | [] => none
  | head :: _ =>
    match head.lexeme with
    | .word _ (.directive d) => d.blockWord?
    | _ => none

/-- The word of blocks that a line has.  A line that is wrong has none, nor has a script. -/
def Line.blockWord? (s : Settings) (ln : Line) : Option BlockWord :=
  let (label, body) := Token.splitLabel ln.tokens
  if ln.fault.isSome || label.any Token.isWrongLabel then none
  else if ln.script.isSome || (s.dialect == .native && (Token.compassWord? ln.tokens).isSome) then none
  else bodyWord? body

def Edit.word? : Edit → Option BlockWord
  | choose _ _ => some .enterIf
  | divide _ => some .otherwise
  | close _ false => some .leaveIf
  | repeated _ _ => some .enterRept
  | close _ true => some .leaveRept
  | act _ _ | fail _ _ | abort _ _ => none

theorem Settings.find_error {s : Settings} {name source : Text} {fault : Fault}
    (h : s.find name source = .error fault) : ∃ reason, fault = .file name reason := by
  unfold Settings.find at h
  split at h
  · cases h
  · cases h; exact ⟨_, rfl⟩

def Cause.ofBlocks : List Cause :=
  [.ifLonely, .endifLonely, .elseLonely, .elseDuplicate, .reptLonely, .endrLonely]

def Fault.isOfBlocks (fault : Fault) : Bool := fault.cause?.any Cause.ofBlocks.contains

def Diagnostic.isOfBlocks (d : Diagnostic) : Bool := d.fault.any Fault.isOfBlocks

/-- An edit that reports something else than the nesting of blocks, if it reports something. -/
def Edit.isMild : Edit → Bool
  | fail _ fault => !fault.isOfBlocks
  | _ => true

/-- What a line can report by itself. -/
def Cause.ofLines : List Cause := [.compassOnly, .labelInvalid, .scriptLonely] ++ Parse.causes

/-- A report is about the line alone, and the building ends only for want of a file. -/
def Edit.Sound : Edit → Prop
  | fail _ fault => ∃ cause ∈ Cause.ofLines, fault.cause? = some cause
  | abort _ fault => ∃ name reason, fault = .file name reason
  | act _ _ | choose _ _ | repeated _ _ | divide _ | close _ _ => True

theorem Edit.Sound.isMild {e : Edit} (h : e.Sound) : e.isMild = true := by
  have apart : ∀ cause ∈ Cause.ofLines, cause ∉ Cause.ofBlocks := by decide
  cases e with
  | fail pos fault =>
    obtain ⟨cause, known, comesDown⟩ := h
    simpa [Edit.isMild, Fault.isOfBlocks, comesDown] using apart cause known
  | _ => rfl

/-- The edits have a word of blocks, or none, and report nothing about the nesting by themselves.  The statements that
    they add have their place and their names from `node`. -/
structure Edit.Spells (node : Node) (word : Option BlockWord) (es : List Edit) : Prop where
  word : es.filterMap Edit.word? = word.toList
  mild : es.all Edit.isMild = true
  stems : ∀ e ∈ es, ∀ h ∈ e.added?, h.Stems node

/-- The edits spell a word, and all that they report is about the line alone. -/
structure Edit.SpellsOut (node : Node) (word : Option BlockWord) (es : List Edit) : Prop extends
    Edit.Spells node word es where
  sound : ∀ e ∈ es, e.Sound

namespace Edit.SpellsOut
variable {node : Node} {word : Option BlockWord} {e : Edit}

theorem of_sound {es : List Edit} (isWord : es.filterMap Edit.word? = word.toList) (sound : ∀ e ∈ es, e.Sound)
    (stems : ∀ e ∈ es, ∀ h ∈ e.added?, h.Stems node) : SpellsOut node word es :=
  ⟨⟨isWord, all_eq_true.2 fun e mem => (sound e mem).isMild, stems⟩, sound⟩

theorem single (isWord : e.word? = word) (sound : e.Sound) (stems : ∀ h ∈ e.added?, h.Stems node) :
    SpellsOut node word [e] :=
  .of_sound (by cases word <;> simp [isWord]) (forall_mem_singleton.2 sound) (forall_mem_singleton.2 stems)

theorem act {action : Action} (own : (Heading.act node action).names = node.label.toList) :
    SpellsOut node none [.act node action] :=
  .single rfl trivial (by rintro h ⟨⟩; exact ⟨rfl, rfl, rfl, by rw [own]; exact Subset.refl _⟩)

end Edit.SpellsOut

open Edit (SpellsOut)

/-! ## What a line can write -/

/-- What an action of a line is read from, `toks` being the tokens after the first one. -/
inductive Action.ReadFrom (s : Settings) (owner : Text) (toks : List Token) : Action → Prop
  | label : ReadFrom s owner toks .label
  | bad (fault : Fault) : ReadFrom s owner toks (.bad fault)
  | message (text : Text) : ReadFrom s owner toks (.message text)
  | instruction {m : Cpu.Mnemonic} {args args' : List Arg} (read : Program.args s owner m toks = .ok args)
      (among : args' ⊆ args) : ReadFrom s owner toks (.instruction m args')
  | data {width : Width} {items : List Item}
      (read : (Token.splitArgs toks).mapM (Program.item s owner width) = .ok items) :
      ReadFrom s owner toks (.data width items)
  | one {e : Expr} {rest : List Expr} {make : Expr → Action} (known : make = .org ∨ make = .assert)
      (read : Program.exprs s owner toks 1 1 = .ok (e :: rest)) : ReadFrom s owner toks (make e)
  | two {e : Expr} {rest : List Expr} {make : Expr → Option Expr → Action} (known : make = .space ∨ make = .align)
      (read : Program.exprs s owner toks 1 2 = .ok (e :: rest)) : ReadFrom s owner toks (make e rest.head?)
  | incbin {parts : List Expr} (file data : Text)
      (read : parts = [] ∨ Program.exprs s owner (Token.fileName toks).2.tail 1 2 = .ok parts) :
      ReadFrom s owner toks (.incbin file data parts[0]? parts[1]?)

theorem Action.ReadFrom.names {s : Settings} {owner : Text} {toks : List Token} {action : Action}
    (read : action.ReadFrom s owner toks) (node : Node) : (Heading.act node action).names = node.label.toList := by
  cases read with
  | one known | two known => rcases known with rfl | rfl <;> rfl
  | _ => rfl

namespace Program

/-- The expression that heads a block, as far as it can be read. -/
def headOf (s : Settings) (owner : Text) (toks : List Token) : Expr :=
  match expr s owner toks with
  | .ok e => e
  | .error failure => failure.read.getD (.num 0)

/-- The symbol that a test for a definition is about; the empty name if there is no single word. -/
def definedOf (owner : Text) (toks : List Token) : Text := (Token.singleWord? toks).elim [] (qualify owner)

end Program

section
variable (s : Settings) (owner : Text) (head : Option Token) (toks : List Token) (node node' : Node)

/-- What a line can add or report, at two places; it starts with `head`, and `toks` follow. -/
inductive Edit.Writes : Edit → Edit → Prop
  | act {action : Action} (read : action.ReadFrom s owner toks) : Writes (.act node action) (.act node' action)
  | further {action : Action} (read : action.ReadFrom s owner toks) :
      Writes (.act { node with label := none } action) (.act { node' with label := none } action)
  | equate {name : Text} {e : Expr} (assigned : Bool) (label : node.label = some name)
      (read : Program.wholeExpr s owner toks = .ok e) :
      Writes (.act { node with label := none } (.equate name e assigned))
        (.act { node' with label := none } (.equate name e assigned))
  | choose : Writes (.choose { node with label := none } (.nonzero (Program.headOf s owner toks)))
      (.choose { node' with label := none } (.nonzero (Program.headOf s owner toks)))
  | defined (opens : ∃ d ∈ [Directive.ifdef, .ifndef], head.any (·.isDirective d) = true) (negated : Bool) :
      Writes (.choose { node with label := none } (.defined (Program.definedOf owner toks) negated))
        (.choose { node' with label := none } (.defined (Program.definedOf owner toks) negated))
  | repeated : Writes (.repeated { node with label := none } (Program.headOf s owner toks))
      (.repeated { node' with label := none } (Program.headOf s owner toks))
  | divide : Writes (.divide node.pos) (.divide node'.pos)
  | close (repeated : Bool) : Writes (.close node.pos repeated) (.close node'.pos repeated)
  | fail {fault : Fault} {cause : Cause} (known : cause ∈ Cause.ofLines) (comesDown : fault.cause? = some cause) :
      Writes (.fail node.pos fault) (.fail node'.pos fault)
  | abort (name : Text) (reason : Fault) :
      Writes (.abort node.pos (.file name reason)) (.abort node'.pos (.file name reason))

/-- The edits of a line at two places, and the word of blocks that they spell. -/
structure Edit.Wrote (word : Option BlockWord) (es es' : List Edit) : Prop where
  each : List.Forall₂ (Writes s owner head toks node node') es es'
  word : es.filterMap Edit.word? = word.toList

end

namespace Edit.Wrote
variable {s : Settings} {owner : Text} {head : Option Token} {toks : List Token} {node node' : Node}
  {word : Option BlockWord} {e e' : Edit} {es es' fs fs' : List Edit}

theorem nil : Wrote s owner head toks node node' none [] [] := ⟨.nil, rfl⟩

theorem single (h : Writes s owner head toks node node' e e') (isWord : e.word? = word) :
    Wrote s owner head toks node node' word [e] [e'] :=
  ⟨.cons h .nil, by cases word <;> simp [isWord]⟩

theorem act {action : Action} (read : action.ReadFrom s owner toks) :
    Wrote s owner head toks node node' none [.act node action] [.act node' action] := single (.act read) rfl

theorem append (h : Wrote s owner head toks node node' none es es')
    (g : Wrote s owner head toks node node' word fs fs') :
    Wrote s owner head toks node node' word (es ++ fs) (es' ++ fs') :=
  ⟨rel_append h.each g.each, by rw [filterMap_append, h.word, g.word]; rfl⟩

end Edit.Wrote

namespace Program
variable {s : Settings} {owner : Text} {head : Option Token} {toks : List Token} {node node' : Node}

open Edit (Wrote)

section
variable (label : node'.label = node.label)
include label

theorem labelEdits_wrote : Wrote s owner head toks node node' none (labelEdits node) (labelEdits node') := by
  unfold labelEdits
  rw [label]
  split
  · exact .act .label
  · exact .nil

theorem equateEdits_wrote (word : Text) (assigned : Bool) : Wrote s owner head toks node node' none
    (equateEdits s owner node word assigned toks) (equateEdits s owner node' word assigned toks) := by
  unfold equateEdits
  rw [label]
  split
  · exact .act (.bad _)
  next name isLabel =>
    split
    · exact .act (.bad _)
    next e read => exact .single (.equate assigned isLabel read) rfl

end

theorem instructionEdits_wrote (m : Cpu.Mnemonic) : Wrote s owner head toks node node' none
    (instructionEdits s owner node m toks) (instructionEdits s owner node' m toks) := by
  unfold instructionEdits
  cases read : args s owner m toks with
  | error fault => exact .act (.bad _)
  | ok args =>
    have among : (if m = .pop && s.popsReversed then args.reverse else args) ⊆ args := by
      split
      · exact fun a mem => mem_reverse.1 mem
      · exact Subset.refl _
    dsimp only
    split
    · generalize (if m = .pop && s.popsReversed then args.reverse else args) = order at among
      cases order with
      | nil => exact .nil
      | cons first rest =>
        rw [cons_subset] at among
        refine (Wrote.act (.instruction read (by simpa using among.1))).append ⟨?_, ?_⟩
        · rw [forall₂_map_left_iff, forall₂_map_right_iff, forall₂_same]
          exact fun a mem => .further (.instruction read (by simpa using among.2 mem))
        · simp [Edit.word?, filterMap_eq_nil_iff]
    · exact .act (.instruction read (Subset.refl _))

theorem incbinEdits_wrote (file : node'.pos.file = node.pos.file) : Wrote s owner head toks node node' none
    (incbinEdits s owner node toks) (incbinEdits s owner node' toks) := by
  simp only [incbinEdits, file]
  split
  · exact .act (.bad _)
  split
  · exact .act (.bad _)
  next parts read =>
    have read' : parts = [] ∨ exprs s owner (Token.fileName toks).2.tail 1 2 = .ok parts := by
      split at read
      · exact .inl (Except.ok.inj read).symm
      next comma more behind =>
        split at read
        · exact .inr (by rwa [behind])
        · cases read
    split
    next missing =>
      obtain ⟨reason, rfl⟩ := Settings.find_error missing
      exact .single (.abort ..) rfl
    · exact .act (.incbin _ _ read')

/-- The head of a block opens it; what may be wrong with its expression is not the nesting. -/
theorem headEdits_wrote {enter enter' : Expr → Edit} {word : BlockWord}
    (opens : Wrote s owner head toks node node' (some word) [enter (headOf s owner toks)]
      [enter' (headOf s owner toks)]) :
    Wrote s owner head toks node node' (some word) (headEdits s owner node toks enter)
      (headEdits s owner node' toks enter') := by
  unfold headOf at opens
  unfold headEdits
  cases read : expr s owner toks with
  | ok e => simpa only [read] using opens
  | error failure =>
    rw [read] at opens
    obtain ⟨cause, known, comesDown⟩ := Expr.parse_explains read
    exact (Wrote.single (.fail (mem_append_right _ known) comesDown) rfl).append opens

theorem enterDefinedEdits_wrote (label : node'.label = node.label)
    (opens : ∃ d ∈ [Directive.ifdef, .ifndef], head.any (·.isDirective d) = true) (negated : Bool) :
    Wrote s owner head toks node node' (some .enterIf) (enterDefinedEdits owner node negated toks)
      (enterDefinedEdits owner node' negated toks) := by
  have test : Wrote s owner head toks node node' (some .enterIf)
      [.choose { node with label := none } (.defined (definedOf owner toks) negated)]
      [.choose { node' with label := none } (.defined (definedOf owner toks) negated)] :=
    .single (.defined opens negated) rfl
  refine (labelEdits_wrote label).append ?_
  unfold definedOf at test
  cases single : Token.singleWord? toks with
  | some word => simpa only [single, Option.elim_some] using test
  | none =>
    rw [single] at test
    exact (Wrote.single (.fail (by decide) rfl) rfl).append test

theorem directiveEdits_wrote (label : node'.label = node.label) (file : node'.pos.file = node.pos.file) {d : Directive}
    (isWord : head.any (·.isDirective d) = true) :
    Wrote s owner head toks node node' d.blockWord? (directiveEdits s owner node d toks)
      (directiveEdits s owner node' d toks) := by
  have own := @labelEdits_wrote s owner head toks _ _ label
  have compass : Wrote s owner head toks node node' none (compassOnlyEdits s node d) (compassOnlyEdits s node' d) := by
    unfold compassOnlyEdits
    split
    · exact .single (.fail (by decide) rfl) rfl
    · exact .nil
  have enterIf : Wrote s owner head toks node node' (some .enterIf) (enterIfEdits s owner node toks)
      (enterIfEdits s owner node' toks) := own.append (headEdits_wrote (.single .choose rfl))
  have close (repeated : Bool) : Wrote s owner head toks node node' (Edit.close node.pos repeated).word?
      (labelEdits node ++ [.close node.pos repeated]) (labelEdits node' ++ [.close node'.pos repeated]) :=
    own.append (.single (.close repeated) rfl)
  cases d with
  | data width =>
    simp only [directiveEdits, dataEdits]
    split
    · exact .act (.bad _)
    · split
      · exact .act (.bad _)
      next read => exact .act (.data read)
  | equ | defl => exact equateEdits_wrote label _ _
  | org | assert =>
    simp only [directiveEdits, withOneEdits]
    split
    · exact .act (.bad _)
    next read => exact .act (.one (by simp) read)
    · exact .nil
  | space | align =>
    simp only [directiveEdits, withTwoEdits]
    split
    · exact .act (.bad _)
    next read => exact .act (.two (by simp) read)
    · exact .nil
  | incbin => exact incbinEdits_wrote file
  | insert | finish => exact own
  | message => exact .act (.message _)
  | define | endm | script => exact .act (.bad _)
  | endscript => exact .single (.fail (by decide) rfl) rfl
  | ifTrue => exact enterIf
  | cond => exact compass.append enterIf
  | ifdef | ifndef => exact enterDefinedEdits_wrote label ⟨_, by simp, isWord⟩ _
  | otherwise => exact own.append (.single .divide rfl)
  | endif => exact close false
  | endr => exact close true
  | endc => exact compass.append (close false)
  | rept => exact own.append (headEdits_wrote (.single .repeated rfl))

/-- **A line writes what it can write**, and its word of blocks. -/
theorem bodyEdits_wrote (label : node'.label = node.label) (file : node'.pos.file = node.pos.file) (toks : List Token) :
    Wrote s owner toks.head? toks.tail node node' (bodyWord? toks) (bodyEdits s owner node toks)
      (bodyEdits s owner node' toks) := by
  cases toks with
  | nil => exact labelEdits_wrote label
  | cons head rest =>
    unfold bodyEdits bodyWord?
    dsimp only [tail_cons]
    rcases lexeme : head.lexeme with ⟨_, _ | m | d⟩ | _ | _ | sign
    case word.mnemonic => exact instructionEdits_wrote m
    case word.directive => exact directiveEdits_wrote label file (by simp [Token.isDirective, lexeme])
    case sign => cases sign <;> first | exact equateEdits_wrote label _ _ | exact .act (.bad _)
    all_goals exact .act (.bad _)

section
variable (s : Settings) (owner : Text) (seq : Nat) (ls : List Line)

theorem bodyEdits_spells (node : Node) (toks : List Token) :
    SpellsOut node (bodyWord? toks) (bodyEdits s owner node toks) := by
  have wrote := @bodyEdits_wrote s owner node node rfl rfl toks
  have each := forall₂_same.1 wrote.each
  refine .of_sound wrote.word (fun e mem => ?_) fun e mem h adds => ?_
  · cases each e mem with
    | fail known comesDown => exact ⟨_, known, comesDown⟩
    | abort name reason => exact ⟨name, reason, rfl⟩
    | _ => trivial
  · cases each e mem with
    | act read | further read =>
      cases adds
      exact ⟨rfl, rfl, rfl, by simp [read.names]⟩
    | equate assigned label read =>
      cases adds
      exact ⟨rfl, rfl, rfl, by simp [Heading.names, label]⟩
    | choose | defined | repeated =>
      cases adds
      exact ⟨rfl, rfl, rfl, by simp [Heading.names]⟩
    | _ => cases adds

theorem labelName_fault (label : Token) : (labelName owner label.text).2.2.isSome = label.isWrongLabel := by
  unfold Token.isWrongLabel labelName
  repeat' split
  all_goals rfl

/-- **The edits of a line spell its word of blocks**, and what they add comes from the line. -/
theorem edits_spells (ln : Line) : SpellsOut (lineNode owner seq ln) (ln.blockWord? s) (edits s owner seq ln) := by
  have becomes := edits_becomes s owner seq ln
  have right (labelled : Labelled owner ln) : (Token.splitLabel ln.tokens).1.any Token.isWrongLabel = false := by
    cases isLabel : (Token.splitLabel ln.tokens).1 with
    | none => rfl
    | some label => simp [← labelName_fault owner, labelled.label label isLabel]
  have unlabelled (fault : Fault) :
      SpellsOut (lineNode owner seq ln) none [badEdit { lineNode owner seq ln with label := none } fault] :=
    .single rfl trivial (by rintro h ⟨⟩; exact ⟨rfl, rfl, rfl, by simp [Heading.names]⟩)
  generalize edits s owner seq ln = es at becomes
  unfold Line.blockWord?
  dsimp only
  cases becomes with
  | lexical wrong => simpa [wrong] using unlabelled _
  | label lexical isLabel wrong => simpa [badEdit, isLabel, ← labelName_fault owner, wrong] using SpellsOut.act rfl
  | script labelled isScript => simpa [labelled.fault, right labelled, isScript] using SpellsOut.act rfl
  | foreign labelled noScript native isWord => simpa [labelled.fault, right labelled, native, isWord] using unlabelled _
  | body labelled noScript noWord =>
    rw [labelled.fault, right labelled, noScript, if_neg (by simp), if_neg (by simpa using noWord)]
    exact bodyEdits_spells s _ _ _

theorem allEdits_words : (allEdits s owner seq ls).filterMap Edit.word? = ls.filterMap (·.blockWord? s) := by
  induction ls generalizing owner seq with
  | nil => rfl
  | cons ln rest ih =>
    rw [allEdits, filterMap_append, (edits_spells s owner _ ln).word, ih]
    cases h : ln.blockWord? s <;> simp [h]

theorem allEdits_mild : ∀ e ∈ allEdits s owner seq ls, e.isMild = true := by
  induction ls generalizing owner seq with
  | nil => simp [allEdits]
  | cons ln rest ih =>
    intro e mem
    rcases mem_append.1 mem with mem | mem
    · exact all_eq_true.1 (edits_spells s owner _ ln).mild e mem
    · exact ih _ _ e mem

end

end Program

end Z80Asm
