import Z80Asm.Listing
import Z80Asm.Script
import Z80Asm.Statement

/-!
# Passes

A pass walks the program once.  Symbols are read from the table that the pass before it left, except
variables, which have the value of their last assignment in this pass.  The walk collects code, the size
of each executed statement, diagnostics and the symbols of the next table.

`walk` is a function of the pass and the program alone, so that the same table always gives the same
walk.
-/

namespace Z80Asm

def spaceLimit : Int64 := 0x1000000

def repeatLimit : Int64 := 65536

/-- A pass: its number, the table of the pass before it, and whether it keeps a listing. -/
structure Pass where
  index : Nat
  prev : Table
  listing : Bool

inductive Stop where
  | limit (diagnostic : Diagnostic)
  /-- A part of a binary file whose end wraps around to before its start. -/
  | outOfBounds

structure Walk where
  ledger : Ledger
  vars : Std.TreeMap Text Int64 := ∅
  pc : Int64 := 0
  code : Array UInt8 := #[]
  sizes : Array Nat := #[]
  diagnostics : Array Diagnostic := #[]
  entries : Array ListingEntry := #[]
  stop : Option Stop := none

namespace Walk

/-! ## Reports -/

def report (w : Walk) (p : Pass) (node : Node) (severity : Severity) (fault : Fault) : Walk :=
  { w with diagnostics := w.diagnostics.push (.of severity node.pos p.index fault) }

def fail (w : Walk) (p : Pass) (node : Node) (fault : Fault) : Walk := w.report p node .error fault

/-- Reports a value that does not fit: an error if it is strict, a warning otherwise. -/
def misfit (w : Walk) (p : Pass) (node : Node) (m : Cpu.Misfit) : Walk :=
  w.report p node (if m.strict then .error else .warning) (.misfit m)

def misfitWith (w : Walk) (p : Pass) (node : Node) : Option Cpu.Misfit → Walk
  | none => w
  | some m => w.misfit p node m

/-! ## Symbols -/

/-- What expressions are evaluated against: variables first, then the table of the pass before. -/
def env (w : Walk) (p : Pass) : Env :=
  let vars := w.vars
  { lookup := fun name => vars[name]?.or (p.prev.value? name), pc := w.pc }

def reference (w : Walk) (pos : Pos) (names : List Text) : Walk :=
  { w with ledger := names.foldl (·.reference · pos) w.ledger }

/-- Evaluates an expression; the names without a value are noted and the first failure is reported. -/
def eval (w : Walk) (p : Pass) (node : Node) (e : Expr) : Int64 × Walk :=
  let env := w.env p
  let missing := e.names.filter fun name => (env.lookup name).isNone
  let w := w.reference node.pos missing
  let w := match e.fault? env with
    | some fault => w.fail p node fault
    | none => w
  (e.value env, w)

def evalOption (w : Walk) (p : Pass) (node : Node) (missing : Int64) : Option Expr → Int64 × Walk
  | none => (missing, w)
  | some e => w.eval p node e

/-- Defines a symbol.  A variable takes its new value even where the definition is refused. -/
def define (w : Walk) (p : Pass) (node : Node) (name : Text) (value : Int64) (scope : Scope) : Walk :=
  let w := if scope = .assigned then { w with vars := w.vars.insert name value } else w
  match w.ledger.define { name, value, scope, pos := node.pos, seq := node.seq } with
  | .ok ledger => { w with ledger }
  | .error fault =>
    if fault.cause? = some .resourceLimit then
      { w with stop := some (.limit (.of .fatal node.pos p.index fault)) }
    else w.fail p node (.detail fault name)

def defineLabel (w : Walk) (p : Pass) (node : Node) : Walk :=
  match node.label with
  | some name => w.define p node name w.pc (.ofName name)
  | none => w

/-- The name is a variable of this pass, or was defined by a statement before this one. -/
def isDefined (w : Walk) (p : Pass) (node : Node) (name : Text) : Bool :=
  w.vars.contains name || match p.prev.get? name with
    | some s => s.defined && s.seq < node.seq
    | none => false

/-! ## Code -/

def emit (w : Walk) (code : List UInt8) : Walk :=
  { w with code := w.code ++ code, pc := w.pc + code.length.toInt64 }

/-- The lowest and the highest value that a unit holds, signed or unsigned. -/
def widthRange : Width → Int64 × Int64
  | .byte => (-0x80, 0xFF)
  | .word => (-0x8000, 0xFFFF)
  | .dword => (-0x80000000, 0xFFFFFFFF)

def littleEndian : Nat → Int64 → List UInt8
  | 0, _ => []
  | n + 1, v => Cpu.lowByte v :: littleEndian n (v >>> 8)

def emitItem (w : Walk) (p : Pass) (node : Node) (width : Width) : Item → Walk
  | .bytes text => w.emit text
  | .value e =>
    let (value, w) := w.eval p node e
    let (min, max) := widthRange width
    (w.misfitWith p node (Cpu.misfit? value min max false)).emit (littleEndian width.size value)

/-- Evaluates the byte that fills space; zero if it is not given. -/
def fillByte (w : Walk) (p : Pass) (node : Node) : Option Expr → UInt8 × Walk
  | none => (0, w)
  | some e =>
    let (value, w) := w.eval p node e
    (Cpu.lowByte value, w.misfitWith p node (Cpu.misfit? value (-128) 255 false))

def emitCopies (w : Walk) (count : Nat) (b : UInt8) : Walk :=
  { w with code := w.code ++ Array.replicate count b, pc := w.pc + count.toInt64 }

/-- To emit a byte a number of times is to emit so many bytes. -/
theorem emitCopies_eq_emit (w : Walk) (count : Nat) (b : UInt8) :
    w.emitCopies count b = w.emit (List.replicate count b) := by
  have code : w.code ++ Array.replicate count b = w.code ++ List.replicate count b :=
    Array.toList_inj.mp (by simp)
  simp only [emitCopies, emit, List.length_replicate, code]

def emitFill (w : Walk) (p : Pass) (node : Node) (count : Int64) (fill : Option Expr) : Walk :=
  let (b, w) := w.fillByte p node fill
  w.emitCopies count.toInt.toNat b

/-- The number of bytes from an address up to a multiple of a boundary. -/
def padding (pc boundary : Int64) : Int64 :=
  (boundary - (pc % boundary + boundary) % boundary) % boundary

def operands (w : Walk) (p : Pass) (node : Node) : List Arg → List Cpu.Operand × Walk
  | [] => ([], w)
  | arg :: rest =>
    let env := w.env p
    let w := match arg.expr? with
      | some e => (w.eval p node e).2
      | none => w
    let (ops, w) := operands w p node rest
    (arg.resolve (·.value env) :: ops, w)

def emitInstruction (w : Walk) (p : Pass) (node : Node) (m : Cpu.Mnemonic) (args : List Arg) : Walk :=
  let (ops, w) := w.operands p node args
  match Cpu.encode m w.pc ops with
  | .error cause => w.fail p node (.operands m.name ops cause.fault)
  | .ok encoded => (w.misfitWith p node encoded.misfit).emit encoded.code

/-- Emits the part of a file from an offset on.  The end of the part is a sum that wraps around: it may
    then lie before the start, where there is no such part. -/
def emitPart (w : Walk) (p : Pass) (node : Node) (name data : Text) (offset length : Int64) : Walk :=
  let size := data.length.toInt64
  if offset < 0 || size < offset || length < 0 || size < offset + length then
    w.fail p node (.about .incbinRange name)
  else if offset + length < offset then { w with stop := some .outOfBounds }
  else w.emit ((data.drop offset.toInt.toNat).take length.toInt.toNat)

/-! ## Scripts -/

def isScriptName : Text → Bool
  | [] => false
  | b :: rest =>
    let isLetter := fun (b : UInt8) =>
      ('a'.toUInt8 ≤ b && b ≤ 'z'.toUInt8) || ('A'.toUInt8 ≤ b && b ≤ 'Z'.toUInt8) || b == '_'.toUInt8
    isLetter b && rest.all fun b => isLetter b || ('0'.toUInt8 ≤ b && b ≤ '9'.toUInt8)

/-- The symbols that a script sees: those of the pass before, then the variables. -/
def scriptConstants (w : Walk) (p : Pass) : List (Text × Int) :=
  let before := p.prev.definedList.map fun s => (s.name, s.value.toInt)
  let assigned := w.vars.toList.map fun (name, value) => (name, value.toInt)
  (before ++ assigned).filter (isScriptName ·.1)

def defineScripted (p : Pass) (node : Node) (w : Walk) (constant : Text × Int) : Walk :=
  let (name, value) := constant
  if Int64.minValue.toInt ≤ value && value ≤ Int64.maxValue.toInt then w.define p node name (.ofInt value) .global
  else w.fail p node (.about .script name)

def runScript (w : Walk) (p : Pass) (node : Node) (source : Text) : Walk :=
  match Script.run node.pos.file source (w.scriptConstants p) w.pc.toInt with
  | .error message => w.fail p node (.about .script message)
  | .ok outcome => outcome.constants.foldl (defineScripted p node) (w.emit outcome.code)

/-! ## Statements -/

def act (w : Walk) (p : Pass) (node : Node) : Action → Walk
  | .label => w
  | .bad fault => w.fail p node fault
  | .instruction m args => w.emitInstruction p node m args
  | .data width items => items.foldl (·.emitItem p node width ·) w
  | .space count fill =>
    let (n, w) := w.eval p node count
    match Cpu.misfit? n 0 spaceLimit true with
    | some m => w.misfit p node m
    | none => w.emitFill p node n fill
  | .align boundary fill =>
    let (n, w) := w.eval p node boundary
    match Cpu.misfit? n 1 spaceLimit true with
    | some m => w.misfit p node m
    | none => w.emitFill p node (padding w.pc n) fill
  | .org address =>
    let (pc, w) := w.eval p node address
    { w with pc }
  | .equate name value assigned =>
    let (v, w) := w.eval p node value
    w.define p node name v (if assigned then .assigned else .ofName name)
  | .incbin name data offset length =>
    let (offset, w) := w.evalOption p node 0 offset
    let (length, w) := w.evalOption p node (data.length.toInt64 - offset) length
    w.emitPart p node name data offset length
  | .assert condition =>
    let (v, w) := w.eval p node condition
    if v = 0 then w.fail p node (.about .assertion node.text) else w
  | .message text => w.fail p node (.user text)
  | .script source => w.runScript p node source

def test (w : Walk) (p : Pass) (node : Node) : Test → Bool × Walk
  | .nonzero e =>
    let (v, w) := w.eval p node e
    (v != 0, w)
  | .defined name negated => (w.isDefined p node name != negated, w)

/-- Adds the entry of a statement to the listing, if one is kept, with the code from `start` on. -/
def list (w : Walk) (p : Pass) (node : Node) (address : Int64) (start : Nat) : Walk :=
  if p.listing then
    let code := (w.code.extract start w.code.size).toList
    { w with entries := w.entries.push { line := node.pos.line, address, code, text := node.text } }
  else w

/-- Notes the size of a statement that started when `start` bytes had been emitted. -/
def measure (w : Walk) (start : Nat) : Walk := { w with sizes := w.sizes.push (w.code.size - start) }

/-- Executes a statement that starts when `start` bytes have been emitted, and notes its size. -/
@[noinline] def measured (f : Nat → Walk → Walk) (start : Nat) (w : Walk) : Walk :=
  (f start w).measure start

/-- Executes an action after its label, and lists it with the code from `start` on. -/
def perform (p : Pass) (node : Node) (action : Action) (start : Nat) (w : Walk) : Walk :=
  let address := w.pc
  let w := (w.defineLabel p node).act p node action
  w.list p node address start

def times (f : Walk → Walk) : Nat → Walk → Walk
  | 0, w => w
  | n + 1, w => times f n (f w)

mutual

/-- Executes a statement.  A fault in its label does not keep the rest of it from being executed. -/
def step (p : Pass) : Statement → Walk → Walk
  | .act node action, w => measured (perform p node action) w.code.size w
  | .choose node test yes no, w =>
    measured
      (fun start w =>
        let (ok, w) := ((w.list p node w.pc start).defineLabel p node).test p node test
        if ok then steps p yes w else steps p no w)
      w.code.size w
  | .repeated node count body, w =>
    measured
      (fun start w =>
        let (n, w) := ((w.list p node w.pc start).defineLabel p node).eval p node count
        match Cpu.misfit? n 0 repeatLimit true with
        | some m => w.misfit p node m
        | none => times (steps p body) n.toInt.toNat w)
      w.code.size w

def steps (p : Pass) : List Statement → Walk → Walk
  | [], w => w
  | s :: rest, w => if w.stop.isSome then w else steps p rest (step p s w)

end

end Walk

/-- The walk of a pass over a program; `ledger` holds the symbols defined before it. -/
def Pass.walk (p : Pass) (ledger : Ledger) (program : List Statement) : Walk :=
  Walk.steps p program { ledger }

end Z80Asm
