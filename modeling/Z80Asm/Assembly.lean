import Z80Asm.Macro
import Z80Asm.Pass
import Z80Asm.Program
import Z80Asm.Sorted

/-!
# Assembly

A run loads the source, expands its macros, builds the program and then walks it pass after pass.  A
pass is the last one if it changes neither the state of a symbol nor the size of a statement; then its
symbols were read as they are, and its code is the result.  If the limit of passes is reached first, the
symbols that still change are reported.
-/

namespace Z80Asm

inductive State where
  | scanning
  | stable
  | resourceExceeded
  | syntaxFailed
  deriving Repr, DecidableEq

namespace State

def names : List String := ["Scanning", "Stable", "ResourceExceeded", "SyntaxFailed"]

def name : State → String
  | scanning => "Scanning"
  | stable => "Stable"
  | resourceExceeded => "ResourceExceeded"
  | syntaxFailed => "SyntaxFailed"

def ofFault : Option Fault → State
  | none => stable
  | some fault => if fault.exceedsResources then resourceExceeded else syntaxFailed

end State

structure Result where
  passes : Nat := 0
  code : Array UInt8 := #[]
  symbols : Option Table := none
  diagnostics : Diagnostics
  listing : List ListingEntry := []
  fault : Option Fault

def Result.state (r : Result) : State := .ofFault r.fault

inductive Outcome where
  | finished (result : Result)
  /-- The run broke off at a part of a binary file that does not exist. -/
  | outOfBounds

namespace Assembly

def aborted (passes : Nat) (found : Diagnostics) (fault : Fault) : Result :=
  { passes, diagnostics := found ++ [.of .fatal {} passes fault], fault := some fault }

/-- The ledger that each pass starts with: the predefined constants, in the order of their names. -/
def predefined (s : Settings) : Ledger :=
  (Sorted.entries s.predefined).foldl
    (fun l (name, value) =>
      match l.define { name, value, scope := .predefined, seq := -1 } with
      | .ok l => l
      | .error _ => l)
    (.new s.labelLimit)

def compileFault? (ds : Diagnostics) : Option Fault :=
  if ds.errors = 0 then none
  else some (.about .compile (Text.ofNat ds.errors ++ bytes " errors"))

/-- The reports of what still changes in the last pass that is allowed. -/
def unstable (index : Nat) (next : Table) (changed : List Text) : Diagnostics :=
  if changed.isEmpty then [.of .error {} index (.plain .unstable)]
  else changed.map fun name =>
    let pos := match next.get? name with
      | some s => s.pos
      | none => {}
    .of .error pos index (.about .unstable name)

def final (index : Nat) (w : Walk) (next : Table) (diagnostics : Diagnostics) : Result :=
  { passes := index, code := w.code, symbols := some next, diagnostics
    listing := w.entries.toList, fault := compileFault? diagnostics }

/-- Walks the program in pass `index`, and in up to `left` further ones.  `cancelled` tells before which
    passes the run is called off; `found` are the diagnostics from before the passes. -/
def resolve (s : Settings) (cancelled : Nat → Bool) (program : List Statement) (found : Diagnostics) :
    Nat → Nat → Table → Array Nat → Outcome
  | left, index, prev, sizes =>
    if cancelled index then
      .finished (aborted (index - 1) found (.about .cancelled (bytes "context canceled")))
    else
      let w := Pass.walk { index, prev, listing := s.listing } (predefined s) program
      match w.stop with
      | some .outOfBounds => .outOfBounds
      | some (.limit d) =>
        .finished { passes := index, symbols := some prev, diagnostics := found ++ [d]
                    fault := d.fault }
      | none =>
        let next := w.ledger.freeze prev index
        let changed := next.diff prev
        let found' := found ++ w.diagnostics.toList
        if changed.isEmpty && w.sizes == sizes then .finished (final index w next found')
        else match left with
          | 0 => .finished (final index w next (found' ++ unstable index next changed))
          | left + 1 => resolve s cancelled program found left (index + 1) next w.sizes

def neverCancelled : Nat → Bool := fun _ => false

def assembleText (s : Settings) (cancelled : Nat → Bool) (file data : Text) : Outcome :=
  let loaded := Source.load s Source.includeLimit file data {}
  let found := loaded.diagnostics.toList
  match loaded.fatal with
  | some fault => .finished { diagnostics := found, fault := some fault }
  | none =>
    let expanded := Macro.expand s Macro.depthLimit loaded.lines.toList {}
    let built := Program.build s expanded.lines.toList
    let found := found ++ expanded.diagnostics.toList ++ built.diagnostics.toList
    match built.fatal with
    | some fault => .finished { diagnostics := found, fault := some fault }
    | none =>
      resolve s cancelled built.program found (s.passLimit - 1) 1 ((predefined s).freeze .empty 0) #[]

/-- The end of a run whose source cannot be read. -/
def unreadable (file : Text) (reason : Fault) : Outcome :=
  .finished (aborted 0 [] (.file file reason))

def assembleFile (s : Settings) (cancelled : Nat → Bool) (file : Text) : Outcome :=
  match s.read file with
  | .ok data => assembleText s cancelled file data
  | .error fault => unreadable file fault

end Assembly

end Z80Asm
