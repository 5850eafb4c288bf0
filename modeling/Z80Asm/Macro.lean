import Std.Data.TreeMap
import Z80Asm.Source

/-!
# Macros

Expansion takes macro definitions out of the lines and puts the lines of their bodies in place of their
uses.  In a body, parameters become the tokens of the arguments, and local words get a name of their
own for each use: `name>number.word`, where no word of a source has a `>`.
-/

namespace Z80Asm

structure Macro where
  name : Text
  params : List Text
  body : List Line

structure Expansion where
  macros : Std.TreeMap Text Macro := ∅
  uses : Nat := 0
  lines : Array Line := #[]
  diagnostics : Array Diagnostic := #[]

namespace Expansion

def push (st : Expansion) (line : Line) : Expansion := { st with lines := st.lines.push line }

def fail (st : Expansion) (pos : Pos) (fault : Fault) : Expansion :=
  { st with diagnostics := st.diagnostics.push (.of .error pos 1 fault) }

def failWith (st : Expansion) (pos : Pos) : Option Fault → Expansion
  | none => st
  | some fault => st.fail pos fault

end Expansion

namespace Macro

def depthLimit : Nat := 64

/-! ## Definitions -/

/-- The lines up to the `endm` that ends a definition, and whether there is one.  Definitions inside it
    have an `endm` of their own; `nest` of them are open. -/
def bodyLines : Nat → List Line → List Line × Bool
  | _, [] => ([], false)
  | nest, line :: rest =>
    if Token.bodyIs .endm line.tokens then
      match nest with
      | 0 => ([], true)
      | nest + 1 =>
        let (body, closed) := bodyLines nest rest
        (line :: body, closed)
    else
      let (body, closed) :=
        bodyLines (if Token.bodyIs .define line.tokens then nest + 1 else nest) rest
      (line :: body, closed)

/-- The name of a definition, its parameter tokens, and whether it is in the Compass form: a label is
    the name, or the first word after `macro`. -/
def heading (label : Option Token) (args : List Token) : Option Text × List Token × Bool :=
  match label with
  | some label => (some label.text, args, false)
  | none =>
    match args with
    | first :: rest =>
      match first.word? with
      | some name => (some name, rest, true)
      | none => (none, args, false)
    | [] => (none, args, false)

def headingFault? (dialect : Dialect) (name : Option Text) (params : List (List Token))
    (compass : Bool) : Option Fault :=
  if name.isNone then some (.about .macroSyntax (bytes "name missing"))
  else match params.find? (Token.singleWord? · |>.isNone) with
    | some param => some (.about .macroSyntax (Token.renderAll param))
    | none =>
      if compass && dialect == .native then
        some (.about .compassOnly (bytes "macro " ++ name.getD []))
      else none

/-- Records the definition that `line` starts, with the lines after it; gives also how many of them
    belong to it. -/
def define (s : Settings) (line : Line) (label : Option Token) (args : List Token) (after : List Line)
    (st : Expansion) : Expansion × Nat :=
  let (name, args, wordForm) := heading label args
  let groups := Token.splitArgs args
  let params := groups.filterMap Token.singleWord?
  let compass := wordForm || params.any (·.head? == some '@'.toUInt8)
  let (body, closed) := bodyLines 0 after
  let size := body.length + 1
  let st := if closed then st else st.fail line.pos (.inMacro (name.getD []) (.plain .macroLonely))
  let st := st.failWith line.pos (headingFault? s.dialect name groups compass)
  match name with
  | none => (st, size)
  | some name =>
    if st.macros.contains name then
      (st.fail line.pos (.inMacro name (.plain .macroDuplicate)), size)
    else ({ st with macros := st.macros.insert name { name, params, body } }, size)

/-! ## Uses -/

/-- The word of a local label without its first byte: `.word` in either dialect, `@word` in the Compass
    dialect. -/
def localWord? (dialect : Dialect) : Text → Option Text
  | a :: b :: rest =>
    if a = '.'.toUInt8 || (a = '@'.toUInt8 && dialect == .compass) then some (b :: rest) else none
  | _ => none

def localName (name : Text) (use : Nat) (word : Text) : Text :=
  name ++ bytes ">" ++ Text.ofNat use ++ bytes "." ++ word

def placed (param : Token) : List Token → List Token
  | [] => []
  | first :: rest =>
    { first with col := param.col, space := param.space } :: rest.map ({ · with col := param.col })

def substituteToken (dialect : Dialect) (args : List (Text × List Token)) (name : Text) (use : Nat)
    (tok : Token) : List Token :=
  match tok.word? with
  | none => [tok]
  | some word =>
    match args.lookup word with
    | some arg => placed tok arg
    | none =>
      match localWord? dialect word with
      | some rest => [{ tok with lexeme := .word (localName name use rest) .name }]
      | none => [tok]

/-- A line of a body, placed where the macro is used. -/
def substituteLine (dialect : Dialect) (pos : Pos) (args : List (Text × List Token)) (name : Text)
    (use : Nat) (line : Line) : Line :=
  { line with pos, tokens := line.tokens.flatMap (substituteToken dialect args name use) }

def labelLine (line : Line) (label : Token) : Line :=
  { pos := line.pos
    text := line.text
    tokens := [{ label with col := 1 }, { lexeme := .sign .colon, col := 1, space := false }] }

/-- Expands a use of a macro.  `expand` expands the lines of its body; it is missing where no further
    use may be expanded. -/
def invoke (s : Settings) (expand : Option (List Line → Expansion → Expansion)) (line : Line)
    (label : Option Token) (m : Macro) (args : List Token) (st : Expansion) : Expansion :=
  let st := match label with
    | some label => st.push (labelLine line label)
    | none => st
  match expand with
  | none => st.fail line.pos (.inMacro m.name (.plain .macroNesting))
  | some expand =>
    let args := Token.splitArgs args
    if args.length ≠ m.params.length then
      st.fail line.pos (.macroArgs m.name m.params.length args.length)
    else
      let use := st.uses + 1
      let lines := m.body.map (substituteLine s.dialect line.pos (m.params.zip args) m.name use)
      expand lines { st with uses := use }

/-! ## Expansion -/

/-- Expands lines, after passing over `skip` of them. -/
def expandLines (s : Settings) (expand : Option (List Line → Expansion → Expansion)) :
    Nat → List Line → Expansion → Expansion
  | _, [], st => st
  | skip + 1, _ :: rest, st => expandLines s expand skip rest st
  | 0, line :: rest, st =>
    if line.fault.isSome || line.script.isSome then expandLines s expand 0 rest (st.push line)
    else
      let (label, body) := Token.splitLabel line.tokens
      match body with
      | [] => expandLines s expand 0 rest (st.push line)
      | head :: args =>
        if head.isDirective .define then
          let (st, size) := define s line label args rest st
          expandLines s expand size rest st
        else if head.isDirective .endm then
          expandLines s expand 0 rest (st.fail line.pos (.plain .endmLonely))
        else match head.word?.bind (st.macros[·]?) with
          | some m => expandLines s expand 0 rest (invoke s expand line label m args st)
          | none => expandLines s expand 0 rest (st.push line)

def expand (s : Settings) : Nat → List Line → Expansion → Expansion
  | 0, lines, st => expandLines s none 0 lines st
  | depth + 1, lines, st => expandLines s (some (expand s depth)) 0 lines st

end Macro

end Z80Asm
