import Z80Asm.Diagnostic
import Z80Asm.Settings
import Z80Asm.Token.Lex
import Z80Asm.Token.Split

/-!
# Source lines

Loading turns a source file into lines of tokens.  The lines of an included file follow the line that
includes it; `end` ends its file; the rows of a script are kept as the text of the line that starts it.
A file that cannot be found ends the loading.
-/

namespace Z80Asm

structure Line where
  pos : Pos
  text : Text
  tokens : List Token
  fault : Option Fault := none
  script : Option Text := none
  deriving Repr, DecidableEq

structure Loading where
  lines : Array Line := #[]
  diagnostics : Array Diagnostic := #[]
  fatal : Option Fault := none

namespace Loading

def push (st : Loading) (line : Line) : Loading := { st with lines := st.lines.push line }

def fail (st : Loading) (pos : Pos) (fault : Fault) : Loading :=
  { st with diagnostics := st.diagnostics.push (.of .error pos 1 fault) }

def abort (st : Loading) (pos : Pos) (fault : Fault) : Loading :=
  { st with diagnostics := st.diagnostics.push (.of .fatal pos 1 fault), fatal := some fault }

end Loading

namespace Source

def includeLimit : Nat := 32

/-- Loads the file that an include directive names.  `load` loads the contents of a file; it is missing
    where no further file may be included. -/
def insertFile (s : Settings) (load : Option (Text → Text → Loading → Loading)) (pos : Pos)
    (args : List Token) (st : Loading) : Loading :=
  let (name, rest) := Token.fileName args
  if name.isEmpty then st.fail pos (.plain .operandsMissing)
  else if !rest.isEmpty then st.fail pos (.about .operandsExtra (Token.renderAll rest))
  else match load with
    | none => st.fail pos (.about .includeNesting name)
    | some load =>
      match s.find name pos.file with
      | .error fault => st.abort pos fault
      | .ok (path, data) => load path data st

def endsScript (dialect : Dialect) (row : Text) : Bool :=
  Token.bodyIs .endscript (lex dialect row).tokens

/-- Loads rows of a file from number `n` on, after passing over `skip` of them. -/
def loadRows (s : Settings) (file : Text) (insert : Pos → List Token → Loading → Loading) :
    Nat → Nat → List Text → Loading → Loading
  | _, _, [], st => st
  | n, skip + 1, _ :: rest, st => loadRows s file insert (n + 1) skip rest st
  | n, 0, row :: rest, st =>
    let pos : Pos := { file, line := n }
    let lexed := lex s.dialect row
    let line : Line := { pos, text := row, tokens := lexed.tokens, fault := lexed.fault }
    if lexed.fault.isSome then loadRows s file insert (n + 1) 0 rest (st.push line)
    else if Token.bodyIs .insert lexed.tokens then
      let st := insert pos ((Token.body lexed.tokens).drop 1) (st.push line)
      if st.fatal.isSome then st else loadRows s file insert (n + 1) 0 rest st
    else if Token.bodyIs .finish lexed.tokens then st.push line
    else if Token.bodyIs .script lexed.tokens then
      let rows := rest.takeWhile (!endsScript s.dialect ·)
      let st := if rows.length < rest.length then st else st.fail pos (.plain .scriptLonely)
      let script := Text.join (bytes "\n") rows ++ bytes "\n"
      loadRows s file insert (n + 1) (rows.length + 1) rest (st.push { line with script })
    else loadRows s file insert (n + 1) 0 rest (st.push line)

/-- Loads the contents of a file that may include files to a depth. -/
def load (s : Settings) : Nat → Text → Text → Loading → Loading
  | 0, file, data, st => loadRows s file (insertFile s none) 1 0 (Text.lines data) st
  | depth + 1, file, data, st =>
    loadRows s file (insertFile s (some (load s depth))) 1 0 (Text.lines data) st

end Source

end Z80Asm
