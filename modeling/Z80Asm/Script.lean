import Z80Asm.Script.Read
import Z80Asm.Script.Resolve
import Z80Asm.Script.Run

/-!
# Scripts

A script computes code and constants.  It sees the symbols of the assembly that it names as integers, the place
where its code goes as `pc`, and adds code by calling `db`.  The integers that it assigns become symbols, unless
their names start with an underscore.
-/

namespace Z80Asm.Script

/-- What a script leaves behind: bytes and integer constants in name order. -/
structure Outcome where
  code : List UInt8
  constants : List (Text × Int)

inductive Stopped where
  /-- The script cannot be read, or its names are wrong. -/
  | problem (file : Text) (problem : Problem)
  | failure (failure : Failure)

def Stopped.message : Stopped → Text
  | problem file p => p.mark.text file ++ bytes ": " ++ p.text
  | failure why => why.message

def builtins : List Builtin :=
  [.abs, .all, .any, .bool, .chr, .dict, .dir, .enumerate, .fail, .float, .getattr, .hasattr, .hash, .int,
   .len, .list, .max, .min, .octets, .ord, .print, .range, .repr, .reversed, .sorted, .str, .tuple, .type,
   .zip]

def everywhere : List (Text × Value) :=
  [(bytes "None", .none), (bytes "True", .bool true), (bytes "False", .bool false)]
    ++ builtins.map fun b => (bytes b.name, .builtin b)

/-- The names that every script knows; `set` is one of them, but cannot be used. -/
def everywhereNames : List Text := bytes "set" :: everywhere.map (·.1)

def names (source : Text) : List Text :=
  (tokens source).filterMap fun
    | .ok { tok := .name name, .. } => some name
    | _ => none

def constants (names : List Text) (values : List (Option Value)) : List (Text × Int) :=
  let ints := (names.zip values).filterMap fun (name, v) =>
    match v with
    | some (.int n) => if name.head? = some '_'.toUInt8 then none else some (name, n)
    | _ => none
  ints.mergeSort fun a b => (compare a.1 b.1).isLE

/-- Runs a script; `file` is the name by which its places are reported. -/
def evaluate (file source : Text) (symbols : List (Text × Int)) (pc : Int) : Except Stopped Outcome := do
  let body ← (read source).mapError (.problem file)
  let named := names source
  let own := (symbols.filter (named.contains ·.1)).map (fun (name, n) => (name, Value.int n))
    ++ [(bytes "pc", .int pc), (bytes "db", .builtin .db)]
  let script ← (resolve file (own.map (·.1)) everywhereNames body).mapError (.problem file)
  let known := (everywhere ++ own).foldl (fun known (name, v) => known.insert name v) ∅
  let start : Store := {
    globals := Array.replicate script.globals.length none
    slots := Array.replicate script.size none }
  let depth := source.length + 16
  let (_, store) ← ((execAll (16 * depth * depth) { known, frames := [0] } script.body).run start).mapError
    .failure
  return {
    code := store.emitted.reverse
    constants := constants script.globals store.globals.toList }

/-- Runs a script; a failure is its message. -/
def run (file source : Text) (symbols : List (Text × Int)) (pc : Int) : Except Text Outcome :=
  (evaluate file source symbols pc).mapError Stopped.message

end Z80Asm.Script
