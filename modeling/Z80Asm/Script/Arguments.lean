import Z80Asm.Script.Operate
import Z80Asm.Script.Spelling

/-!
# Arguments of built-in functions

Built-in functions take their arguments by position only, or each by position or by name.  Either way their
number and types are checked one after the other.
-/

namespace Z80Asm.Script

structure Arguments where
  plain : List Value
  named : List (Text × Value) := []

inductive Want where
  | any | string | bool | int | iterable | callable
  deriving Repr, DecidableEq

def Want.refusal? (want : Want) (v : Value) : Option Text :=
  let wrong (kind : String) : Option Text := some (bytes "got " ++ v.kind ++ bytes ", want " ++ bytes kind)
  match want, v with
  | .any, _ => none
  | .string, .str _ => none
  | .string, _ => wrong "string"
  | .bool, .bool _ => none
  | .bool, _ => wrong "bool"
  | .int, .int n =>
    if Int64.minValue.toInt ≤ n && n ≤ Int64.maxValue.toInt then none
    else some (Text.ofInt n ++ bytes " out of range (want value in signed 64-bit range)")
  | .int, _ => wrong "int"
  | .iterable, .list _ => none
  | .iterable, .tuple _ => none
  | .iterable, .dict _ => none
  | .iterable, .range _ => none
  | .iterable, .parts _ _ => none
  | .iterable, _ => wrong "iterable"
  | .callable, .function .. => none
  | .callable, .builtin _ => none
  | .callable, .method .. => none
  | .callable, _ => wrong "callable"

def complainOf {α : Type} (function : Text) (text : Text) : Step α :=
  complain (function ++ bytes ": " ++ text)

def naming {α : Type} (function : Text) (x : Step α) : Step α :=
  tryCatch x fun e => complainOf function e.message

def givenText (n : Nat) : Text := bytes "got " ++ Text.ofNat n ++ bytes " arguments, want "

/-- Checks arguments by position in turn, the first being number `i`. -/
def checkPlain (function : Text) : Nat → List Want → List Value → Step Unit
  | i, want :: wants, v :: vs =>
    match want.refusal? v with
    | some text => complainOf function (bytes "for parameter " ++ Text.ofNat i ++ bytes ": " ++ text)
    | none => checkPlain function (i + 1) wants vs
  | _, _, _ => return ()

/-- Arguments that are given by position only, the last ones perhaps not at all. -/
def byPosition (function : Text) (args : Arguments) (least : Nat) (wants : List Want) : Step (List Value) := do
  if !args.named.isEmpty then complainOf function (bytes "unexpected keyword arguments")
  let count := args.plain.length
  let most := wants.length
  if count < least then
    complainOf function (givenText count ++ (if least < most then bytes "at least " else [])
      ++ Text.ofNat least)
  if count > most then
    complainOf function (givenText count ++ (if most > least then bytes "at most " else [])
      ++ Text.ofNat most)
  checkPlain function 1 wants args.plain
  return args.plain

structure Slot where
  name : String
  want : Want
  optional : Bool := true

def plainSlots (function : Text) : List Slot → List Value → Step (List (Option Value))
  | [], _ => return []
  | slots, [] => return slots.map fun _ => none
  | slot :: slots, v :: vs =>
    match slot.want.refusal? v with
    | some text =>
      complainOf function (bytes "for parameter " ++ bytes slot.name ++ bytes ": " ++ text)
    | none => return some v :: (← plainSlots function slots vs)

/-- The names that a hint is taken from: those of the first half of the parameters. -/
def hintNames (slots : List Slot) : List Text :=
  (List.range ((slots.length + 1) / 2)).filterMap fun i => (slots[i]?).map fun s => bytes s.name

def nameSlot (function : Text) (slots : List Slot) (values : List (Option Value)) (name : Text) (v : Value) :
    Step (List (Option Value)) := do
  match slots.findIdx? fun s => bytes s.name == name with
  | none =>
    complainOf function (bytes "unexpected keyword argument " ++ Text.quote name
      ++ Spelling.hint [] name (hintNames slots))
  | some i =>
    if (values[i]?.join).isSome then
      complainOf function (bytes "got multiple values for keyword argument " ++ Text.quote name)
    match (slots[i]?).bind fun s => s.want.refusal? v with
    | some text =>
      complainOf function (bytes "for parameter " ++ Text.quote name ++ bytes ": " ++ text)
    | none => return values.set i (some v)

def byName (function : Text) (args : Arguments) (slots : List Slot) : Step (List (Option Value)) := do
  if args.plain.length > slots.length then
    complainOf function (givenText args.plain.length ++ bytes "at most " ++ Text.ofNat slots.length)
  let plain ← plainSlots function slots args.plain
  let values ← args.named.foldlM (fun values (name, v) => nameSlot function slots values name v) plain
  let missing := (slots.zip values).find? fun (s, v) => !s.optional && v.isNone
  match missing with
  | some (s, _) => complainOf function (bytes "missing argument for " ++ bytes s.name)
  | none => return values

/-- The one argument of a function that takes nothing else; the wording of its complaint is its own. -/
def single (function : String) (args : Arguments) (wanted : String) : Step Value := do
  if !args.named.isEmpty then complain (bytes function ++ bytes " does not accept keyword arguments")
  match args.plain with
  | [v] => return v
  | vs => complain (bytes function ++ bytes ": " ++ givenText vs.length ++ bytes wanted)

end Z80Asm.Script
