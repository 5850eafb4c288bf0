import Z80Asm.Script.Value

/-!
# The store of a running script

Variables, and the contents of lists and dictionaries.  A list or dictionary that a loop goes over does not
change: it counts the loops that are going over it.
-/

namespace Z80Asm.Script

structure ListCell where
  items : Array Value
  /-- The number of loops that are going over the list. -/
  loops : Nat := 0

/-- What a dictionary holds: its entries in the order in which their keys came. -/
structure DictCell where
  entries : Array (Value × Value)
  loops : Nat := 0

structure Store where
  globals : Array (Option Value)
  /-- The slots of all functions that were called. -/
  slots : Array (Option Value) := #[]
  lists : Array ListCell := #[]
  dicts : Array DictCell := #[]
  serial : Nat := 0
  /-- The emitted bytes, last byte first. -/
  emitted : List UInt8 := []

abbrev Step := StateT Store (Except Failure)

def stop {α : Type} (why : Failure) : Step α := throw why

def settle {α : Type} (x : Except Failure α) : Step α := liftM x

namespace Store

def items (store : Store) (address : Nat) : Array Value := ((store.lists[address]?).map (·.items)).getD #[]

def entries (store : Store) (address : Nat) : Array (Value × Value) :=
  ((store.dicts[address]?).map (·.entries)).getD #[]

end Store

def newList (items : Array Value) : Step Value :=
  modifyGet fun store =>
    (.list store.lists.size, { store with lists := store.lists.push { items } })

def newDict (entries : Array (Value × Value)) : Step Value :=
  modifyGet fun store =>
    (.dict store.dicts.size, { store with dicts := store.dicts.push { entries } })

def newSerial : Step Nat := modifyGet fun store => (store.serial, { store with serial := store.serial + 1 })

/-- New slots, the first of them with values, and the number of the first one. -/
def newSlots (size : Nat) (values : List (Option Value)) : Step Nat :=
  modifyGet fun store =>
    let slots := values.foldl Array.push store.slots
    (store.slots.size, { store with slots := slots ++ Array.replicate (size - values.length) none })

/-- Stops if a loop goes over a list that is about to change. -/
def requireListFree (verb : String) (address : Nat) : Step Unit := do
  if (((← get).lists[address]?).map (·.loops)).getD 0 > 0 then stop (.duringLoop verb (bytes "list"))

def requireDictFree (verb : String) (address : Nat) : Step Unit := do
  if (((← get).dicts[address]?).map (·.loops)).getD 0 > 0 then stop (.duringLoop verb (bytes "hash table"))

def modifyList (address : Nat) (f : Array Value → Array Value) : Step Unit :=
  modify fun store =>
    { store with lists := store.lists.modify address fun cell => { cell with items := f cell.items } }

def modifyDict (address : Nat) (f : Array (Value × Value) → Array (Value × Value)) : Step Unit :=
  modify fun store =>
    { store with dicts := store.dicts.modify address fun cell => { cell with entries := f cell.entries } }

def changeList (verb : String) (address : Nat) (f : Array Value → Array Value) : Step Unit := do
  requireListFree verb address
  modifyList address f

/-! ## Sequences -/

inductive Sequence where
  | items (items : List Value)
  | range (range : Range)

def Part.items (part : Part) (t : Text) : List Value :=
  let point : Piece → Nat
    | .point p => p
    | .stray _ => 0xFFFD
  match part with
  | .elems => t.map fun b => .str [b]
  | .elemOrds | .byteElems => t.map fun b => .int b.toNat
  | .codepoints => (Text.pieces t).map fun p => .str (Text.ofPoint (point p))
  | .codepointOrds => (Text.pieces t).map fun p => .int (point p)

def Store.sequence? (store : Store) : Value → Option Sequence
  | .tuple items => some (.items items)
  | .range r => some (.range r)
  | .parts part t => some (.items (part.items t))
  | .list address => some (.items (store.items address).toList)
  | .dict address => some (.items ((store.entries address).toList.map (·.1)))
  | _ => none

def Sequence.toList : Sequence → List Value
  | items xs => xs
  | range r => (List.range r.length).map fun i => .int (r.get i)

def overRange {β : Type} (r : Range) (f : β → Value → Step (β × Bool)) : Nat → Nat → β → Step β
  | 0, _, x => return x
  | count + 1, i, x => do
    let (y, more) ← f x (.int (r.get i))
    if more then overRange r f count (i + 1) y else return y

def overItems {β : Type} (f : β → Value → Step (β × Bool)) : List Value → β → Step β
  | [], x => return x
  | v :: vs, x => do
    let (y, more) ← f x v
    if more then overItems f vs y else return y

/-- Goes over a sequence, until `f` says that there is no need for more. -/
def Sequence.fold {β : Type} (s : Sequence) (f : β → Value → Step (β × Bool)) (x : β) : Step β :=
  match s with
  | items xs => overItems f xs x
  | range r => overRange r f r.length 0 x

def countLoop (f : Nat → Nat) : Value → Step Unit
  | .list address =>
    modify fun store =>
      { store with lists := store.lists.modify address fun cell => { cell with loops := f cell.loops } }
  | .dict address =>
    modify fun store =>
      { store with dicts := store.dicts.modify address fun cell => { cell with loops := f cell.loops } }
  | _ => return ()

/-- Goes over the values of a value, which does not change meanwhile. -/
def loopOver {β : Type} (v : Value) (f : β → Value → Step (β × Bool)) (x : β) : Step β := do
  match (← get).sequence? v with
  | none => stop (.notIterable v.kind)
  | some s =>
    countLoop (· + 1) v
    let y ← s.fold f x
    countLoop (· - 1) v
    return y

end Z80Asm.Script
