import Z80Asm.Script.Store

/-!
# Comparing values

Values of one type are compared by what they hold, integers and numbers with a fraction by their size, and all
others are different.  Nested values are compared to a certain depth only.
-/

namespace Z80Asm.Script

def Binary.holds (op : Binary) (order : Ordering) : Bool :=
  match op with
  | .eq => order == .eq
  | .ne => order != .eq
  | .lt => order == .lt
  | .le => order != .gt
  | .gt => order == .gt
  | .ge => order != .lt
  | _ => false

def unordered (op : Binary) (x y : Value) (same : Bool) : Except Failure Bool :=
  match op with
  | .eq => .ok same
  | .ne => .ok !same
  | _ => .error (.unordered op x.kind y.kind)

/-- Compares sequences: by their first different items, else by length. -/
def compareItems (item : Binary → Value → Value → Except Failure Bool) (op : Binary) :
    List Value → List Value → Except Failure Bool
  | [], [] => .ok (op.holds .eq)
  | [], _ :: _ => .ok (op.holds .lt)
  | _ :: _, [] => .ok (op.holds .gt)
  | x :: xs, y :: ys => do
    if ← item .eq x y then compareItems item op xs ys
    else match op with
      | .eq => return false
      | .ne => return true
      | _ => item op x y

/-- Compares sequences; those of different lengths are different. -/
def compareSequences (item : Binary → Value → Value → Except Failure Bool) (op : Binary)
    (xs ys : List Value) : Except Failure Bool :=
  if xs.length != ys.length && (op == .eq || op == .ne) then .ok (op == .ne) else compareItems item op xs ys

def findEntry (equal : Value → Value → Except Failure Bool) (key : Value) :
    List (Value × Value) → Option (Value × Value)
  | [] => none
  | e :: es =>
    match equal key e.1 with
    | .ok true => some e
    | _ => findEntry equal key es

def sameEntries (equal : Value → Value → Except Failure Bool) (others : List (Value × Value)) :
    List (Value × Value) → Except Failure Bool
  | [] => .ok true
  | (key, v) :: rest =>
    match findEntry equal key others with
    | none => .ok false
    | some (_, w) => do
      if ← equal v w then sameEntries equal others rest else return false

def compareDepth (store : Store) : Nat → Binary → Value → Value → Except Failure Bool
  | 0, _, _, _ => .error .comparisonDepth
  | depth + 1, op, x, y =>
    let item := compareDepth store depth
    match x, y with
    | .none, .none => unordered op x y true
    | .bool a, .bool b => .ok (op.holds (compare a.toNat b.toNat))
    | .int a, .int b => .ok (op.holds (compare a b))
    | .float a, .float b => .ok (op.holds (a.order b))
    | .int a, .float b => .ok (op.holds (b.orderInt a))
    | .float a, .int b => .ok (op.holds (a.orderInt b).swap)
    | .str a, .str b => .ok (op.holds (compare a b))
    | .octets a, .octets b => .ok (op.holds (compare a b))
    | .tuple a, .tuple b => compareSequences item op a b
    | .list a, .list b => compareSequences item op (store.items a).toList (store.items b).toList
    | .range a, .range b => unordered op x y (a.same b)
    | .parts p a, .parts q b => unordered op x y (p == q && a == b)
    | .dict a, .dict b =>
      match op with
      | .eq | .ne => do
        let (es, fs) := ((store.entries a).toList, (store.entries b).toList)
        let same ← if es.length = fs.length then sameEntries (item .eq) fs es else pure false
        return same == (op == .eq)
      | _ => .error (.unordered op x.kind y.kind)
    | .function a _ _ _ _, .function b _ _ _ _ => unordered op x y (a == b)
    | .builtin a, .builtin b => unordered op x y (a == b)
    | .method a _ _, .method b _ _ => unordered op x y (a == b)
    | _, _ => unordered op x y false

def comparisonLimit : Nat := 10

def compareValues (op : Binary) (x y : Value) : Step Bool := do
  settle (compareDepth (← get) comparisonLimit op x y)

/-! ## Keys -/

mutual

/-- A value that can be a key; lists, dictionaries and ranges cannot. -/
def hashable : Value → Except Failure Unit
  | .list _ => .error (.unhashable (bytes "list"))
  | .dict _ => .error (.unhashable (bytes "dict"))
  | .range _ => .error (.unhashable (bytes "range"))
  | .parts part t => .error (.unhashable (Value.parts part t).kind)
  | .tuple items => hashableAll items
  | _ => .ok ()

def hashableAll : List Value → Except Failure Unit
  | [] => .ok ()
  | v :: vs =>
    match hashable v with
    | .ok _ => hashableAll vs
    | .error e => .error e

end

def keyIndex? (store : Store) (key : Value) (entries : Array (Value × Value)) : Option Nat :=
  entries.findIdx? fun e =>
    match compareDepth store comparisonLimit .eq key e.1 with
    | .ok same => same
    | .error _ => false

def lookupKey (address : Nat) (key : Value) : Step (Option Value) := do
  settle (hashable key)
  let store ← get
  let entries := store.entries address
  return (keyIndex? store key entries).bind fun i => (entries[i]?).map (·.2)

/-- Sets the value of a key, which keeps its place if it is there already.  Says whether the key is new. -/
def setKey (address : Nat) (key value : Value) : Step Bool := do
  requireDictFree "insert into" address
  settle (hashable key)
  let place := keyIndex? (← get) key ((← get).entries address)
  match place with
  | some i => modifyDict address fun es => es.modify i fun e => (e.1, value)
  | none => modifyDict address fun es => es.push (key, value)
  return place.isNone

end Z80Asm.Script
