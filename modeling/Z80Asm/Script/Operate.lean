import Z80Asm.Script.Format

/-!
# Operations on values

Division rounds down, a remainder has the sign of its divisor, and the bitwise operations treat a negative
number as having infinitely many leading ones.
-/

namespace Z80Asm.Script

/-! ## Bitwise operations -/

def bitAnd : Int → Int → Int
  | .ofNat m, .ofNat n => Int.ofNat (m &&& n)
  | .ofNat m, .negSucc n => Int.ofNat (m - (m &&& n))
  | .negSucc m, .ofNat n => Int.ofNat (n - (n &&& m))
  | .negSucc m, .negSucc n => Int.negSucc (m ||| n)

def bitOr : Int → Int → Int
  | .ofNat m, .ofNat n => Int.ofNat (m ||| n)
  | .ofNat m, .negSucc n => Int.negSucc (n - (n &&& m))
  | .negSucc m, .ofNat n => Int.negSucc (m - (m &&& n))
  | .negSucc m, .negSucc n => Int.negSucc (m &&& n)

def bitXor : Int → Int → Int
  | .ofNat m, .ofNat n => Int.ofNat (m ^^^ n)
  | .ofNat m, .negSucc n => Int.negSucc (m ^^^ n)
  | .negSucc m, .ofNat n => Int.negSucc (m ^^^ n)
  | .negSucc m, .negSucc n => Int.ofNat (m ^^^ n)

/-! ## Arithmetic -/

/-- The largest shift to the left, excluded. -/
def shiftLimit : Int := 512

def shift (op : Binary) (x : Int) (count : Value) : Except Failure Value := do
  let n ← count.small.mapError .badInt
  if n < 0 then throw (.shiftNegative n)
  match op with
  | .shl => if n ≥ shiftLimit then throw (.shiftLarge n) else return .int (x * (1 <<< n.toNat : Nat))
  | _ => return .int (x >>> n.toNat)

def arithmetic (op : Binary) (x y : Int) : Option (Except Failure Value) :=
  match op with
  | .add => some (.ok (.int (x + y)))
  | .sub => some (.ok (.int (x - y)))
  | .mul => some (.ok (.int (x * y)))
  | .floorDiv => some (if y = 0 then .error (.zeroDivision .floor) else .ok (.int (x.fdiv y)))
  | .mod => some (if y = 0 then .error (.zeroDivision .intRemainder) else .ok (.int (x.fmod y)))
  | .bitAnd => some (.ok (.int (bitAnd x y)))
  | .bitOr => some (.ok (.int (bitOr x y)))
  | .bitXor => some (.ok (.int (bitXor x y)))
  | _ => none

def floatArithmetic (op : Binary) (x y : Double) : Option (Except Failure Value) :=
  match op with
  | .add => some (.ok (.float (x.add y)))
  | .sub => some (.ok (.float (x.sub y)))
  | .mul => some (.ok (.float (x.mul y)))
  | .div => some (if y.isZero then .error (.zeroDivision .float) else .ok (.float (x.div y)))
  | .floorDiv => some (if y.isZero then .error (.zeroDivision .floor) else .ok (.float (x.div y).floor))
  | .mod => some (if y.isZero then .error (.zeroDivision .floatRemainder) else .ok (.float (x.mod y)))
  | _ => none

def mixedArithmetic (op : Binary) (x y : Value) : Option (Except Failure Value) :=
  match x.toFloat, y.toFloat with
  | .ok (some a), .ok (some b) => floatArithmetic op a b
  | .error e, .ok (some b) => (floatArithmetic op b b).map fun _ => .error e
  | .ok (some a), .error e => (floatArithmetic op a a).map fun _ => .error e
  | .error e, .error _ => (floatArithmetic op (.zero false) (.zero false)).map fun _ => .error e
  | _, _ => none

/-! ## Sequences -/

/-- The largest result of a repetition, excluded. -/
def repeatLimit : Nat := 1 <<< 30

/-- The number of copies that a repetition of something of a size makes. -/
def copyCount (size : Nat) (count : Int) : Except Failure Nat := do
  if size = 0 then return 0
  let n ← (Value.int count).small.mapError fun _ => .repeatCount count
  if n < 1 then return 0
  if size * n.toNat ≥ repeatLimit then throw (.repeatSize size n)
  return n.toNat

def copies {α : Type} (count : Int) (xs : List α) : Except Failure (List α) := do
  return (List.replicate (← copyCount xs.length count) xs).flatten

def repetition (count : Int) : Value → Option (Step Value)
  | .str t => some do return .str (← settle (copies count t))
  | .octets t => some do return .octets (← settle (copies count t))
  | .tuple xs => some do return .tuple (← settle (copies count xs))
  | .list a => some do newList (← settle (copies count ((← get).items a).toList)).toArray
  | _ => none

def concatenation : Value → Value → Option (Step Value)
  | .str a, .str b => some (return .str (a ++ b))
  | .octets a, .octets b => some (return .octets (a ++ b))
  | .tuple a, .tuple b => some (return .tuple (a ++ b))
  | .list a, .list b => some do newList ((← get).items a ++ (← get).items b)
  | _, _ => none

/-- The entries of two dictionaries; those of the second prevail. -/
def union : Value → Value → Option (Step Value)
  | .dict a, .dict b => some do
    let v ← newDict ((← get).entries a)
    if let .dict c := v then
      for (key, value) in (← get).entries b do
        let _ ← setKey c key value
    return v
  | _, _ => none

def isPart (t : Text) : Text → Bool
  | [] => t.isEmpty
  | b :: rest => t.isPrefixOf (b :: rest) || isPart t rest

def isAmong (x : Value) : List Value → Step Bool
  | [] => return false
  | v :: vs => do if ← compareValues .eq v x then return true else isAmong x vs

def Range.holds (r : Range) (n : Int) : Bool :=
  match (Value.int n).small with
  | .error _ => false
  | .ok n =>
    let gap := n - r.start
    gap.tmod r.step == 0 && 0 ≤ gap.tdiv r.step && gap.tdiv r.step < r.length

def complain {α : Type} (text : Text) : Step α := stop (.complaint text)

def isPartOf (x y : Value) : Step Bool :=
  match x, y with
  | x, .list a => do isAmong x ((← get).items a).toList
  | x, .tuple ys => isAmong x ys
  | x, .dict a => do
    match hashable x with
    | .ok _ => return (← lookupKey a x).isSome
    | .error _ => return false
  | .str t, .str u => return isPart t u
  | x, .str _ => complain (bytes "'in <string>' requires string as left operand, not " ++ x.kind)
  | .octets t, .octets u => return isPart t u
  | .int n, .octets u =>
    if 0 ≤ n && n < 256 then return u.contains (UInt8.ofNat n.toNat)
    else complain (bytes "int in bytes: " ++ Text.ofInt n
      ++ bytes " out of range (want value in unsigned 8-bit range)")
  | x, .octets _ => complain (bytes "'in bytes' requires bytes or int as left operand, not " ++ x.kind)
  | x, .range r =>
    match x.toInt with
    | .ok n => return r.holds n
    | .error _ => complain (bytes "'in <range>' requires integer as left operand, not " ++ x.kind)
  | x, y => stop (.binary .isIn x.kind y.kind)

/-! ## Operations -/

def Binary.apply (op : Binary) (x y : Value) : Step Value :=
  let unknown : Step Value := stop (.binary op x.kind y.kind)
  match op with
  | .eq | .ne | .lt | .le | .gt | .ge => return .bool (← compareValues op x y)
  | .isIn => return .bool (← isPartOf x y)
  | .notIn => return .bool !(← isPartOf x y)
  | .shl | .shr =>
    match x with
    | .int n => settle (shift op n y)
    | _ => unknown
  | _ =>
    let numeric := match x, y with
      | .int a, .int b => if op == .div then mixedArithmetic op x y else arithmetic op a b
      | _, _ => mixedArithmetic op x y
    match numeric with
    | some answer => settle answer
    | none =>
      let other : Option (Step Value) := match op, x, y with
        | .add, x, y => concatenation x y
        | .mul, .int n, y => repetition n y
        | .mul, x, .int n => repetition n x
        | .mod, .str t, y => some do return .str (← settle (format (← get) t y))
        | .bitOr, x, y => union x y
        | _, _, _ => none
      other.getD unknown

/-- Changes a value by an operation: a list takes in the values that are added to it. -/
def Binary.change (op : Binary) (x y : Value) : Step Value := do
  match op, x, (← get).sequence? y with
  | .add, .list a, some s =>
    changeList "apply += to" a (· ++ s.toList.toArray)
    return x
  | .bitOr, .dict a, _ =>
    match y with
    | .dict b =>
      requireDictFree "apply |= to" a
      for (key, value) in (← get).entries b do
        let _ ← setKey a key value
      return x
    | _ => op.apply x y
  | _, _, _ => op.apply x y

def Store.truth (store : Store) : Value → Bool
  | .none => false
  | .bool b => b
  | .int n => n != 0
  | .float x => !x.isZero
  | .str t => !t.isEmpty
  | .octets t => !t.isEmpty
  | .tuple xs => !xs.isEmpty
  | .range r => r.length != 0
  | .parts _ _ => true
  | .list a => !(store.items a).isEmpty
  | .dict a => !(store.entries a).isEmpty
  | .function .. => true
  | .builtin _ => true
  | .method .. => true

def Unary.apply (op : Unary) (x : Value) : Step Value :=
  match op, x with
  | .not, x => return .bool !((← get).truth x)
  | .neg, .int n => return .int (-n)
  | .plus, .int n => return .int n
  | .invert, .int n => return .int (-n - 1)
  | .neg, .float x => return .float x.neg
  | .plus, .float x => return .float x
  | op, x => stop (.unary op x.kind)

/-! ## Items -/

def Store.length? (store : Store) : Value → Option Nat
  | .str t => some t.length
  | .octets t => some t.length
  | .tuple xs => some xs.length
  | .range r => some r.length
  | .parts .elems t | .parts .elemOrds t | .parts .byteElems t => some t.length
  | .list a => some (store.items a).size
  | .dict a => some (store.entries a).size
  | _ => none

def Store.item? (store : Store) (i : Nat) : Value → Option Value
  | .str t => (t[i]?).map fun b => .str [b]
  | .octets t => (t[i]?).map fun b => .int b.toNat
  | .tuple xs => xs[i]?
  | .range r => some (.int (r.get i))
  | .parts part t => (part.items t)[i]?
  | .list a => (store.items a)[i]?
  | _ => none

/-- The place that an index means; negative ones count from the end. -/
def place (kind : Text) (size : Nat) (i : Int) : Except Failure Nat :=
  let j := if i < 0 then i + size else i
  if j < 0 || j ≥ size then .error (.indexRange kind i size) else .ok j.toNat

def Value.item (x i : Value) : Step Value := do
  match x, (← get).length? x with
  | .dict a, _ =>
    match ← lookupKey a i with
    | some v => return v
    | Option.none => stop (.noKey ((← get).represent i) x.kind)
  | x, some size =>
    let n ← settle (i.small.mapError (.index x.kind))
    let j ← settle (place x.kind size n)
    return ((← get).item? j x).getD .none
  | x, Option.none => stop (.notIndexable x.kind i.kind)

def Value.setItem (x i v : Value) : Step Unit := do
  match x with
  | .dict a =>
    let _ ← setKey a i v
  | .list a =>
    let n ← settle (i.small.mapError .badInt)
    let j ← settle (place x.kind ((← get).items a).size n)
    changeList "assign to element of" a fun xs => xs.setIfInBounds j v
  | x => stop (.noItemAssignment x.kind)

/-! ## Slices -/

/-- A bound of a slice; what is missing or `None` is the default. -/
def sliceBound (which : String) (size : Nat) (default : Int) : Option Value → Except Failure Int
  | none => .ok default
  | some .none => .ok default
  | some v => do
    let n ← v.small.mapError (.sliceBound which)
    return if n < 0 then n + size else n

def clamp (low high n : Int) : Int := if n < low then low else if n > high then high else n

/-- The first place, the place after the last, and the step of a slice. -/
def slicePlaces (size : Nat) (low high step : Option Value) : Except Failure (Int × Int × Int) := do
  let step ← match step with
    | none => pure 1
    | some .none => pure 1
    | some v => v.small.mapError .sliceStep
  if step = 0 then throw .sliceStepZero
  if step > 0 then
    let start := clamp 0 size (← sliceBound "start" size 0 low)
    let stop := clamp 0 size (← sliceBound "end" size size high)
    return (start, max start stop, step)
  else
    let last : Int := size - 1
    let start := min last (← sliceBound "start" size last low)
    let stop := max (-1) (← sliceBound "end" size (-1) high)
    return (max start stop, stop, step)

def placeCount (start stop step : Int) : Nat :=
  if step > 0 then ((stop - start + step - 1) / step).toNat else ((start - stop - step - 1) / -step).toNat

def atPlaces {α : Type} (xs : Array α) (places : Int × Int × Int) : List α :=
  let (start, stop, step) := places
  (List.range (placeCount start stop step)).filterMap fun (i : Nat) => xs[(start + step * i).toNat]?

def Value.slice (x : Value) (low high step : Option Value) : Step Value := do
  let store ← get
  let places := fun size => settle (slicePlaces size low high step)
  match x with
  | .str t => return .str (atPlaces t.toArray (← places t.length))
  | .octets t => return .octets (atPlaces t.toArray (← places t.length))
  | .tuple xs => return .tuple (atPlaces xs.toArray (← places xs.length))
  | .list a => newList (atPlaces (store.items a) (← places (store.items a).size)).toArray
  | .range r =>
    let (start, stop, step) ← places r.length
    return .range {
      start := r.start + r.step * start, stop := r.start + r.step * stop, step := r.step * step
      length := placeCount start stop step }
  | x => Script.stop (.notSliceable x.kind)

end Z80Asm.Script
