import Z80Asm.Script.Methods

/-!
# Built-in functions

The functions that every script knows, and `db`, by which a script emits code.  Some of them call functions
that they are given: `call` does that.
-/

namespace Z80Asm.Script.Library

def code : Value → Except Failure (List UInt8)
  | .int n =>
    if Int64.minValue.toInt ≤ n && n ≤ Int64.maxValue.toInt then .ok [UInt8.ofNat (n % 256).toNat]
    else .error (.complaint (emitName ++ bytes "%!!(big.Int=" ++ Text.ofInt n ++ bytes ")v(MISSING) out of range"))
  | .str t => .ok t
  | v => .error (.complaint (emitName ++ bytes "unsupported %!!(string=" ++ v.kind ++ bytes ")v(MISSING)"))
where
  emitName : Text := bytes "%!!(string=db)v(MISSING): "

def emit (args : Arguments) : Step Value := do
  if !args.named.isEmpty then complain (code.emitName ++ bytes "unexpected keyword arguments")
  for arg in args.plain do
    let more ← settle (code arg)
    modify fun store => { store with emitted := more.reverse ++ store.emitted }
  return .none

/-! ## Numbers -/

def abs (args : Arguments) : Step Value := do
  match ← byPosition (bytes "abs") args 1 [.any] with
  | [.int n] => return .int n.natAbs
  | [.float x] => return .float (if x.isNegative then x.neg else x)
  | vs => complain (bytes "got " ++ ((vs.head?.map Value.kind).getD []) ++ bytes ", want int or float")

def wrapped (n : Int) : Int := (Int64.ofInt n).toInt

/-- The number of integers of a range, in the arithmetic of 64 bits. -/
def rangeLength (start stop step : Int) : Nat :=
  if step > 0 then
    if stop > start then ((wrapped (wrapped (stop - 1) - start)).tdiv step + 1).toNat else 0
  else
    if start > stop then ((wrapped (wrapped (start - 1) - stop)).tdiv (wrapped (-step)) + 1).toNat else 0

def range (args : Arguments) : Step Value := do
  let make (start stop step : Int) : Step Value := do
    if step = 0 then complainOf (bytes "range") (bytes "step argument must not be zero")
    return .range { start, stop, step, length := rangeLength start stop step }
  match ← byPosition (bytes "range") args 1 [.int, .int, .int] with
  | [.int stop] => make 0 stop 1
  | [.int start, .int stop] => make start stop 1
  | [.int start, .int stop, .int step] => make start stop step
  | _ => return .none

def baseOf? : Text → Option Nat
  | a :: b :: _ :: _ =>
    if a != '0'.toUInt8 then none
    else match Text.lowerByte b with
      | 0x6F => some 8
      | 0x78 => some 16
      | 0x62 => some 2
      | _ => none
  | _ => none

/-- The integer that a text stands for; base zero is taken from the text. -/
def parseInt? (t : Text) (base : Nat) : Option Int :=
  let negative := t.head? == some '-'.toUInt8
  let t := if negative || t.head? == some '+'.toUInt8 then t.drop 1 else t
  let zeros := t.length > 1 && t.head? == some '0'.toUInt8
  match baseOf? t with
  | none =>
    if zeros && base = 0 then if t.all (· == '0'.toUInt8) then some 0 else none
    else digits negative t (if base = 0 then 10 else base)
  | some b =>
    if base = 0 || base = b then digits negative (t.drop 2) b
    else digits negative t (if base = 0 then 10 else base)
where
  digits (negative : Bool) (t : Text) (base : Nat) : Option Int :=
    if Numeral.isDigits base t then
      let n : Int := Numeral.ofDigits base t
      some (if negative then -n else n)
    else none

def intOfText (t : Text) (base : Option Value) : Step Value := do
  let base ← match base with
    | none => pure 10
    | some v =>
      match v.small with
      | .ok b =>
        if b = 0 || (2 ≤ b && b ≤ 36) then pure b.toNat
        else complain (bytes "int: base must be an integer >= 2 && <= 36")
      | .error _ => complain (bytes "int: for base, got " ++ v.kind ++ bytes ", want int")
  match parseInt? t base with
  | some n => return .int n
  | none =>
    complain (bytes "int: invalid literal with base " ++ Text.ofNat base ++ bytes ": " ++ t)

def int (args : Arguments) : Step Value := do
  let values ← byName (bytes "int") args
    [{ name := "x", want := .any, optional := false }, { name := "base", want := .any }]
  match values with
  | [some (.str t), base] => intOfText t base
  | [some v, base] =>
    if base.isSome then complain (bytes "int: can't convert non-string with explicit base")
    match v with
    | .bool b => return .int (if b then 1 else 0)
    | v => return .int (← naming (bytes "int") (settle v.toInt))
  | _ => return .int 0

/-- The number with a fraction that a text stands for, or what is wrong with the text. -/
def parseFloat (t : Text) : Except Text Double :=
  let invalid : Except Text Double := .error (bytes "invalid float literal: " ++ t)
  let negative := t.head? == some '-'.toUInt8
  let u := if negative || t.head? == some '+'.toUInt8 then t.drop 1 else t
  let word := u.map Text.lowerByte
  if word = bytes "inf" || word = bytes "infinity" then .ok (.infinite negative)
  else if word = bytes "nan" then .ok .undefined
  else
    let start : Cursor := { rest := u.map (·.toNat) }
    let whole := start.skipWhile Literal.isDigit
    match Literal.floatEnd whole with
    | .ok after =>
      let significand := start.rest.takeWhile fun p => !Literal.isExponent p
      if after.rest.isEmpty && significand.any Literal.isDigit then
        match Literal.float? start.rest with
        | some x =>
          if !x.isFinite then .error (bytes "floating-point number too large")
          else .ok (if negative then x.neg else x)
        | none => invalid
      else invalid
    | .error _ => invalid

def float (args : Arguments) : Step Value := do
  if !args.named.isEmpty then complain (bytes "float does not accept keyword arguments")
  match args.plain with
  | [] => return .float (.zero false)
  | [.bool b] => return .float (Double.ofInt (if b then 1 else 0))
  | [.int n] =>
    let x := Double.ofInt n
    if x.isFinite then return .float x else stop .tooLargeForFloat
  | [.float x] => return .float x
  | [.str t] =>
    if t.isEmpty then complain (bytes "float: empty string")
    match parseFloat t with
    | .ok x => return .float x
    | .error text => complain text
  | [v] => complain (bytes "float got " ++ v.kind ++ bytes ", want number or string")
  | vs => complain (bytes "float got " ++ Text.ofNat vs.length ++ bytes " arguments, wants 1")

/-! ## Texts -/

/-- A text whose stray bytes are replaced by U+FFFD. -/
def repaired (t : Text) : Text :=
  (Text.pieces t).flatMap fun
    | .point p => Text.ofPoint p
    | .stray _ => Text.ofPoint 0xFFFD

def joined (store : Store) (separator : Text) (args : List Value) : Text :=
  Text.join separator (args.map store.plain)

def separator (function : Text) (args : Arguments) : Step Text := do
  match ← byName function { args with plain := [] } [{ name := "sep", want := .string }] with
  | [some (.str t)] => return t
  | _ => return bytes " "

def fail (args : Arguments) : Step Value := do
  let sep ← separator (bytes "fail") args
  complain (bytes "fail: " ++ joined (← get) sep args.plain)

def chr (args : Arguments) : Step Value := do
  let v ← single "chr" args "1"
  let n ← match v.small with
    | .ok n => pure n
    | .error why => complainOf (bytes "chr") why.message
  if n < 0 then
    complainOf (bytes "chr") (bytes "Unicode code point " ++ Text.ofInt n ++ bytes " out of range (<0)")
  if n > 0x10FFFF then
    complainOf (bytes "chr") (bytes "Unicode code point U+" ++ Format.upper (Format.inRadix 16 n)
      ++ bytes " out of range (>0x10FFFF)")
  return .str (Text.ofPoint (if 0xD800 ≤ n && n < 0xE000 then 0xFFFD else n.toNat))

def ord (args : Arguments) : Step Value := do
  match ← single "ord" args "1" with
  | .str t =>
    match Text.pieces t with
    | [.point p] => return .int p
    | [.stray _] => return .int 0xFFFD
    | ps =>
      complain (bytes "ord: string encodes " ++ Text.ofNat ps.length
        ++ bytes " Unicode code points, want 1")
  | .octets [b] => return .int b.toNat
  | .octets t => complain (bytes "ord: bytes has length " ++ Text.ofNat t.length ++ bytes ", want 1")
  | v => complain (bytes "ord: got " ++ v.kind ++ bytes ", want string or bytes")

def str (args : Arguments) : Step Value := do
  match ← single "str" args "exactly 1" with
  | .octets t => return .str (repaired t)
  | v => return .str ((← get).plain v)

/-- The bytes of numbers in turn, the first being number `i`. -/
def byteList : Nat → List Value → Step Text
  | _, [] => return []
  | i, v :: vs =>
    let wrong (text : Text) : Step Text :=
      complain (bytes "bytes: at index " ++ Text.ofNat i ++ bytes ", " ++ text)
    match v with
    | .int n =>
      if 0 ≤ n && n < 256 then return UInt8.ofNat n.toNat :: (← byteList (i + 1) vs)
      else wrong (Text.ofInt n ++ bytes " out of range (want value in unsigned 8-bit range)")
    | v => wrong (bytes "got " ++ v.kind ++ bytes ", want int")

def octets (args : Arguments) : Step Value := do
  match ← single "bytes" args "exactly 1" with
  | .octets t => return .octets t
  | .str t => return .octets (repaired t)
  | v =>
    match (← get).sequence? v with
    | some s => return .octets (← byteList 0 s.toList)
    | none => complain (bytes "bytes: got " ++ v.kind ++ bytes ", want string, bytes, or iterable of ints")

def hash (args : Arguments) : Step Value := do
  match ← byPosition (bytes "hash") args 1 [.any] with
  | [.str t] =>
    let point : Piece → Nat
      | .point p => p
      | .stray _ => 0xFFFD
    let h := (Text.pieces t).foldl (fun (h : UInt32) p => 31 * h + UInt32.ofNat (point p)) 0
    return .int h.toInt32.toInt
  | [.octets t] =>
    let h := t.foldl (fun (h : UInt32) b => (h ^^^ b.toUInt32) * 16777619) 2166136261
    return .int h.toNat
  | vs => complain (bytes "hash: got " ++ ((vs.head?.map Value.kind).getD []) ++ bytes ", want string or bytes")

/-! ## Sequences -/

def valuesOf (v : Value) : Step (List Value) :=
  return (((← get).sequence? v).map Sequence.toList).getD []

def len (args : Arguments) : Step Value := do
  let vs ← byPosition (bytes "len") args 1 [.any]
  let v := vs.headD .none
  match (← get).length? v with
  | some n => return .int n
  | none => complain (bytes "len: value of type " ++ v.kind ++ bytes " has no len")

def quantified (function : Text) (all : Bool) (args : Arguments) : Step Value := do
  let vs ← byPosition function args 1 [.iterable]
  let items ← valuesOf (vs.headD .none)
  let store ← get
  return .bool (if all then items.all store.truth else items.any store.truth)

def collected (function : Text) (args : Arguments) : Step (List Value) := do
  match ← byPosition function args 0 [.iterable] with
  | [v] => valuesOf v
  | _ => return []

def enumerate (args : Arguments) : Step Value := do
  let vs ← byPosition (bytes "enumerate") args 1 [.iterable, .int]
  let start := match vs with
    | [_, .int n] => n
    | _ => 0
  let items ← valuesOf (vs.headD .none)
  newList (items.mapIdx fun i v => .tuple [.int (start + i), v]).toArray

/-- The rows of columns, as many as the shortest column has. -/
def rows : Nat → List (List Value) → List Value
  | 0, _ => []
  | n + 1, columns => .tuple (columns.map (·.headD .none)) :: rows n (columns.map (·.drop 1))

/-- The columns of arguments, the first being number `i`. -/
def columns : Nat → List Value → Step (List (List Value))
  | _, [] => return []
  | i, v :: vs => do
    match (← get).sequence? v with
    | none =>
      complain (bytes "zip: argument #" ++ Text.ofNat i ++ bytes " is not iterable: " ++ v.kind)
    | some s => return s.toList :: (← columns (i + 1) vs)

def zip (args : Arguments) : Step Value := do
  if !args.named.isEmpty then complain (bytes "zip does not accept keyword arguments")
  let cs ← columns 1 args.plain
  let count := ((cs.map List.length).min?).getD 0
  newList (rows count cs).toArray

abbrev Caller := Value → List Value → Step Value

def keyOf (call : Caller) (key : Option Value) (v : Value) : Step Value :=
  match key with
  | some f => call f [v]
  | none => return v

def extreme (call : Caller) (function : Text) (op : Binary) (key : Option Value) :
    Value → Value → List Value → Step Value
  | best, _, [] => return best
  | best, bestKey, v :: vs => do
    let k ← keyOf call key v
    if ← naming function (compareValues op k bestKey) then extreme call function op key v k vs
    else extreme call function op key best bestKey vs

/-- The greatest or least of the arguments, or of the values of the only one. -/
def minMax (call : Caller) (function : Text) (op : Binary) (args : Arguments) : Step Value := do
  if args.plain.isEmpty then complain (function ++ bytes " requires at least one positional argument")
  let named ← byName function { args with plain := [] } [{ name := "key", want := .callable }]
  let key := named[0]?.join
  let items ← match args.plain with
    | [v] =>
      match (← get).sequence? v with
      | some s => pure s.toList
      | none => complainOf function (v.kind ++ bytes " value is not iterable")
    | vs => pure vs
  match items with
  | [] => complainOf function (bytes "argument is an empty sequence")
  | v :: vs => extreme call function op key v (← keyOf call key v) vs

/-- Puts an item into a sorted list, last item first; notes the last comparison that failed. -/
def insertSorted (store : Store) (reverse : Bool) (x : Value × Value) :
    List (Value × Value) → List (Value × Value) × Option Failure
  | [] => ([x], none)
  | y :: ys =>
    let before := if reverse then compareDepth store comparisonLimit .lt y.2 x.2
      else compareDepth store comparisonLimit .lt x.2 y.2
    match before with
    | .ok true =>
      let (rest, why) := insertSorted store reverse x ys
      (y :: rest, why)
    | .ok false => (x :: y :: ys, none)
    | .error e => (x :: y :: ys, some e)

/-- Sorts items one after the other; equal ones stay as they are.  Notes the last comparison that failed. -/
def sortItems (store : Store) (reverse : Bool) (items : List (Value × Value)) :
    List (Value × Value) × Option Failure :=
  let (sorted, why) := items.foldl (fun (sorted, why) x =>
    let (sorted, later) := insertSorted store reverse x sorted
    (sorted, later.or why)) (([] : List (Value × Value)), none)
  (sorted.reverse, why)

def sorted (call : Caller) (args : Arguments) : Step Value := do
  let values ← byName (bytes "sorted") args
    [{ name := "iterable", want := .iterable, optional := false },
     { name := "key", want := .callable }, { name := "reverse", want := .bool }]
  let items ← valuesOf ((values[0]?.join).getD .none)
  let reverse := match values with
    | [_, _, some (.bool b)] => b
    | _ => false
  let keys ← items.mapM (keyOf call (values[1]?.join))
  match sortItems (← get) reverse (items.zip keys) with
  | (_, some why) => stop why
  | (pairs, none) => newList (pairs.map (·.1)).toArray

/-! ## Types and fields -/

/-- A dictionary of the entries of another, of pairs, and of named arguments. -/
def dict (args : Arguments) : Step Value := do
  if args.plain.length > 1 then
    complainOf (bytes "dict") (givenText args.plain.length ++ bytes "at most 1")
  let v ← newDict #[]
  if let .dict a := v then naming (bytes "dict") (updateDict a args)
  return v

def dir (args : Arguments) : Step Value := do
  let v ← single "dir" args "1"
  newList ((v.methodNames.map fun name => .str (bytes name)).toArray)

def getattr (args : Arguments) : Step Value := do
  match ← byPosition (bytes "getattr") args 2 [.any, .string, .any] with
  | x :: .str name :: more =>
    if x.methodNames.any (bytes · == name) then x.field name
    else match more with
      | [v] => return v
      | _ => complain (bytes "getattr: " ++ x.kind ++ bytes " has no ." ++ name ++ bytes " field or method")
  | _ => return .none

def hasattr (args : Arguments) : Step Value := do
  match ← byPosition (bytes "hasattr") args 2 [.any, .string] with
  | [x, .str name] => return .bool (x.methodNames.any (bytes · == name))
  | _ => return .none

end Z80Asm.Script.Library

namespace Z80Asm.Script

def Builtin.run (call : Library.Caller) (builtin : Builtin) (args : Arguments) : Step Value :=
  match builtin with
  | .abs => Library.abs args
  | .all => Library.quantified (bytes "all") true args
  | .any => Library.quantified (bytes "any") false args
  | .bool => do
    let vs ← byPosition (bytes "bool") args 0 [.any]
    return .bool ((← get).truth (vs.headD (.bool false)))
  | .chr => Library.chr args
  | .db => Library.emit args
  | .dict => Library.dict args
  | .dir => Library.dir args
  | .enumerate => Library.enumerate args
  | .fail => Library.fail args
  | .float => Library.float args
  | .getattr => Library.getattr args
  | .hasattr => Library.hasattr args
  | .hash => Library.hash args
  | .int => Library.int args
  | .len => Library.len args
  | .list => do newList (← Library.collected (bytes "list") args).toArray
  | .max => Library.minMax call (bytes "max") .gt args
  | .min => Library.minMax call (bytes "min") .lt args
  | .octets => Library.octets args
  | .ord => Library.ord args
  | .print => do
    let _ ← Library.separator (bytes "print") args
    return .none
  | .range => Library.range args
  | .repr => do
    let vs ← byPosition (bytes "repr") args 1 [.any]
    return .str ((← get).represent (vs.headD .none))
  | .reversed => do
    let vs ← byPosition (bytes "reversed") args 1 [.iterable]
    newList (← Library.valuesOf (vs.headD .none)).reverse.toArray
  | .sorted => Library.sorted call args
  | .str => Library.str args
  | .tuple => return .tuple (← Library.collected (bytes "tuple") args)
  | .type => return .str (← single "type" args "exactly 1").kind
  | .zip => Library.zip args

end Z80Asm.Script
