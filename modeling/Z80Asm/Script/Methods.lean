import Z80Asm.Script.Arguments
import Z80Asm.Script.Literal

/-!
# Functions that belong to values

What is called by a dot and a name after a list, a dictionary, a text or bytes.
-/

namespace Z80Asm.Script

def Value.methodNames : Value → List String
  | .list _ => ["append", "clear", "extend", "index", "insert", "pop", "remove"]
  | .dict _ => ["clear", "get", "items", "keys", "pop", "popitem", "setdefault", "update", "values"]
  | .str _ =>
    ["capitalize", "codepoint_ords", "codepoints", "count", "elem_ords", "elems", "endswith", "find",
     "format", "index", "isalnum", "isalpha", "isdigit", "islower", "isspace", "istitle", "isupper",
     "join", "lower", "lstrip", "partition", "removeprefix", "removesuffix", "replace", "rfind", "rindex",
     "rpartition", "rsplit", "rstrip", "split", "splitlines", "startswith", "strip", "title", "upper"]
  | .octets _ => ["elems"]
  | _ => []

def Value.field (x : Value) (name : Text) : Step Value := do
  if x.methodNames.any (bytes · == name) then return .method (← newSerial) x name
  else stop (.noField x.kind name (Spelling.hint (bytes ".") name (x.methodNames.map bytes)))

/-! ## Lists and dictionaries -/

def bounds (low high : Option Value) (size : Nat) : Except Failure (Nat × Nat) := do
  let start := clamp 0 size (← sliceBound "start" size 0 low)
  let stop := clamp 0 size (← sliceBound "end" size size high)
  return (start.toNat, stop.toNat)

/-- The place of a value among values, the first being at `i`. -/
def indexAmong (x : Value) : Nat → List Value → Step (Option Nat)
  | _, [] => return none
  | i, v :: vs => do if ← compareValues .eq v x then return some i else indexAmong x (i + 1) vs

/-- Inserts at a place; negative ones count from the end. -/
def insertItem (i : Int) (v : Value) (xs : Array Value) : Array Value :=
  let j := if i < 0 then i + xs.size else i
  xs.insertIdxIfInBounds (min (max j 0).toNat xs.size) v

def callList (name : Text) (address : Nat) (args : Arguments) : Step Value := do
  let change (verb : String) (f : Array Value → Array Value) : Step Value := do
    naming name (changeList verb address f)
    return .none
  if name = bytes "append" then
    let vs ← byPosition name args 1 [.any]
    change "append to" (· ++ vs.toArray)
  else if name = bytes "clear" then
    let _ ← byPosition name args 0 []
    change "clear" fun _ => #[]
  else if name = bytes "extend" then
    let vs ← byPosition name args 1 [.iterable]
    let items := (((← get).sequence? (vs.headD .none)).map Sequence.toList).getD []
    change "extend" (· ++ items.toArray)
  else if name = bytes "index" then
    let vs ← byPosition name args 1 [.any, .any, .any]
    let items := ((← get).items address).toList
    let (start, stop) ← naming name (settle (bounds (vs[1]?) (vs[2]?) items.length))
    match ← naming name (indexAmong (vs.headD .none) start ((items.take stop).drop start)) with
    | some i => return .int i
    | none => complainOf name (bytes "value not in list")
  else if name = bytes "insert" then
    match ← byPosition name args 2 [.int, .any] with
    | [.int i, v] => change "insert into" (insertItem i v)
    | _ => return .none
  else if name = bytes "pop" then
    let vs ← byPosition name args 0 [.int]
    let items := (← get).items address
    let i := match vs with
      | [.int i] => i
      | _ => items.size - 1
    let j ← naming name (settle (place (bytes "list") items.size i))
    let _ ← change "pop from" fun xs => xs.eraseIdxIfInBounds j
    return (items[j]?).getD .none
  else
    let vs ← byPosition name args 1 [.any]
    naming name (requireListFree "remove from" address)
    match ← naming name (indexAmong (vs.headD .none) 0 ((← get).items address).toList) with
    | some i => change "remove from" fun xs => xs.eraseIdxIfInBounds i
    | none => complainOf name (bytes "element not found")

def addPairs (address : Nat) : Nat → List Value → Step Unit
  | _, [] => return ()
  | i, v :: vs => do
    let element := bytes "dictionary update sequence element #" ++ Text.ofNat i
    match (← get).sequence? v with
    | none => complain (element ++ bytes " is not iterable (" ++ v.kind ++ bytes ")")
    | some s =>
      match s.toList with
      | [key, value] =>
        let _ ← setKey address key value
        addPairs address (i + 1) vs
      | items => complain (element ++ bytes " has length " ++ Text.ofNat items.length ++ bytes ", want 2")

/-- Adds the entries of a dictionary or pairs, and named arguments, to a dictionary. -/
def updateDict (address : Nat) (args : Arguments) : Step Unit := do
  match args.plain with
  | [.dict other] =>
    for (key, value) in (← get).entries other do
      let _ ← setKey address key value
  | [v] =>
    match (← get).sequence? v with
    | some s => addPairs address 0 s.toList
    | none => complain (bytes "got " ++ v.kind ++ bytes ", want iterable")
  | _ => pure ()
  for (name, value) in args.named do
    let _ ← setKey address (.str name) value

def deleteKey (address : Nat) (key : Value) : Step (Option Value) := do
  requireDictFree "delete from" address
  settle (hashable key)
  let entries := (← get).entries address
  match keyIndex? (← get) key entries with
  | none => return none
  | some i =>
    modifyDict address fun es => es.eraseIdxIfInBounds i
    return (entries[i]?).map (·.2)

def callDict (name : Text) (address : Nat) (args : Arguments) : Step Value := do
  let entries := ((← get).entries address).toList
  if name = bytes "clear" then
    let _ ← byPosition name args 0 []
    requireDictFree "clear" address
    modifyDict address fun _ => #[]
    return .none
  else if name = bytes "get" then
    let vs ← byPosition name args 1 [.any, .any]
    let found ← naming name (lookupKey address (vs.headD .none))
    return found.getD ((vs[1]?).getD .none)
  else if name = bytes "items" then
    let _ ← byPosition name args 0 []
    newList (entries.map fun e => .tuple [e.1, e.2]).toArray
  else if name = bytes "keys" then
    let _ ← byPosition name args 0 []
    newList (entries.map (·.1)).toArray
  else if name = bytes "values" then
    let _ ← byPosition name args 0 []
    newList (entries.map (·.2)).toArray
  else if name = bytes "pop" then
    let vs ← byPosition name args 1 [.any, .any]
    let found ← naming name (deleteKey address (vs.headD .none))
    match found, vs[1]? with
    | some v, _ => return v
    | none, some v => return v
    | none, none => complainOf name (bytes "missing key")
  else if name = bytes "popitem" then
    let _ ← byPosition name args 0 []
    match entries with
    | [] => complainOf name (bytes "empty dict")
    | e :: _ =>
      let _ ← naming name (deleteKey address e.1)
      return .tuple [e.1, e.2]
  else if name = bytes "setdefault" then
    let vs ← byPosition name args 1 [.any, .any]
    let (key, value) := (vs.headD .none, (vs[1]?).getD .none)
    match ← naming name (lookupKey address key) with
    | some v => return v
    | none =>
      let _ ← naming name (setKey address key value)
      return value
  else
    if args.plain.length > 1 then
      complainOf name (givenText args.plain.length ++ bytes "at most 1")
    naming name (updateDict address args)
    return .none

/-! ## Texts -/

/-- The places of a part in a text, the first byte being at `i`. -/
def findAll (part : Text) : Nat → Text → List Nat
  | i, [] => if part.isEmpty then [i] else []
  | i, b :: rest => (if part.isPrefixOf (b :: rest) then [i] else []) ++ findAll part (i + 1) rest

/-- The parts of a text between separators, at most `most + 1` of them; `skip` bytes belong to a separator. -/
def splitAt (separator : Text) (most : Nat) (part : Text) : Nat → Text → List Text
  | _, [] => [part.reverse]
  | skip + 1, _ :: rest => splitAt separator most part skip rest
  | 0, b :: rest =>
    match most with
    | 0 => [part.reverse ++ b :: rest]
    | fewer + 1 =>
      if separator.isPrefixOf (b :: rest) then
        part.reverse :: splitAt separator fewer [] (separator.length - 1) rest
      else splitAt separator (fewer + 1) (b :: part) 0 rest

def fields (isBlank : UInt8 → Bool) (t : Text) : List Text :=
  (t.splitBy fun a b => isBlank a == isBlank b).filter fun part => !part.all isBlank

def isSpace (b : UInt8) : Bool := b = 0x20 || (0x09 ≤ b && b ≤ 0x0D)

/-- The parts between the first `most` runs of blanks, and the rest. -/
def fieldsUpTo : Nat → Text → List Text
  | most, t =>
    match t.dropWhile isSpace, most with
    | [], _ => []
    | u, 0 => [u.reverse.dropWhile isSpace |>.reverse]
    | u, fewer + 1 =>
      u.takeWhile (!isSpace ·) :: fieldsUpTo fewer (u.dropWhile (!isSpace ·))

def upperPoint (p : Nat) : Nat :=
  match Text.capitalRuns.find? fun r =>
      r.lower ≤ p && p ≤ r.lower + (r.last - r.first) && (p - r.lower) % r.step == 0
        && Text.lowerPoint (r.first + (p - r.lower)) == p with
  | some r => r.first + (p - r.lower)
  | none => p

def textPoints (t : Text) : List Nat :=
  (Text.pieces t).map fun
    | .point p => p
    | .stray _ => 0xFFFD

def isCapital (p : Nat) : Bool := Text.lowerPoint p != p

def isSmall (p : Nat) : Bool := upperPoint p != p

def titlePoints : Bool → List Nat → List Nat
  | _, [] => []
  | inWord, p :: ps =>
    (if inWord then Text.lowerPoint p else upperPoint p) :: titlePoints (Text.isLetterPoint p) ps

/-- Words start with capitals and go on with small letters; `before` is the letter before. -/
def isTitle (seen inWord : Bool) : List Nat → Bool
  | [] => seen
  | p :: ps =>
    if isCapital p then !inWord && isTitle true true ps
    else if isSmall p then inWord && isTitle true true ps
    else isTitle seen false ps

/-- Some text has a letter of a case, and none of the other. -/
def onlyCase (good bad : Nat → Bool) (ps : List Nat) : Bool := ps.any good && !ps.any bad

def dropStart (chars : Option Text) (t : Text) : Text :=
  let ps := textPoints t
  let isGone : Nat → Bool := match chars with
    | some chars => (textPoints chars).contains
    | none => fun p => p = 0x20 || (0x09 ≤ p && p ≤ 0x0D) || p = 0x85 || p = 0xA0
  (ps.dropWhile isGone).flatMap Text.ofPoint

def dropEnd (chars : Option Text) (t : Text) : Text :=
  let ps := textPoints t
  let isGone : Nat → Bool := match chars with
    | some chars => (textPoints chars).contains
    | none => fun p => p = 0x20 || (0x09 ≤ p && p ≤ 0x0D) || p = 0x85 || p = 0xA0
  (ps.reverse.dropWhile isGone).reverse.flatMap Text.ofPoint

/-- The lines of a text, with their ends if `keep` is set. -/
def linesOf (keep : Bool) (t : Text) : List Text :=
  let lines := splitAt [0x0A] t.length [] 0 t
  let lines := match lines.getLast? with
    | some [] => lines.dropLast.map fun line => (line, true)
    | _ => lines.mapIdx fun i line => (line, i + 1 < lines.length)
  lines.map fun (line, ended) => if keep && ended then line ++ [0x0A] else line

def replaceText (old new : Text) (most : Nat) (t : Text) : Text :=
  if old.isEmpty then
    let ps := (Text.pieces t).map fun
      | .point p => Text.ofPoint p
      | .stray b => [b]
    let marked := ps.mapIdx fun i p => (if i < most then new else []) ++ p
    marked.flatten ++ (if ps.length < most then new else [])
  else Text.join new (splitAt old most [] 0 t)

def newTexts (ts : List Text) : Step Value := newList (ts.map Value.str).toArray

/-- The part of a text that a search is limited to, and its place. -/
def searched (name : Text) (t : Text) (low high : Option Value) : Step (Nat × Text) := do
  let (start, stop) ← naming name (settle (bounds low high t.length))
  return (start, (t.take stop).drop start)

def callFind (name : Text) (t : Text) (args : Arguments) : Step Value := do
  match ← byPosition name args 1 [.string, .any, .any] with
  | .str part :: more =>
    let (start, u) ← searched name t (more[0]?) (more[1]?)
    if name = bytes "count" then
      return .int (if part.isEmpty then (textPoints u).length + 1
        else (splitAt part u.length [] 0 u).length - 1)
    let places := findAll part start u
    let last := name.head? = some 'r'.toUInt8
    match if last then places.getLast? else places.head? with
    | some i => return .int i
    | none =>
      if name = bytes "index" || name = bytes "rindex" then complainOf name (bytes "substring not found")
      else return .int (-1)
  | _ => return .none

def callEnds (name : Text) (t : Text) (args : Arguments) : Step Value := do
  let vs ← byPosition name args 1 [.any, .any, .any]
  let (_, u) ← searched name t (vs[1]?) (vs[2]?)
  let fits (part : Text) : Bool :=
    if name = bytes "startswith" then part.isPrefixOf u else part.isSuffixOf u
  match vs.headD .none with
  | .str part => return .bool (fits part)
  | .tuple parts =>
    let rec look : Nat → List Value → Step Value
      | _, [] => return .bool false
      | i, .str part :: rest => if fits part then return .bool true else look (i + 1) rest
      | i, v :: _ =>
        complainOf name (bytes "want string, got " ++ v.kind ++ bytes ", for element " ++ Text.ofNat i)
    look 0 parts
  | v => complainOf name (bytes "got " ++ v.kind ++ bytes ", want string or tuple of string")

def callSplit (name : Text) (t : Text) (args : Arguments) : Step Value := do
  let vs ← byPosition name args 0 [.any, .int]
  let limit : Option Value := vs[1]?
  let most : Option Nat := match limit with
    | some (.int n) => if n < 0 then none else some n.toNat
    | _ => none
  let backwards := name = bytes "rsplit"
  let separator? : Option Value := vs[0]?
  match separator? with
  | none | some .none =>
    match most with
    | none => newTexts (fields isSpace t)
    | some n =>
      if backwards then newTexts ((fieldsUpTo n t.reverse).map List.reverse).reverse
      else newTexts (fieldsUpTo n t)
  | some (.str separator) =>
    if separator.isEmpty then complain (bytes "split: empty separator")
    if backwards then
      let parts := splitAt separator t.length [] 0 t
      let excess := parts.length - most.getD t.length
      if excess > 0 then
        newTexts (Text.join separator (parts.take excess) :: parts.drop excess)
      else newTexts parts
    else newTexts (splitAt separator (most.getD t.length) [] 0 t)
  | some v => complain (bytes "split: got " ++ v.kind ++ bytes " for separator, want string")

def callJoin (name : Text) (t : Text) (args : Arguments) : Step Value := do
  let vs ← byPosition name args 1 [.iterable]
  let items := (((← get).sequence? (vs.headD .none)).map Sequence.toList).getD []
  let parts ← items.mapM fun
    | .str part => pure part
    | v => complain (bytes "join: in list, want string, got " ++ v.kind)
  return .str (Text.join t parts)

def callPartition (name : Text) (t : Text) (args : Arguments) : Step Value := do
  match ← byPosition name args 1 [.string] with
  | [.str separator] =>
    if separator.isEmpty then complainOf name (bytes "empty separator")
    let backwards := name = bytes "rpartition"
    let places := findAll separator 0 t
    match if backwards then places.getLast? else places.head? with
    | some i =>
      return .tuple [.str (t.take i), .str separator, .str (t.drop (i + separator.length))]
    | none =>
      return .tuple (if backwards then [.str [], .str [], .str t] else [.str t, .str [], .str []])
  | _ => return .none

/-! ### Fields in braces -/

def openBrace : UInt8 := 0x7B

def closeBrace : UInt8 := 0x7D

/-- The value that the name of a field stands for, and the number of the next field without a name. -/
def fieldValue (args : Arguments) (name : Text) (auto manual : Bool) (next : Nat) :
    Step (Value × Bool × Bool × Nat) := do
  let at' (i : Nat) : Step Value :=
    match args.plain[i]? with
    | some v => return v
    | none => complain (bytes "format: tuple index out of range")
  if name.isEmpty then
    if manual then
      complain (bytes "format: cannot switch from manual field specification to automatic field numbering")
    return (← at' next, true, manual, next + 1)
  else if name.all (Numeral.isDigitOf 10 ·) then
    if auto then
      complain (bytes "format: cannot switch from automatic field numbering to manual field specification")
    return (← at' (Numeral.ofDigits 10 name), auto, true, next)
  else match args.named.lookup name with
    | some v => return (v, auto, manual, next)
    | none => complain (bytes "format: keyword " ++ name ++ bytes " not found")

def formatFields (args : Arguments) : Nat → Bool → Bool → Nat → Text → Step Text
  | 0, _, _, _, _ => return []
  | _, _, _, _, [] => return []
  | fuel + 1, auto, manual, next, b :: rest => do
    if b = closeBrace then
      match rest with
      | c :: after =>
        if c = closeBrace then return b :: (← formatFields args fuel auto manual next after)
        else complain (bytes "format: single '\x7d' in format")
      | [] => complain (bytes "format: single '\x7d' in format")
    else if b != openBrace then return b :: (← formatFields args fuel auto manual next rest)
    else match rest with
      | [] => complain (bytes "format: unmatched '\x7b' in format")
      | c :: after =>
        if c = openBrace then return b :: (← formatFields args fuel auto manual next after)
        else match Text.cut? closeBrace rest with
          | none => complain (bytes "format: unmatched '\x7b' in format")
          | some (field, after) =>
            let name := field.takeWhile fun b => b != '!'.toUInt8 && b != ':'.toUInt8
            let suffix := field.drop name.length
            if suffix.contains ':'.toUInt8 then
              complain (bytes "format spec features not supported in replacement fields: "
                ++ (suffix.dropWhile (· != ':'.toUInt8)).drop 1)
            let conversion := suffix.drop 1
            let (v, auto, manual, next) ← fieldValue args name auto manual next
            let text ← if conversion.isEmpty && suffix.isEmpty || conversion = bytes "s" then
                pure ((← get).plain v)
              else if conversion = bytes "r" then pure ((← get).represent v)
              else complain (bytes "format: unknown conversion " ++ Text.quote conversion)
            return text ++ (← formatFields args fuel auto manual next after)

def callText (name : Text) (t : Text) (args : Arguments) : Step Value := do
  let ps := textPoints t
  let nullary (v : Value) : Step Value := do
    let _ ← byPosition name args 0 []
    return v
  let rebuilt (ps : List Nat) : Value := .str (ps.flatMap Text.ofPoint)
  let isNumber : Nat → Bool := Literal.isDigit
  if [bytes "find", bytes "index", bytes "rfind", bytes "rindex", bytes "count"].contains name then
    callFind name t args
  else if name = bytes "startswith" || name = bytes "endswith" then callEnds name t args
  else if name = bytes "split" || name = bytes "rsplit" then callSplit name t args
  else if name = bytes "join" then callJoin name t args
  else if name = bytes "partition" || name = bytes "rpartition" then callPartition name t args
  else if name = bytes "format" then
    return .str (← formatFields args (t.length + 1) false false 0 t)
  else if name = bytes "elems" then nullary (.parts .elems t)
  else if name = bytes "elem_ords" then nullary (.parts .elemOrds t)
  else if name = bytes "codepoints" then nullary (.parts .codepoints t)
  else if name = bytes "codepoint_ords" then nullary (.parts .codepointOrds t)
  else if name = bytes "lower" then nullary (rebuilt (ps.map Text.lowerPoint))
  else if name = bytes "upper" then nullary (rebuilt (ps.map upperPoint))
  else if name = bytes "title" then nullary (rebuilt (titlePoints false ps))
  else if name = bytes "capitalize" then
    nullary (rebuilt ((ps.take 1).map upperPoint ++ (ps.drop 1).map Text.lowerPoint))
  else if name = bytes "isalnum" then
    nullary (.bool (!ps.isEmpty && ps.all fun p => isNumber p || Text.isLetterPoint p))
  else if name = bytes "isalpha" then nullary (.bool (!ps.isEmpty && ps.all Text.isLetterPoint))
  else if name = bytes "isdigit" then nullary (.bool (!ps.isEmpty && ps.all isNumber))
  else if name = bytes "isspace" then nullary (.bool (!t.isEmpty && (dropStart none t).isEmpty))
  else if name = bytes "islower" then nullary (.bool (onlyCase isSmall isCapital ps))
  else if name = bytes "isupper" then nullary (.bool (onlyCase isCapital isSmall ps))
  else if name = bytes "istitle" then nullary (.bool (isTitle false false ps))
  else if name = bytes "splitlines" then
    let vs ← byPosition name args 0 [.bool]
    let keep := match vs with
      | [.bool b] => b
      | _ => false
    newTexts (linesOf keep t)
  else if name = bytes "replace" then
    match ← byPosition name args 2 [.string, .string, .int] with
    | .str old :: .str new :: more =>
      let most := match more with
        | [.int n] => if n < 0 then t.length + 1 else n.toNat
        | _ => t.length + 1
      return .str (replaceText old new most t)
    | _ => return .none
  else if name = bytes "removeprefix" || name = bytes "removesuffix" then
    match ← byPosition name args 1 [.string] with
    | [.str part] =>
      if name = bytes "removeprefix" then
        return .str (if part.isPrefixOf t then t.drop part.length else t)
      else return .str (if part.isSuffixOf t then t.take (t.length - part.length) else t)
    | _ => return .none
  else
    let vs ← byPosition name args 0 [.string]
    let chars := match vs with
      | [.str []] => none
      | [.str chars] => some chars
      | _ => none
    if name = bytes "lstrip" then return .str (dropStart chars t)
    else if name = bytes "rstrip" then return .str (dropEnd chars t)
    else return .str (dropEnd chars (dropStart chars t))

def callMethod (receiver : Value) (name : Text) (args : Arguments) : Step Value :=
  match receiver with
  | .list address => callList name address args
  | .dict address => callDict name address args
  | .str t => callText name t args
  | .octets t => do
    let _ ← byPosition name args 0 []
    return .parts .byteElems t
  | v => stop (.notCallable v.kind)

end Z80Asm.Script
