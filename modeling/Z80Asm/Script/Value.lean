import Z80Asm.Script.Resolved
import Z80Asm.Text.Quoted

/-!
# Values of scripts

Integers have no bounds.  Lists and dictionaries change, so that their values are the addresses of what they
hold; everything else is held by the value itself.  `Failure` is why a running script stops.
-/

namespace Z80Asm.Script

inductive Builtin where
  | abs | all | any | bool | chr | db | dict | dir | enumerate | fail | float | getattr | hasattr
  | hash | int | len | list | max | min | octets | ord | print | range | repr | reversed | sorted | str | tuple
  | type | zip
  deriving Repr, DecidableEq

def Builtin.name : Builtin → String
  | abs => "abs"
  | all => "all"
  | any => "any"
  | bool => "bool"
  | chr => "chr"
  | db => "db"
  | dict => "dict"
  | dir => "dir"
  | enumerate => "enumerate"
  | fail => "fail"
  | float => "float"
  | getattr => "getattr"
  | hasattr => "hasattr"
  | hash => "hash"
  | int => "int"
  | len => "len"
  | list => "list"
  | max => "max"
  | min => "min"
  | octets => "bytes"
  | ord => "ord"
  | print => "print"
  | range => "range"
  | repr => "repr"
  | reversed => "reversed"
  | sorted => "sorted"
  | str => "str"
  | tuple => "tuple"
  | type => "type"
  | zip => "zip"

structure Range where
  start : Int
  stop : Int
  step : Int
  length : Nat
  deriving Repr, DecidableEq

def Range.get (r : Range) (i : Nat) : Int := r.start + r.step * i

def Range.same (r s : Range) : Bool :=
  r.length == s.length && (r.length == 0 || r.start == s.start && (r.length == 1 || r.step == s.step))

inductive Part where
  | elems | elemOrds
  | codepoints | codepointOrds
  | byteElems
  deriving Repr, DecidableEq

inductive Value where
  | none
  | bool (value : Bool)
  | int (value : Int)
  | float (value : Double)
  | str (text : Text)
  | octets (text : Text)
  | tuple (items : List Value)
  | range (range : Range)
  | parts (part : Part) (text : Text)
  | list (address : Nat)
  | dict (address : Nat)
  /-- A defined function: what tells it from others, the values of its defaults, and the slots of the functions
  around it. -/
  | function (serial : Nat) (header : Header) (defaults : List (Option Value)) (body : List Action)
      (frames : List Nat)
  | builtin (builtin : Builtin)
  | method (serial : Nat) (receiver : Value) (name : Text)

namespace Value

def kind : Value → Text
  | none => bytes "NoneType"
  | bool _ => bytes "bool"
  | int _ => bytes "int"
  | float _ => bytes "float"
  | str _ => bytes "string"
  | octets _ => bytes "bytes"
  | tuple _ => bytes "tuple"
  | range _ => bytes "range"
  | parts .elems _ => bytes "string.elems"
  | parts .elemOrds _ => bytes "string.elems"
  | parts .codepoints _ => bytes "string.codepoints"
  | parts .codepointOrds _ => bytes "string.codepoints"
  | parts .byteElems _ => bytes "bytes.elems"
  | list _ => bytes "list"
  | dict _ => bytes "dict"
  | function .. => bytes "function"
  | builtin _ => bytes "builtin_function_or_method"
  | method .. => bytes "builtin_function_or_method"

end Value

/-! ## Failures -/

inductive ZeroDivision where
  | float | floor | intRemainder | floatRemainder
  deriving Repr, DecidableEq

def ZeroDivision.message : ZeroDivision → String
  | float => "floating-point division by zero"
  | floor => "floored division by zero"
  | intRemainder => "integer modulo by zero"
  | floatRemainder => "floating-point modulo by zero"

inductive BadInt where
  | kind (kind : Text)
  | large (value : Int)
  deriving Repr, DecidableEq

def BadInt.message : BadInt → Text
  | kind k => bytes "got " ++ k ++ bytes ", want int"
  | large n => Text.ofInt n ++ bytes " out of range"

inductive BadCall where
  | takesNone (given : Nat)
  | tooMany (accepted : Nat) (atMost : Bool) (given : Nat)
  | twice (name : Text)
  | unknown (name : Text)
  | missing (params : List Text)
  | recursive
  deriving Repr, DecidableEq

def counted (n : Nat) (noun : String) : Text :=
  Text.ofNat n ++ bytes " " ++ bytes noun ++ (if n = 1 then [] else bytes "s")

def BadCall.message : BadCall → Text
  | takesNone given => bytes "accepts no arguments (" ++ Text.ofNat given ++ bytes " given)"
  | tooMany accepted atMost given =>
    bytes "accepts " ++ (if atMost then bytes "at most " else []) ++ counted accepted "positional argument"
      ++ bytes " (" ++ Text.ofNat given ++ bytes " given)"
  | twice name => bytes "got multiple values for parameter " ++ Text.quote name
  | unknown name => bytes "got an unexpected keyword argument " ++ Text.quote name
  | missing params =>
    bytes "missing " ++ counted params.length "argument" ++ bytes " ("
      ++ Text.join (bytes ", ") params ++ bytes ")"
  | recursive => bytes "called recursively"

inductive Failure where
  | unset (isGlobal : Bool) (name : Text)
  | zeroDivision (division : ZeroDivision)
  | tooLargeForFloat
  | badInt (why : BadInt)
  | shiftNegative (count : Int)
  | shiftLarge (count : Int)
  | repeatCount (count : Int)
  | repeatSize (size : Nat) (count : Int)
  | binary (op : Binary) (x y : Text)
  | unary (op : Unary) (x : Text)
  | unordered (op : Binary) (x y : Text)
  | comparisonDepth
  | notCallable (kind : Text)
  | notIterable (kind : Text)
  | notUnpackable (kind : Text)
  | surplus (got want : Nat)
  | shortage (got want : Nat)
  | notIndexable (kind key : Text)
  | index (kind : Text) (why : BadInt)
  | indexRange (kind : Text) (index : Int) (size : Nat)
  | noKey (key kind : Text)
  | repeatedKey (key : Text)
  | notSliceable (kind : Text)
  | sliceStep (why : BadInt)
  | sliceStepZero
  | sliceBound (which : String) (why : BadInt)
  | noItemAssignment (kind : Text)
  | noFieldAssignment (field kind : Text)
  | noField (kind field hint : Text)
  | unhashable (kind : Text)
  | duringLoop (verb : String) (kind : Text)
  | call (function : Text) (why : BadCall)
  | spread (kind : Text)
  | spreadNamed (kind : Text)
  | keyword (kind : Text)
  | load
  | complaint (text : Text)
  | tooDeep

def Failure.message : Failure → Text
  | unset isGlobal name =>
    bytes (if isGlobal then "global" else "local") ++ bytes " variable " ++ name
      ++ bytes " referenced before assignment"
  | zeroDivision division => bytes division.message
  | tooLargeForFloat => bytes "int too large to convert to float"
  | badInt why => why.message
  | shiftNegative count => bytes "negative shift count: " ++ Text.ofInt count
  | shiftLarge count => bytes "shift count too large: " ++ Text.ofInt count
  | repeatCount count => bytes "repeat count " ++ Text.ofInt count ++ bytes " too large"
  | repeatSize size count =>
    bytes "excessive repeat (" ++ Text.ofNat size ++ bytes " * " ++ Text.ofInt count ++ bytes " elements)"
  | binary op x y => bytes "unknown binary op: " ++ x ++ bytes " " ++ bytes op.text ++ bytes " " ++ y
  | unary op x => bytes "unknown unary op: " ++ bytes op.text ++ bytes " " ++ x
  | unordered op x y => x ++ bytes " " ++ bytes op.text ++ bytes " " ++ y ++ bytes " not implemented"
  | comparisonDepth => bytes "comparison exceeded maximum recursion depth"
  | notCallable kind => bytes "invalid call of non-function (" ++ kind ++ bytes ")"
  | notIterable kind => kind ++ bytes " value is not iterable"
  | notUnpackable kind => bytes "got " ++ kind ++ bytes " in sequence assignment"
  | surplus got want =>
    bytes "too many values to unpack (got " ++ Text.ofNat got ++ bytes ", want " ++ Text.ofNat want ++ bytes ")"
  | shortage got want =>
    bytes "too few values to unpack (got " ++ Text.ofNat got ++ bytes ", want " ++ Text.ofNat want ++ bytes ")"
  | notIndexable kind key =>
    bytes "unhandled index operation " ++ kind ++ bytes "[" ++ key ++ bytes "]"
  | index kind why => kind ++ bytes " index: " ++ why.message
  | indexRange kind i 0 => bytes "index " ++ Text.ofInt i ++ bytes " out of range: empty " ++ kind
  | indexRange kind i size =>
    kind ++ bytes " index " ++ Text.ofInt i ++ bytes " out of range [-" ++ Text.ofNat size ++ bytes ":"
      ++ Text.ofNat (size - 1) ++ bytes "]"
  | noKey key kind => bytes "key " ++ key ++ bytes " not in " ++ kind
  | repeatedKey key => bytes "duplicate key: " ++ key
  | notSliceable kind => bytes "invalid slice operand " ++ kind
  | sliceStep why => bytes "invalid slice step: " ++ why.message
  | sliceStepZero => bytes "zero is not a valid slice step"
  | sliceBound which why => bytes "invalid " ++ bytes which ++ bytes " index: " ++ why.message
  | noItemAssignment kind => kind ++ bytes " value does not support item assignment"
  | noFieldAssignment field kind => bytes "can't assign to ." ++ field ++ bytes " field of " ++ kind
  | noField kind field hint => kind ++ bytes " has no ." ++ field ++ bytes " field or method" ++ hint
  | unhashable kind =>
    bytes (if kind = bytes "range" then "unhashable: " else "unhashable type: ") ++ kind
  | duringLoop verb kind => bytes "cannot " ++ bytes verb ++ bytes " " ++ kind ++ bytes " during iteration"
  | call function why => bytes "function " ++ function ++ bytes " " ++ why.message
  | spread kind => bytes "argument after * must be iterable, not " ++ kind
  | spreadNamed kind => bytes "argument after ** must be a mapping, not " ++ kind
  | keyword kind => bytes "keywords must be strings, not " ++ kind
  | load => bytes "load not implemented by this application"
  | complaint text => text
  | tooDeep => bytes "script nested too deeply"

/-! ## Integers of 32 bits -/

def Value.small (v : Value) : Except BadInt Int :=
  match v with
  | .int n =>
    if Int32.minValue.toInt ≤ n && n ≤ Int32.maxValue.toInt then .ok n else .error (.large n)
  | v => .error (.kind v.kind)

end Z80Asm.Script
