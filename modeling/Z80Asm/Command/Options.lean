import Z80Asm.Command.Number
import Z80Asm.Text.Quoted

/-!
# Options

An option has a long name, after two dashes, and most have a letter, after one.  Letters may be grouped; a
value follows its option directly, after `=`, or as the next argument.  Arguments that are no options are
names of files and may stand anywhere; after `--` there are names only.
-/

namespace Z80Asm.Command

inductive Flag where
  | compass | define | help | search | listing | reversePop | stderr | symbols | trace | vs | lang
  deriving Repr, DecidableEq

namespace Flag

def all : List Flag :=
  [compass, define, help, search, listing, reversePop, stderr, symbols, trace, vs, lang]

def name : Flag → String
  | compass => "compass"
  | define => "define"
  | help => "help"
  | search => "include"
  | listing => "listing"
  | reversePop => "reverse-pop"
  | stderr => "stderr"
  | symbols => "symbols"
  | trace => "trace"
  | vs => "vs"
  | lang => "lang"

def letter? : Flag → Option Char
  | compass => some 'c'
  | define => some 'D'
  | help => some 'h'
  | search => some 'i'
  | listing => some 'l'
  | reversePop => some 'r'
  | stderr => some 'e'
  | symbols => some 's'
  | vs => some 'v'
  | trace | lang => none

/-- The option has to have a value; the others are switches. -/
def needsValue : Flag → Bool
  | define | search | trace | lang => true
  | compass | help | listing | reversePop | stderr | symbols | vs => false

def ofName? (name : Text) : Option Flag := all.find? (bytes ·.name == name)

def ofLetter? (letter : UInt8) : Option Flag := all.find? fun f => f.letter?.any (·.toUInt8 == letter)

/-- The option with its letter, as problems call it. -/
def title (f : Flag) : Text :=
  match f.letter? with
  | some c => bytes "-" ++ [c.toUInt8] ++ bytes ", --" ++ bytes f.name
  | none => bytes "--" ++ bytes f.name

end Flag

structure Options where
  compass : Bool := false
  help : Bool := false
  listing : Bool := false
  reversePop : Bool := false
  stderr : Bool := false
  symbols : Bool := false
  vs : Bool := false
  trace : Int64 := 0
  lang : Text := []
  search : List Text := []
  define : List Text := []
  deriving Repr, DecidableEq

inductive Misuse where
  | unknownLetter (letter : UInt8) (group : Text)
  | unknownName (name : Text)
  | malformed (arg : Text)
  | letterAlone (letter : UInt8)
  | nameAlone (arg : Text)
  | badSwitch (flag : Flag) (value : Text)
  | badNumber (flag : Flag) (value : Text) (problem : Number.Problem)
  | tooManyNames (count : Nat)
  deriving Repr, DecidableEq

namespace Misuse

def badValue (flag : Flag) (value : Text) (reader reason : String) : Text :=
  bytes "invalid argument " ++ Text.quote value ++ bytes " for " ++ Text.quote flag.title
    ++ bytes " flag: strconv." ++ bytes reader ++ bytes ": parsing " ++ Text.quote value ++ bytes ": "
    ++ bytes reason

def message : Misuse → Text
  | unknownLetter letter group =>
    bytes "unknown shorthand flag: " ++ Text.quoteByte letter ++ bytes " in -" ++ group
  | unknownName name => bytes "unknown flag: --" ++ name
  | malformed arg => bytes "bad flag syntax: " ++ arg
  | letterAlone letter =>
    bytes "flag needs an argument: " ++ Text.quoteByte letter ++ bytes " in -" ++ [letter]
  | nameAlone arg => bytes "flag needs an argument: " ++ arg
  | badSwitch flag value => badValue flag value "ParseBool" "invalid syntax"
  | badNumber flag value problem => badValue flag value "ParseInt" problem.text
  | tooManyNames count =>
    bytes "accepts at most 3 arg(s), received " ++ Text.ofNat count

end Misuse

def switch? (t : Text) : Option Bool :=
  if ["1", "t", "T", "true", "TRUE", "True"].any (bytes · == t) then some true
  else if ["0", "f", "F", "false", "FALSE", "False"].any (bytes · == t) then some false
  else none

namespace Options

def setSwitch (o : Options) (on : Bool) : Flag → Options
  | .compass => { o with compass := on }
  | .help => { o with help := on }
  | .listing => { o with listing := on }
  | .reversePop => { o with reversePop := on }
  | .stderr => { o with stderr := on }
  | .symbols => { o with symbols := on }
  | .vs => { o with vs := on }
  | .define | .search | .trace | .lang => o

/-- Sets an option.  A value that it does not take turns a switch off. -/
def set (o : Options) (flag : Flag) (value : Text) : Options × Option Misuse :=
  match flag with
  | .define => ({ o with define := o.define ++ [value] }, none)
  | .search => ({ o with search := o.search ++ [value] }, none)
  | .lang => ({ o with lang := value }, none)
  | .trace =>
    match Number.read value with
    | .ok n => ({ o with trace := n }, none)
    | .error problem => (o, some (.badNumber flag value problem))
  | _ =>
    match switch? value with
    | some on => (o.setSwitch on flag, none)
    | none => (o.setSwitch false flag, some (.badSwitch flag value))

end Options

/-! ## Reading a command line -/

structure Reading where
  options : Options := {}
  names : List Text := []
  misuse : Option Misuse := none
  /-- An option that takes the next argument, and the problem if there is none. -/
  pending : Option (Flag × Misuse) := none
  namesOnly : Bool := false

namespace Reading

def set (st : Reading) (flag : Flag) (value : Text) : Reading :=
  let (options, misuse) := st.options.set flag value
  { st with options, misuse }

/-- Takes a group of letters.  A group that starts like the options of a test run is passed over. -/
def letters (st : Reading) : Text → Reading
  | [] => st
  | b :: rest =>
    if (bytes "test.").isPrefixOf (b :: rest) then st
    else match Flag.ofLetter? b with
      | none => { st with misuse := some (.unknownLetter b (b :: rest)) }
      | some flag =>
        if rest.head? == some '='.toUInt8 && rest.length > 1 then st.set flag (rest.drop 1)
        else if flag.needsValue then
          if rest.isEmpty then { st with pending := some (flag, .letterAlone b) }
          else st.set flag rest
        else letters (st.set flag (bytes "true")) rest

/-- Takes an option by its long name, given with the two dashes. -/
def long (st : Reading) (arg : Text) : Reading :=
  let body := arg.drop 2
  if body.head? == some '-'.toUInt8 || body.head? == some '='.toUInt8 then
    { st with misuse := some (.malformed arg) }
  else
    let (name, value) := match Text.cut? '='.toUInt8 body with
      | some (name, value) => (name, some value)
      | none => (body, none)
    match Flag.ofName? name, value with
    | none, _ => { st with misuse := some (.unknownName name) }
    | some flag, some value => st.set flag value
    | some flag, none =>
      if flag.needsValue then { st with pending := some (flag, .nameAlone arg) }
      else st.set flag (bytes "true")

def take (st : Reading) (arg : Text) : Reading :=
  if st.misuse.isSome then st
  else match st.pending with
    | some (flag, _) => { st with pending := none }.set flag arg
    | none =>
      let dash := '-'.toUInt8
      if st.namesOnly || arg.head? != some dash || arg.length = 1 then
        { st with names := st.names ++ [arg] }
      else if arg == [dash, dash] then { st with namesOnly := true }
      else if arg.drop 1 |>.head? |>.any (· == dash) then st.long arg
      else st.letters (arg.drop 1)

def close (st : Reading) : Reading :=
  match st.misuse, st.pending with
  | none, some (_, misuse) => { st with misuse := some misuse }
  | _, _ => st

def ofArgs (args : List Text) : Reading := (args.foldl take {}).close

end Reading

end Z80Asm.Command
