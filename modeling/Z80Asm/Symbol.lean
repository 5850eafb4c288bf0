import Std.Data.TreeMap
import Z80Asm.Diagnostic

/-!
# Symbols

A symbol is a label, a constant or a variable.  Its *state* is its value, whether it is defined, and
its scope; where and in which pass it was defined is only told about it.

Symbols are collected in a `Ledger` while a pass walks the program, and frozen into a `Table` at its
end.  Both are maps from names in bytewise order.
-/

namespace Z80Asm

inductive Scope where
  | global
  /-- A name made for one use of a macro. -/
  | macroLocal
  /-- Assigned by `=` or `defl`, and open to further assignments. -/
  | assigned
  | predefined
  | unnamed (number : Int)
  deriving Repr, DecidableEq

namespace Scope

def named : List Scope := [global, macroLocal, assigned, predefined]

def ofNumber (number : Int) : Scope := (numbered? named number).getD (unnamed number)

def number : Scope → Int
  | global => 0
  | macroLocal => 1
  | assigned => 2
  | predefined => 3
  | unnamed n => n

def name : Scope → Text
  | global => bytes "global"
  | macroLocal => bytes "local"
  | assigned => bytes "variable"
  | predefined => bytes "predefined"
  | unnamed n => unnamedText "Scope" n

/-- The scope of a label: names made for a use of a macro are the ones with a `>`. -/
def ofName (name : Text) : Scope := if name.contains '>'.toUInt8 then macroLocal else global

end Scope

structure Symbol where
  name : Text
  value : Int64 := 0
  /-- False for a name that is used and not defined. -/
  defined : Bool := false
  pass : Int := 0
  scope : Scope := .global
  /-- The place of the definition, or of the first use. -/
  pos : Pos := {}
  seq : Int := 0
  deriving Repr, DecidableEq

def Symbol.sameState (s t : Symbol) : Bool :=
  s.value == t.value && s.defined == t.defined && s.scope == t.scope

abbrev SymbolMap := Std.TreeMap Text Symbol

/-- The symbols at the end of a pass. -/
structure Table where
  symbols : SymbolMap := ∅
  defined : Nat := 0

namespace Table

def empty : Table := {}

def get? (t : Table) (name : Text) : Option Symbol := t.symbols[name]?

def value? (t : Table) (name : Text) : Option Int64 :=
  match t.get? name with
  | some s => if s.defined then some s.value else none
  | none => none

def toList (t : Table) : List Symbol := t.symbols.values

def definedList (t : Table) : List Symbol := t.toList.filter (·.defined)

def agreeOn (t u : Table) (name : Text) : Bool :=
  match t.get? name, u.get? name with
  | some a, some b => a.sameState b
  | none, none => true
  | _, _ => false

def diff (t u : Table) : List Text :=
  (t.symbols ∪ u.symbols).keys.filter (!t.agreeOn u ·)

/-- Both tables hold the same names, values and definedness. -/
def equal (t u : Table) : Bool := (t.diff u).isEmpty

end Table

structure Ledger where
  symbols : SymbolMap := ∅
  defined : Nat := 0
  limit : Int

namespace Ledger

def new (limit : Int) : Ledger := { limit }

/-- Defines a symbol.  Only a variable may be defined again, and only as a variable; it keeps the place
    of its first definition. -/
def define (l : Ledger) (s : Symbol) : Except Fault Ledger :=
  let s := { s with defined := true }
  match l.symbols[s.name]? with
  | some old =>
    if old.defined then
      if old.scope = .assigned && s.scope = .assigned then
        .ok { l with symbols := l.symbols.insert s.name { s with pos := old.pos, seq := old.seq } }
      else .error (.plain .labelDuplicate)
    else if (l.defined : Int) ≥ l.limit then .error (.symbolLimit l.limit)
    else .ok { l with symbols := l.symbols.insert s.name s, defined := l.defined + 1 }
  | none =>
    if (l.defined : Int) ≥ l.limit then .error (.symbolLimit l.limit)
    else .ok { l with symbols := l.symbols.insert s.name s, defined := l.defined + 1 }

/-- Notes the use of a name that is not known yet. -/
def reference (l : Ledger) (name : Text) (pos : Pos) : Ledger :=
  if l.symbols.contains name then l
  else { l with symbols := l.symbols.insert name { name, pos, scope := .ofName name } }

/-- A symbol whose state is as in the table before keeps its pass; another one gets `pass`. -/
def datedSymbol (prev : Table) (pass : Int) (name : Text) (s : Symbol) : Symbol :=
  match prev.get? name with
  | some old => { s with pass := if old.sameState s then old.pass else pass }
  | none => { s with pass }

/-- The table of the symbols so far, dated against the table of the pass before. -/
def freeze (l : Ledger) (prev : Table) (pass : Int) : Table :=
  { symbols := l.symbols.map (datedSymbol prev pass), defined := l.defined }

end Ledger

end Z80Asm
