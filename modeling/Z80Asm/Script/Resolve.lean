import Z80Asm.Script.Resolved
import Z80Asm.Script.Spelling
import Z80Asm.Text.Quoted

/-!
# Settling names

Names are settled before a script runs.  A name that is assigned outside functions is global, and is assigned
once; one that is assigned in a function is local to it, and one of a loop that makes a list is local to the
list; every other name has to be known beforehand.  Loops and choices stand in functions only.

Problems of statements are found in the order of the script.  Unknown names come after them, those of inner
functions before those of the functions around them.
-/

namespace Z80Asm.Script

/-- The names of a function or of what is made in loops, with their slots. -/
structure Block where
  /-- The place of the block, which tells it from every other. -/
  mark : Mark
  names : List (Text × Nat)

structure Scope where
  file : Text
  known : List Text
  /-- The names that every script knows. -/
  everywhere : List Text
  globals : List Text
  frames : List (List Block)
  inFunction : Bool := false
  inLoop : Bool := false
  inChoice : Bool := false
  outermost : Bool := true

/-- A use of a name from outside of its function. -/
structure Use where
  id : Ident
  blocks : List Block

structure Progress where
  size : Nat := 0
  problems : List Problem := []
  inner : List Use := []
  own : List Use := []
  bound : List Ident := []
  loaded : List Ident := []

abbrev Resolver := StateM Progress

namespace Scope

def slot? (name : Text) (blocks : List Block) : Option Nat := blocks.findSome? (·.names.lookup name)

/-- The place of a name in the functions around, `up` of which have been left. -/
def find? (name : Text) (up : Nat) : List (List Block) → Option Variable
  | [] => none
  | blocks :: frames =>
    match slot? name blocks with
    | some index => some (.slot up index name)
    | none => find? name (up + 1) frames

def place (scope : Scope) (name : Text) : Variable :=
  match find? name 0 scope.frames with
  | some v => v
  | none =>
    match scope.globals.findIdx? (· == name) with
    | some index => .global index name
    | none => .known name

def isLocal (scope : Scope) (name : Text) : Bool := (slot? name (scope.frames.headD [])).isSome

def isKnown (scope : Scope) (name : Text) : Bool :=
  match scope.place name with
  | .known _ => scope.known.contains name || scope.everywhere.contains name
  | _ => true

end Scope

namespace Resolve

def problem (mark : Mark) (text : Text) : Resolver Unit :=
  modify fun p => { p with problems := { mark, text } :: p.problems }

def require (fine : Bool) (mark : Mark) (text : String) : Resolver Unit :=
  if fine then pure () else problem mark (bytes text)

def use (scope : Scope) (id : Ident) : Resolver Code := do
  if !scope.isLocal id.name then
    modify fun p => { p with own := { id, blocks := scope.frames.flatten } :: p.own }
  return .get (scope.place id.name)

/-- Binds a name outside of functions: only once. -/
def bindGlobal (file : Text) (id : Ident) : Resolver Unit := do
  let p ← get
  let again (kind : String) (before : Ident) :=
    problem id.mark (bytes "cannot reassign " ++ bytes kind ++ bytes " " ++ id.name ++ bytes " declared at "
      ++ before.mark.text file)
  match p.loaded.find? (·.name == id.name), p.bound.find? (·.name == id.name) with
  | some before, _ => again "local" before
  | none, some before => again "global" before
  | none, none => set { p with bound := id :: p.bound }

def bind (scope : Scope) (id : Ident) : Resolver Variable := do
  if scope.outermost then bindGlobal scope.file id
  return scope.place id.name

def distinct (names : List Text) : List Text :=
  names.foldl (fun seen name => if seen.contains name then seen else seen ++ [name]) []

def slots (first : Nat) (names : List Text) : List (Text × Nat) := names.zip (List.range' first names.length)

def openBlock (scope : Scope) (mark : Mark) (names : List Text) : Resolver Scope := do
  let p ← get
  let names := distinct names
  set { p with size := p.size + names.length }
  let block : Block := { mark, names := slots p.size names }
  let frames := match scope.frames with
    | blocks :: frames => (block :: blocks) :: frames
    | [] => [[block]]
  return { scope with frames, outermost := false }

/-- Settles the inside of a function with some names of its own, and gives the number of its slots. -/
def inside {α : Type} (scope : Scope) (mark : Mark) (names : List Text) (walk : Scope → Resolver α) :
    Resolver (α × Nat) := do
  let outer ← get
  let names := distinct names
  set { outer with size := names.length, inner := [], own := [] }
  let block : Block := { mark, names := slots 0 names }
  let x ← walk { scope with
    frames := [block] :: scope.frames
    inFunction := true, inLoop := false, inChoice := false, outermost := false }
  let p ← get
  set { p with size := outer.size, inner := p.own ++ p.inner ++ outer.inner, own := outer.own }
  return (x, p.size)

/-! ## Bound names -/

mutual

def targetNames : Term → List Text
  | .name id => [id.name]
  | .paren _ x => targetNames x
  | .tuple _ items => targetsNames items
  | .list _ items => targetsNames items
  | _ => []

def targetsNames : List Term → List Text
  | [] => []
  | x :: xs => targetNames x ++ targetsNames xs

end

def clauseNames : List Clause → List Text
  | [] => []
  | .loop target _ :: rest => targetNames target ++ clauseNames rest
  | .filter _ :: rest => clauseNames rest

mutual

def boundBy : Stmt → List Text
  | .assign target _ => targetNames target
  | .change _ target _ => targetNames target
  | .define id _ _ => [id.name]
  | .loop _ target _ body => targetNames target ++ boundByAll body
  | .again _ _ body => boundByAll body
  | .choose _ _ yes no => boundByAll yes ++ boundByAll no
  | .value _ => []
  | .give _ _ => []
  | .pass => []
  | .leave _ => []
  | .next _ => []
  | .load _ _ => []

def boundByAll : List Stmt → List Text
  | [] => []
  | s :: ss => boundBy s ++ boundByAll ss

end

def loadedBy (body : List Stmt) : List Text :=
  body.flatMap fun
    | .load _ names => names.map (·.1.name)
    | _ => []

/-! ## Parameters -/

structure ParamCheck where
  bound : List Text := []
  optional : Bool := false
  /-- The place of a star, and the name of the surplus arguments. -/
  rest : Option (Mark × Option Ident) := none
  restNamed : Option Ident := none
  named : Nat := 0
  problems : List Problem := []

namespace ParamCheck

def note (c : ParamCheck) (mark : Mark) (text : Text) : ParamCheck :=
  { c with problems := { mark, text } :: c.problems }

/-- Binds a parameter; a second one of the same name is reported at `mark`. -/
def bind (c : ParamCheck) (id : Ident) (mark : Mark) : ParamCheck :=
  if c.bound.contains id.name then c.note mark (bytes "duplicate parameter: " ++ id.name)
  else { c with bound := id.name :: c.bound }

def late (c : ParamCheck) (mark : Mark) (kind : String) (restNamed : Ident) : ParamCheck :=
  c.note mark (bytes kind ++ bytes " parameter may not follow **" ++ restNamed.name)

def add (c : ParamCheck) : Param → ParamCheck
  | .required id =>
    let c := match c.restNamed, c.rest with
      | some r, _ => c.late id.mark "required" r
      | none, some _ => { c with named := c.named + 1 }
      | none, none =>
        if c.optional then c.note id.mark (bytes "required parameter may not follow optional") else c
    c.bind id id.mark
  | .optional id mark _ =>
    let c := match c.restNamed, c.rest with
      | some r, _ => c.late mark "optional" r
      | none, some _ => { c with named := c.named + 1 }
      | none, none => c
    { c.bind id mark with optional := true }
  | .rest mark id =>
    match c.restNamed, c.rest with
    | some r, _ => c.late mark "*" r
    | none, some _ => c.note mark (bytes "multiple * parameters")
    | none, none => { c with rest := some (mark, id) }
  | .restNamed mark id =>
    let c := if c.restNamed.isSome then c.note mark (bytes "multiple ** parameters") else c
    { c with restNamed := some id }

/-- Binds the names of the surplus arguments, which come last. -/
def finish (c : ParamCheck) : ParamCheck :=
  let c := match c.rest with
    | some (_, some id) => c.bind id id.mark
    | some (mark, none) =>
      if c.named = 0 then c.note mark (bytes "bare * must be followed by keyword-only parameters") else c
    | none => c
  match c.restNamed with
  | some id => c.bind id id.mark
  | none => c

def ofParams (params : List Param) : ParamCheck := (params.foldl add {}).finish

end ParamCheck

def plainName? : Param → Option Text
  | .required id => some id.name
  | .optional id _ _ => some id.name
  | _ => none

def isBeforeStar : Param → Bool
  | .required _ => true
  | .optional _ _ _ => true
  | _ => false

def paramNames (params : List Param) (c : ParamCheck) : List Text :=
  params.filterMap plainName? ++ (c.rest.bind (·.2)).toList.map (·.name) ++ c.restNamed.toList.map (·.name)

def header (name : Text) (mark : Mark) (params : List Param) (c : ParamCheck) (size : Nat) : Header where
  name
  mark
  params := params.filterMap plainName?
  positional := (params.takeWhile isBeforeStar).length
  rest := (c.rest.bind (·.2)).isSome
  restNamed := c.restNamed.isSome
  size

def noteParams (c : ParamCheck) : Resolver Unit :=
  modify fun p => { p with problems := c.problems ++ p.problems }

/-! ## Arguments -/

structure ArgumentCheck where
  plain : Nat := 0
  names : List Text := []
  named : Nat := 0
  spread : Bool := false
  spreadNamed : Bool := false

/-- The greatest number of arguments of a kind, excluded. -/
def argumentLimit : Nat := 256

def checkArgument (c : ArgumentCheck) : Argument → Resolver ArgumentCheck
  | .plain x => do
    if c.spread then problem x.start (bytes "positional argument may not follow *args")
    else if c.spreadNamed then problem x.start (bytes "positional argument may not follow **kwargs")
    else if !c.names.isEmpty then problem x.start (bytes "positional argument may not follow named")
    return { c with plain := c.plain + 1 }
  | .named id _ => do
    if c.spreadNamed then problem id.mark (bytes "keyword argument may not follow **kwargs")
    else if c.spread then problem id.mark (bytes "keyword argument may not follow *args")
    if c.names.contains id.name then
      problem id.mark (bytes "keyword argument " ++ Text.quote id.name ++ bytes " is repeated")
    return { c with names := id.name :: c.names, named := c.named + 1 }
  | .spread mark _ => do
    if c.spreadNamed then problem mark (bytes "*args may not follow **kwargs")
    else if c.spread then problem mark (bytes "multiple *args not allowed")
    return { c with spread := true }
  | .spreadNamed mark _ => do
    if c.spreadNamed then problem mark (bytes "multiple **kwargs not allowed")
    return { c with spreadNamed := true }

def checkCount (c : ArgumentCheck) (mark : Mark) : Resolver Unit := do
  let check (count : Nat) (kind : String) :=
    require (count < argumentLimit) mark
      (toString count ++ " " ++ kind ++ " arguments in call, limit is 255")
  check c.plain "positional"
  check c.named "keyword"

/-! ## Expressions -/

mutual

def term : Scope → Term → Resolver Code
  | _, .constant value _ => return .constant value
  | scope, .name id => use scope id
  | scope, .paren _ x => term scope x
  | scope, .tuple _ items => return .tuple (← terms scope items)
  | scope, .list _ items => return .list (← terms scope items)
  | scope, .dict _ entries => return .dict (← entryCodes scope entries)
  | scope, .madeList mark body cs => do
    let inner ← openBlock scope mark (clauseNames cs)
    let cs ← clauseCodes scope inner cs
    return .madeList (← term inner body) cs
  | scope, .madeDict mark body cs => do
    let inner ← openBlock scope mark (clauseNames cs)
    let cs ← clauseCodes scope inner cs
    return .madeDict (← entryCode inner body) cs
  | scope, .unary op _ x => return .unary op (← term scope x)
  | scope, .binary op x y => return .binary op (← term scope x) (← term scope y)
  | scope, .and x y => return .and (← term scope x) (← term scope y)
  | scope, .or x y => return .or (← term scope x) (← term scope y)
  | scope, .ifElse condition yes no =>
    return .ifElse (← term scope condition) (← term scope yes) (← term scope no)
  | scope, .dot x field => return .dot (← term scope x) field
  | scope, .index x i => return .index (← term scope x) (← term scope i)
  | scope, .slice x low high step =>
    return .slice (← term scope x) (← termIfAny scope low) (← termIfAny scope high)
      (← termIfAny scope step)
  | scope, .call f args => do
    let g ← term scope f
    return .call g (← argumentCodes scope f.start {} args)
  | scope, .lambda mark ps body => do
    let defaults ← defaultCodes scope ps
    let c := ParamCheck.ofParams ps
    noteParams c
    let (code, size) ← inside scope mark (paramNames ps c) fun inner => term inner body
    return .function (header (bytes "lambda") mark ps c size) defaults [.give (some code)]

def termIfAny : Scope → Option Term → Resolver (Option Code)
  | _, none => return none
  | scope, some x => return some (← term scope x)

def terms : Scope → List Term → Resolver (List Code)
  | _, [] => return []
  | scope, x :: xs => return (← term scope x) :: (← terms scope xs)

def entryCode : Scope → Entry → Resolver CodeEntry
  | scope, .mk key value => return .mk (← term scope key) (← term scope value)

def entryCodes : Scope → List Entry → Resolver (List CodeEntry)
  | _, [] => return []
  | scope, x :: xs => return (← entryCode scope x) :: (← entryCodes scope xs)

/-- Settles the names of clauses in turn.  What the first loop goes over stands outside of its block. -/
def clauseCodes : Scope → Scope → List Clause → Resolver (List CodeClause)
  | _, _, [] => return []
  | outer, inner, .loop x source :: rest => do
    let source ← term outer source
    let x ← target inner false x
    return .loop x source :: (← clauseCodes inner inner rest)
  | _, inner, .filter condition :: rest =>
    return .filter (← term inner condition) :: (← clauseCodes inner inner rest)

/-- Settles the names of arguments in turn; `start` is the place of the call. -/
def argumentCodes : Scope → Mark → ArgumentCheck → List Argument → Resolver (List CodeArgument)
  | _, start, c, [] => do
    checkCount c start
    return []
  | scope, start, c, arg :: rest => do
    let c ← checkArgument c arg
    let code ← match arg with
      | .plain x => pure (.plain (← term scope x))
      | .named id x => pure (.named id.name (← term scope x))
      | .spread _ x => pure (.spread (← term scope x))
      | .spreadNamed _ x => pure (.spreadNamed (← term scope x))
    return code :: (← argumentCodes scope start c rest)

def defaultCodes : Scope → List Param → Resolver (List (Option Code))
  | _, [] => return []
  | scope, .required _ :: rest => return none :: (← defaultCodes scope rest)
  | scope, .optional _ _ value :: rest => return some (← term scope value) :: (← defaultCodes scope rest)
  | scope, .rest _ _ :: rest => defaultCodes scope rest
  | scope, .restNamed _ _ :: rest => defaultCodes scope rest

/-- Settles the names of a target; `changes` is set if its value is used as well. -/
def target : Scope → Bool → Term → Resolver Target
  | scope, _, .name id => return .set (← bind scope id)
  | scope, _, .index x i => return .index (← term scope x) (← term scope i)
  | scope, _, .dot x field => return .dot (← term scope x) field
  | scope, changes, .tuple mark items => do
    require (!changes) mark "can't use tuple expression in augmented assignment"
    return .sequence (← targets scope changes items)
  | scope, changes, .list mark items => do
    require (!changes) mark "can't use list expression in augmented assignment"
    return .sequence (← targets scope changes items)
  | scope, changes, .paren _ x => target scope changes x
  | _, _, x => do
    problem x.start (bytes "can't assign to " ++ bytes x.noun)
    return .sequence []

def targets : Scope → Bool → List Term → Resolver (List Target)
  | _, _, [] => return []
  | scope, changes, x :: xs => return (← target scope changes x) :: (← targets scope changes xs)

end

/-! ## Statements -/

/-- Notes the problems of names taken from another module, and binds them. -/
def loadName (names : Ident × Ident) : Resolver Unit := do
  let (here, there) := names
  if there.name.isEmpty then problem there.mark (bytes "load: empty identifier")
  else
    if there.name.head? = some '_'.toUInt8 then
      problem there.mark (bytes "load: names with leading underscores are not exported: " ++ there.name)
    if (← get).loaded.any (·.name == here.name) then
      problem here.mark (bytes "cannot reassign top-level " ++ here.name)
    else modify fun p => { p with loaded := here :: p.loaded }

mutual

def statement : Scope → Stmt → Resolver (List Action)
  | scope, .value x => return [.value (← term scope x)]
  | scope, .assign x value => do
    let value ← term scope value
    return [.assign (← target scope false x) value]
  | scope, .change op x value => do
    let value ← term scope value
    return [.change op (← target scope true x) value]
  | scope, .define id ps body => do
    let place ← bind scope id
    let defaults ← defaultCodes scope ps
    let c := ParamCheck.ofParams ps
    noteParams c
    let (code, size) ← inside scope id.mark (paramNames ps c ++ boundByAll body) fun inner =>
      statements inner body
    return [.assign (.set place) (.function (header id.name id.mark ps c size) defaults code)]
  | scope, .give mark value => do
    require scope.inFunction mark "return statement not within a function"
    return [.give (← termIfAny scope value)]
  | scope, .loop mark x source body => do
    require scope.inFunction mark "for loop not within a function"
    let source ← term scope source
    let x ← target scope false x
    return [.loop x source (← statements { scope with inLoop := true } body)]
  | scope, .again mark condition body => do
    problem mark (bytes "this Starlark dialect does not support while loops")
    require scope.inFunction mark "while loop not within a function"
    let _ ← term scope condition
    let _ ← statements { scope with inLoop := true } body
    return []
  | scope, .choose mark condition yes no => do
    require scope.inFunction mark "if statement not within a function"
    let condition ← term scope condition
    let inner := { scope with inChoice := true }
    let yes ← statements inner yes
    return [.choose condition yes (← statements inner no)]
  | _, .pass => return []
  | scope, .leave mark => do
    require scope.inLoop mark "break not in a loop"
    return [.leave]
  | scope, .next mark => do
    require scope.inLoop mark "continue not in a loop"
    return [.next]
  | scope, .load mark names => do
    if scope.inFunction then problem mark (bytes "load statement within a function")
    else if scope.inLoop then problem mark (bytes "load statement within a loop")
    else if scope.inChoice then problem mark (bytes "load statement within a conditional")
    names.forM loadName
    return [.load]

def statements : Scope → List Stmt → Resolver (List Action)
  | _, [] => return []
  | scope, s :: ss => return (← statement scope s) ++ (← statements scope ss)

end

/-! ## Unknown names -/

/-- The look-up of a used name gets as far as a block, for no block further in has the name. -/
def reaches (use : Use) (block : Block) : Bool :=
  let further := use.blocks.takeWhile (·.mark != block.mark)
  further.length < use.blocks.length && further.all fun b => (b.names.lookup use.id.name).isNone

/-- The names that may have been meant: those of the blocks around, those that were looked up in them before,
and the globals. -/
def candidates (globals : List Text) (before : List Use) (use : Use) : List Text :=
  let blockNames := use.blocks.flatMap fun b => b.names.map (·.1)
  let lookedUp := use.blocks.dropLast.flatMap fun b => (before.filter (reaches · b)).map (·.id.name)
  (blockNames ++ lookedUp ++ globals).mergeSort fun a b => (compare a b).isLE

def useProblem? (scope : Scope) (before : List Use) (use : Use) : Option Problem :=
  let name := use.id.name
  if !(scope.isKnown name || (Scope.slot? name use.blocks).isSome) then
    let hint := Spelling.hint [] name (candidates scope.globals before use)
    some { mark := use.id.mark, text := bytes "undefined: " ++ name ++ hint }
  else if name = bytes "set" && (Scope.slot? name use.blocks).isNone && !scope.globals.contains name
      && !scope.known.contains name then
    some { mark := use.id.mark, text := bytes "this Starlark dialect does not support sets" }
  else none

/-- The first problem of uses in turn; `before` are the ones settled already, last first. -/
def firstProblem? (scope : Scope) (before : List Use) : List Use → Option Problem
  | [] => none
  | use :: rest =>
    match useProblem? scope before use with
    | some problem => some problem
    | none => firstProblem? scope (use :: before) rest

end Resolve

/-- Settles the names of a script, given the names that it knows and those that every script knows. -/
def resolve (file : Text) (known everywhere : List Text) (body : List Stmt) : Except Problem Resolved :=
  let loaded := Resolve.distinct (Resolve.loadedBy body)
  let globals := (Resolve.distinct (Resolve.boundByAll body)).filter (!loaded.contains ·)
  let outside : Block := { mark := { line := 0, col := 0 }, names := Resolve.slots 0 loaded }
  let scope : Scope := { file, known, everywhere, globals, frames := [[outside]] }
  let (code, p) := (Resolve.statements scope body).run { size := loaded.length }
  match p.problems.getLast?, Resolve.firstProblem? scope [] (p.own ++ p.inner).reverse with
  | some problem, _ => .error problem
  | none, some problem => .error problem
  | none, none => .ok { globals, size := p.size, body := code }

end Z80Asm.Script
