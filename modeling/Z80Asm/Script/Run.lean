import Std.Data.HashMap
import Z80Asm.Script.Library

/-!
# Running scripts

Functions never call themselves, so a run goes no deeper than the functions are many and the script is nested;
the fuel of the evaluation is that depth.
-/

namespace Z80Asm.Script

/-- What stays the same while a function runs. -/
structure Setting where
  known : Std.HashMap Text Value
  /-- The first slots of the function and of those around it, innermost first. -/
  frames : List Nat
  running : List Mark := []

inductive Ending where
  | on
  | left
  | next
  | given (value : Value)

namespace Setting

/-- The slot of a variable, `up` functions outwards. -/
def slot (setting : Setting) (up index : Nat) : Nat := setting.frames.getD up 0 + index

def value (setting : Setting) : Variable → Step Value
  | .slot up index name => do
    match ((← get).slots[setting.slot up index]?).join with
    | some v => return v
    | none => stop (.unset false name)
  | .global index name => do
    match ((← get).globals[index]?).join with
    | some v => return v
    | none => stop (.unset true name)
  | .known name =>
    match setting.known[name]? with
    | some v => return v
    | none => stop (.unset true name)

def assign (setting : Setting) (place : Variable) (v : Value) : Step Unit :=
  match place with
  | .slot up index _ =>
    modify fun store => { store with slots := store.slots.setIfInBounds (setting.slot up index) (some v) }
  | .global index _ =>
    modify fun store => { store with globals := store.globals.setIfInBounds index (some v) }
  | .known _ => return ()

end Setting

/-! ## Calls -/

/-- Puts in the values of named arguments: among the plain parameters, else among the surplus ones. -/
def bindNamed (header : Header) : List (Option Value) → List (Text × Value) → List (Text × Value) →
    Except Failure (List (Option Value) × List (Text × Value))
  | values, surplus, [] => .ok (values, surplus)
  | values, surplus, (name, v) :: rest =>
    match header.params.findIdx? (· == name) with
    | some i =>
      if (values[i]?.join).isSome then .error (.call header.name (.twice name))
      else bindNamed header (values.set i (some v)) surplus rest
    | none =>
      if !header.restNamed then .error (.call header.name (.unknown name))
      else if (surplus.lookup name).isSome then .error (.call header.name (.twice name))
      else bindNamed header values (surplus ++ [(name, v)]) rest

/-- The values of the plain parameters of a function, and the surplus arguments of both kinds. -/
def bindParams (header : Header) (defaults : List (Option Value)) (args : Arguments) :
    Except Failure (List (Option Value) × List Value × List (Text × Value)) := do
  let given := args.plain.length
  if header.params.isEmpty && !header.rest && !header.restNamed && given + args.named.length > 0 then
    throw (.call header.name (.takesNone (given + args.named.length)))
  if given > header.positional && !header.rest then
    let atMost := (defaults.take header.positional).any Option.isSome
    throw (.call header.name (.tooMany header.positional atMost given))
  let plain := (args.plain.take header.positional).map some
  let values := plain ++ List.replicate (header.params.length - plain.length) none
  let (values, surplus) ← bindNamed header values [] args.named
  let values := (values.zip defaults).map fun (v, d) => v.or d
  let missing := (header.params.zip values).filter (·.2.isNone)
  if !missing.isEmpty then throw (.call header.name (.missing (missing.map (·.1))))
  return (values, args.plain.drop header.positional, surplus)

def namedOf : List (Value × Value) → Except Failure (List (Text × Value))
  | [] => .ok []
  | (.str name, v) :: rest => (namedOf rest).map ((name, v) :: ·)
  | (key, _) :: _ => .error (.keyword key.kind)

/-- The values of a sequence that is assigned to `want` targets. -/
def unpack (want : Nat) (v : Value) : Step (List Value) := do
  match (← get).sequence? v with
  | none => stop (.notUnpackable v.kind)
  | some s =>
    let got := match s with
      | .items xs => xs.length
      | .range r => r.length
    if got > want then stop (.surplus got want)
    if got < want then stop (.shortage got want)
    return s.toList

def Constant.value : Constant → Value
  | int n => .int n
  | float x => .float x
  | str t => .str t
  | octets t => .octets t

/-! ## Evaluation -/

mutual

def eval : Nat → Setting → Code → Step Value
  | 0, _, _ => stop .tooDeep
  | _ + 1, _, .constant value => return value.value
  | _ + 1, setting, .get place => setting.value place
  | fuel + 1, setting, .tuple items => return .tuple (← items.mapM (eval fuel setting))
  | fuel + 1, setting, .list items => do newList (← items.mapM (eval fuel setting)).toArray
  | fuel + 1, setting, .dict entries => do
    let v ← newDict #[]
    if let .dict a := v then
      entries.forM fun (.mk key value) => do
        let k ← eval fuel setting key
        if !(← setKey a k (← eval fuel setting value)) then
          stop (.repeatedKey ((← get).represent k))
    return v
  | fuel + 1, setting, .madeList body clauses => do
    let made ← make fuel setting clauses (fun made => return made.push (← eval fuel setting body))
      (#[] : Array Value)
    newList made
  | fuel + 1, setting, .madeDict (.mk key value) clauses => do
    let v ← newDict #[]
    if let .dict a := v then
      make fuel setting clauses (fun _ => do
        let k ← eval fuel setting key
        let _ ← setKey a k (← eval fuel setting value)) ()
    return v
  | fuel + 1, setting, .unary op x => do op.apply (← eval fuel setting x)
  | fuel + 1, setting, .binary op x y => do
    let a ← eval fuel setting x
    let b ← eval fuel setting y
    op.apply a b
  | fuel + 1, setting, .and x y => do
    let a ← eval fuel setting x
    if (← get).truth a then eval fuel setting y else return a
  | fuel + 1, setting, .or x y => do
    let a ← eval fuel setting x
    if (← get).truth a then return a else eval fuel setting y
  | fuel + 1, setting, .ifElse condition yes no => do
    let c ← eval fuel setting condition
    if (← get).truth c then eval fuel setting yes else eval fuel setting no
  | fuel + 1, setting, .dot x field => do (← eval fuel setting x).field field
  | fuel + 1, setting, .index x i => do
    let a ← eval fuel setting x
    let b ← eval fuel setting i
    a.item b
  | fuel + 1, setting, .slice x low high step => do
    let a ← eval fuel setting x
    let low ← low.mapM (eval fuel setting)
    let high ← high.mapM (eval fuel setting)
    let step ← step.mapM (eval fuel setting)
    a.slice low high step
  | fuel + 1, setting, .call f args => do
    let g ← eval fuel setting f
    let mut plain : Array Value := #[]
    let mut named : Array (Text × Value) := #[]
    let mut spread : Option Value := none
    let mut spreadNamed : Option Value := none
    for arg in args do
      match arg with
      | .plain e => plain := plain.push (← eval fuel setting e)
      | .named name e => named := named.push (name, ← eval fuel setting e)
      | .spread e => spread := some (← eval fuel setting e)
      | .spreadNamed e => spreadNamed := some (← eval fuel setting e)
    let more ← match spreadNamed with
      | none => pure []
      | some (.dict a) => settle (namedOf ((← get).entries a).toList)
      | some v => stop (.spreadNamed v.kind)
    let rest ← match spread with
      | none => pure []
      | some v =>
        match (← get).sequence? v with
        | some s => pure s.toList
        | none => stop (.spread v.kind)
    call fuel setting g { plain := plain.toList ++ rest, named := named.toList ++ more }
  | fuel + 1, setting, .function header defaults body => do
    let defaults ← defaults.mapM fun d => d.mapM (eval fuel setting)
    return .function (← newSerial) header defaults body setting.frames

/-- Goes through the loops of clauses and does `body` in each turn. -/
def make {β : Type} : Nat → Setting → List CodeClause → (β → Step β) → β → Step β
  | 0, _, _, _, _ => stop .tooDeep
  | _ + 1, _, [], body, x => body x
  | fuel + 1, setting, .filter condition :: rest, body, x => do
    let c ← eval fuel setting condition
    if (← get).truth c then make fuel setting rest body x else return x
  | fuel + 1, setting, .loop target source :: rest, body, x => do
    let s ← eval fuel setting source
    loopOver s (fun x v => do
      assignTo fuel setting target v
      return (← make fuel setting rest body x, true)) x

def assignTo : Nat → Setting → Target → Value → Step Unit
  | 0, _, _, _ => stop .tooDeep
  | _ + 1, setting, .set place, v => setting.assign place v
  | fuel + 1, setting, .index x i, v => do
    let a ← eval fuel setting x
    let b ← eval fuel setting i
    a.setItem b v
  | fuel + 1, setting, .dot x field, _ => do
    let a ← eval fuel setting x
    stop (.noFieldAssignment field a.kind)
  | fuel + 1, setting, .sequence targets, v => do
    let vs ← unpack targets.length v
    (targets.zip vs).forM fun (t, v) => assignTo fuel setting t v

def call : Nat → Setting → Value → Arguments → Step Value
  | 0, _, _, _ => stop .tooDeep
  | fuel + 1, setting, .function _ header defaults body frames, args => do
    if setting.running.contains header.mark then stop (.call header.name .recursive)
    let (values, surplus, surplusNamed) ← settle (bindParams header defaults args)
    let rest := if header.rest then [some (Value.tuple surplus)] else []
    let restNamed ← if header.restNamed then
        pure [some (← newDict (surplusNamed.map fun (name, v) => (.str name, v)).toArray)]
      else pure []
    let frame ← newSlots header.size (values ++ rest ++ restNamed)
    let inside := { setting with frames := frame :: frames, running := header.mark :: setting.running }
    match ← execAll fuel inside body with
    | .given v => return v
    | _ => return .none
  | fuel + 1, setting, .builtin b, args => b.run (fun f vs => call fuel setting f { plain := vs }) args
  | _ + 1, _, .method _ receiver name, args => callMethod receiver name args
  | _ + 1, _, v, _ => stop (.notCallable v.kind)

def exec : Nat → Setting → Action → Step Ending
  | 0, _, _ => stop .tooDeep
  | fuel + 1, setting, .value e => do
    let _ ← eval fuel setting e
    return .on
  | fuel + 1, setting, .assign target e => do
    assignTo fuel setting target (← eval fuel setting e)
    return .on
  | fuel + 1, setting, .change op (.set place) e => do
    let x ← setting.value place
    let y ← eval fuel setting e
    setting.assign place (← op.change x y)
    return .on
  | fuel + 1, setting, .change op (.index x i) e => do
    let a ← eval fuel setting x
    let b ← eval fuel setting i
    let old ← a.item b
    let y ← eval fuel setting e
    a.setItem b (← op.change old y)
    return .on
  | fuel + 1, setting, .change op (.dot x field) e => do
    let a ← eval fuel setting x
    let old ← a.field field
    let y ← eval fuel setting e
    let _ ← op.change old y
    stop (.noFieldAssignment field a.kind)
  | _ + 1, _, .change _ (.sequence _) _ => return .on
  | _ + 1, _, .give none => return .given .none
  | fuel + 1, setting, .give (some e) => return .given (← eval fuel setting e)
  | fuel + 1, setting, .loop target source body => do
    let s ← eval fuel setting source
    loopOver s (fun _ v => do
      assignTo fuel setting target v
      match ← execAll fuel setting body with
      | .left => return (.on, false)
      | .given v => return (.given v, false)
      | _ => return (.on, true)) .on
  | fuel + 1, setting, .choose condition yes no => do
    let c ← eval fuel setting condition
    if (← get).truth c then execAll fuel setting yes else execAll fuel setting no
  | _ + 1, _, .leave => return .left
  | _ + 1, _, .next => return .next
  | _ + 1, _, .load => stop .load

def execAll : Nat → Setting → List Action → Step Ending
  | 0, _, _ => stop .tooDeep
  | _ + 1, _, [] => return .on
  | fuel + 1, setting, s :: ss => do
    match ← exec fuel setting s with
    | .on => execAll fuel setting ss
    | ending => return ending

end

end Z80Asm.Script
