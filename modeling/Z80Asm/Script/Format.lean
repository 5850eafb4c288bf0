import Z80Asm.Script.Show

/-!
# Values in formats

The operation `%` puts values into a text, each in the place of a percent sign and a letter.
-/

namespace Z80Asm.Script

/-- An integer, or a number with a fraction cut to one. -/
def Value.toInt : Value → Except Failure Int
  | .int n => .ok n
  | .float (.infinite _) => .error (.complaint (bytes "cannot convert float infinity to integer"))
  | .float .undefined => .error (.complaint (bytes "cannot convert float NaN to integer"))
  | .float x => .ok (x.truncate?.getD 0)
  | v => .error (.complaint (bytes "cannot convert " ++ v.kind ++ bytes " to int"))

/-- A number as one with a fraction, if it is not too large. -/
def Value.toFloat : Value → Except Failure (Option Double)
  | .float x => .ok (some x)
  | .int n =>
    let x := Double.ofInt n
    if x.isFinite then .ok (some x) else .error .tooLargeForFloat
  | _ => .ok Option.none

namespace Format

def complain {α : Type} (text : Text) : Except Failure α := .error (.complaint text)

def inRadix (radix : Nat) (n : Int) : Text :=
  (if n < 0 then bytes "-" else []) ++ (Nat.toDigits radix n.natAbs).map Char.toUInt8

def upper (t : Text) : Text := t.map fun b => if 'a'.toUInt8 ≤ b && b ≤ 'z'.toUInt8 then b - 32 else b

def integer (letter : UInt8) (v : Value) : Except Failure Text := do
  let n ← match v.toInt with
    | .ok n => pure n
    | .error e =>
      complain (bytes "%" ++ [letter] ++ bytes " format requires integer: " ++ e.message)
  return if letter = 'o'.toUInt8 then inRadix 8 n
    else if letter = 'x'.toUInt8 then inRadix 16 n
    else if letter = 'X'.toUInt8 then upper (inRadix 16 n)
    else Text.ofInt n

def float (letter : UInt8) (v : Value) : Except Failure Text := do
  let x ← match v with
    | .float x => pure x
    | .int n => pure (Double.ofInt n)
    | v => complain (bytes "%" ++ [letter] ++ bytes " format requires float, not " ++ v.kind)
  return if letter = 'f'.toUInt8 || letter = 'F'.toUInt8 then x.fixedText
    else if letter = 'e'.toUInt8 || letter = 'E'.toUInt8 then x.scientificText letter
    else x.text (letter - 2)

def point : Value → Except Failure Text
  | .int n =>
    if 0 ≤ n && n ≤ 0x10FFFF then
      .ok (Text.ofPoint (if 0xD800 ≤ n && n < 0xE000 then 0xFFFD else n.toNat))
    else complain (bytes "%c format requires a valid Unicode code point, got " ++ Text.ofInt n)
  | .str t =>
    match Text.pieces t with
    | [.point _] => .ok t
    | [.stray _] => .ok (Text.ofPoint 0xFFFD)
    | _ => complain (bytes "%c format requires a single-character string")
  | v => complain (bytes "%c format requires int or single-character string, not " ++ v.kind)

def converted (store : Store) (letter : UInt8) (v : Value) : Except Failure Text :=
  if letter = 's'.toUInt8 then .ok (store.plain v)
  else if letter = 'r'.toUInt8 then .ok (store.represent v)
  else if (bytes "dioxX").contains letter then integer letter v
  else if (bytes "efgEFG").contains letter then float letter v
  else if letter = 'c'.toUInt8 then point v
  else if letter = '%'.toUInt8 then .ok (bytes "%")
  else complain (bytes "unknown conversion %" ++ Text.ofPoint letter.toNat)

def named (store : Store) (name : Text) : Value → Except Failure Value
  | .dict address =>
    match findEntry (compareDepth store comparisonLimit .eq) (.str name) (store.entries address).toList with
    | some e => .ok e.2
    | none => complain (bytes "key not found: " ++ name)
  | _ => complain (bytes "format requires a mapping")

/-- The rest of a format after `used` values were put in; `args` are those given by position. -/
def run (store : Store) (given : Value) (args : List Value) : Nat → Nat → Text → Except Failure Text
  | _, used, [] =>
    if used < args.length then complain (bytes "too many arguments for format string") else .ok []
  | 0, _, _ => .ok []
  | fuel + 1, used, b :: rest =>
    if b != '%'.toUInt8 then (run store given args fuel used rest).map (b :: ·)
    else match rest with
      | [] =>
        if used < args.length then complain (bytes "incomplete format")
        else complain (bytes "not enough arguments for format string")
      | c :: after =>
        if c = '%'.toUInt8 then (run store given args fuel used after).map (c :: ·)
        else do
          let (v, letters) ← if c = '('.toUInt8 then
              match Text.cut? ')'.toUInt8 after with
              | none => complain (bytes "incomplete format key")
              | some (name, letters) => pure (← named store name given, letters)
            else match args[used]? with
              | some v => pure (v, rest)
              | none => complain (bytes "not enough arguments for format string")
          match letters with
          | [] => complain (bytes "incomplete format")
          | letter :: after =>
            return (← converted store letter v) ++ (← run store given args fuel (used + 1) after)

end Format

/-- Puts values into a format: those of a tuple, or a single one. -/
def format (store : Store) (t : Text) (v : Value) : Except Failure Text :=
  let args := match v with
    | .tuple items => items
    | v => [v]
  Format.run store v args t.length 0 t

end Z80Asm.Script
