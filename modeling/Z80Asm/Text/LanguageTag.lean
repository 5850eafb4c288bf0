import Z80Asm.Text
import Z80Asm.Text.Subtag

/-!
# Language tags

A language tag such as `de-CH` is a row of subtags, divided by hyphens or underlines: a language,
then, each of them optional and in this order, a script, a region, variants and extensions.  The case
of letters does not matter.  A tag counts only if all of it is well-formed and known; the one thing not
looked up is the language, since a language nobody writes numbers for needs no rules of its own.

Of the extensions, the keywords (`u`) are kept: they can ask for other digits or for the customs of
another region.
-/

namespace Z80Asm

/-- A tag that was understood.  All names are in lower case. -/
structure LanguageTag where
  language : String
  script : Option String := none
  region : Option String := none
  keywords : List (String × String) := []
  deriving Repr, DecidableEq

namespace LanguageTag

def isTagByte (b : UInt8) : Bool :=
  ('a'.toUInt8 ≤ b && b ≤ 'z'.toUInt8) || ('0'.toUInt8 ≤ b && b ≤ '9'.toUInt8)

def isSubtag (t : Text) : Bool := 1 ≤ t.length && t.length ≤ 8 && t.all isTagByte

/-- The subtags of a tag in lower case, if each of them is well-formed. -/
def subtags? (tag : Text) : Option (List String) :=
  let plain := tag.map fun b => if b = '_'.toUInt8 then '-'.toUInt8 else Text.lowerByte b
  let parts := Text.splitAtByte '-'.toUInt8 plain
  if parts.all isSubtag then
    some (parts.map fun part => String.ofList (part.map fun b => Char.ofNat b.toNat))
  else none

def startsWithLetter (subtag : String) : Bool := subtag.toList.head?.any Char.isAlpha

/-! ## Extensions -/

/-- Groups subtags by the ones that open a group: the subtags before the first group, and each group
    with the subtag that opens it. -/
def groups (opens : String → Bool) : List String → List String × List (String × List String)
  | [] => ([], [])
  | subtag :: rest =>
    let (before, after) := groups opens rest
    if opens subtag then ([], (subtag, before) :: after) else (subtag :: before, after)

/-- The keywords of the subtags after `u`: keys of two letters, each with its value.  A key must not
    come with two values. -/
def keywordsOf? (subtags : List String) : Option (List (String × String)) :=
  let pairs := (groups (·.length = 2) subtags).2.map fun (key, value) =>
    (key, "-".intercalate value)
  if pairs.all fun (key, value) => pairs.lookup key = some value then some pairs else none

/-- The keywords of all extensions.  An extension is a single letter or digit and at least one
    longer subtag; after `x` anything may follow. -/
def extensions? (subtags : List String) : Option (List (String × String)) :=
  let shared := subtags.takeWhile (· ≠ "x")
  let parts := (groups (·.length = 1) shared).2
  if subtags.getLast? = some "x" && shared.length + 1 = subtags.length then none
  else if parts.any fun (_, body) => body.isEmpty then none
  else match parts.lookup "u" with
    | some body => keywordsOf? body
    | none => some []

/-! ## The tag -/

/-- Whole tags of older times that stand for a language with rules of its own. -/
def oldTags : List (List String × String) :=
  [(["i", "lux"], "lb"), (["no", "bok"], "nb"), (["no", "nyn"], "nn")]

/-- Variants and extensions, the last parts of a tag. -/
def finish? (tag : LanguageTag) (subtags : List String) : Option LanguageTag :=
  let rest := subtags.dropWhile (4 ≤ ·.length)
  if !(subtags.takeWhile (4 ≤ ·.length)).all Subtag.variants.contains then none
  else match rest with
    | [] => some tag
    | first :: _ =>
      if first.length = 1 then (extensions? rest).map fun keywords => { tag with keywords }
      else none

def regionOn? (tag : LanguageTag) : List String → Option LanguageTag
  | subtag :: rest =>
    if subtag.length = 2 || subtag.length = 3 then
      (Subtag.region? subtag).bind fun region => finish? { tag with region := some region } rest
    else finish? tag (subtag :: rest)
  | [] => some tag

def scriptOn? (tag : LanguageTag) : List String → Option LanguageTag
  | subtag :: rest =>
    if subtag.length = 4 && startsWithLetter subtag then
      if Subtag.scripts.contains subtag then regionOn? { tag with script := some subtag } rest
      else none
    else regionOn? tag (subtag :: rest)
  | [] => some tag

/-- The language: of several three letter names the last one counts. -/
def languageOn? (language : String) : List String → Option LanguageTag
  | subtag :: rest =>
    if subtag.length = 3 && startsWithLetter subtag then languageOn? subtag rest
    else scriptOn? { language } (subtag :: rest)
  | [] => some { language }

/-- A tag with today's name of its language.  The old name of the one language that is now a matter
    of script brings the script along. -/
def renamed (tag : LanguageTag) : LanguageTag :=
  if tag.language = "sh" || tag.language = "hbs" then
    { tag with language := "sr", script := tag.script.or (some "latn") }
  else { tag with language := Subtag.language tag.language }

def parse? (tag : Text) : Option LanguageTag :=
  (subtags? tag).bind fun subtags =>
    match oldTags.lookup subtags, subtags with
    | some language, _ => some { language }
    | none, first :: rest =>
      if first.length = 2 || first.length = 3 then (languageOn? first rest).map renamed else none
    | none, [] => none

def keyword? (tag : LanguageTag) (key : String) : Option String := tag.keywords.lookup key

end LanguageTag

end Z80Asm
