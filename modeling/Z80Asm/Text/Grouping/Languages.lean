import Z80Asm.Text.Grouping
import Z80Asm.Text.Grouping.Numerals
import Z80Asm.Text.LanguageTag

/-!
# The languages' ways of grouping

`Grouping.ofTag` finds how the language of a tag writes numbers.  The customs of a region or a
script stand in the table only where they differ from those of its language; a tag without an entry
takes that of the nearest relative that has one, and English grouping if there is none.
-/

namespace Z80Asm

structure NumberSigns where
  separator : String
  minus : String := "-"
  deriving Repr, DecidableEq

structure NumberCustom where
  latin : NumberSigns
  numerals : String := "latn"
  usual : NumberSigns := latin
  /-- The size of the groups before the last one. -/
  other : Nat := 3
  deriving Repr, DecidableEq

namespace NumberCustom

/-! ## Signs -/

def comma : NumberSigns := { separator := "," }

def point : NumberSigns := { separator := "." }

def space : NumberSigns := { separator := "\u00a0" }

def highComma : NumberSigns := { separator := "\u2019" }

def longMinus (signs : NumberSigns) : NumberSigns := { signs with minus := "\u2212" }

/-- The same separator with a minus sign that stays on the left in text from right to left. -/
def heldMinus (signs : NumberSigns) : NumberSigns := { signs with minus := "\u200e-" }

/-- The same separator with the mathematical minus sign, which stays on the left in text from right to
    left. -/
def leftMinus (signs : NumberSigns) : NumberSigns := { signs with minus := "\u200e\u2212" }

/-- The signs that go with the digits of Arabic, unless a language has its own. -/
def arabic : NumberSigns := { separator := "\u066c", minus := "\u061c-" }

/-- The signs that go with the eastern digits of Arabic, unless a language has its own. -/
def easternArabic : NumberSigns := { separator := "\u066c", minus := "\u200e-\u200e" }

/-! ## The table -/

/-- The customs, each with the languages, scripts and regions that have it. -/
def table : List (List String × NumberCustom) :=
  [(["es-419"], { latin := comma }),
   (["en-us-u-va-posix"], { latin := { separator := "" } }),
   (["ast az az-cyrl bs bs-cyrl ca da de dsb el en-150 es es-ar es-bo es-cl es-co es-ec es-py",
     "es-uy es-ve fr-lu fr-ma fur fy gl hr hsb id is it jgo kkj km lb ln lo lu mgh mk ms-bn",
     "mua nds nl nnh pt qu-bo rn ro rw seh sg sr sr-latn sw-cd tr vi wo"], { latin := point }),
   (["af agq bas be bg br cs cu de-at dje dua dyo en-at en-fi en-se en-za es-cr ewo ff fr hu hy",
     "ka kab kea khq kk ksf ky lv mfe nmg os pl prg pt-pt ru sah ses shi shi-latn sk smn sq tg tt",
     "twq tzm uk uz uz-cyrl yav zgh"], { latin := space }),
   (["eo et fi ksh lt nb nn se sv"], { latin := longMinus space }),
   (["eu fo kl sl"], { latin := longMinus point }),
   (["de-ch de-li en-ch it-ch wae"], { latin := highComma }),
   (["gsw rm"], { latin := longMinus highComma }),
   (["he ur ar-eh"], { latin := heldMinus comma }),
   (["ar-dz ar-ly ar-ma ar-tn"], { latin := heldMinus point }),
   (["brx en-in gu hi kok ml or pa ta te"], { latin := comma, other := 2 }),
   (["ta-my ta-sg"], { latin := comma }),
   (["as bn"], { latin := comma, numerals := "beng", other := 2 }),
   (["mr"], { latin := comma, numerals := "deva", other := 2 }),
   (["ne"], { latin := comma, numerals := "deva" }),
   (["dz"], { latin := comma, numerals := "tibt", other := 2 }),
   (["ccp"], { latin := comma, numerals := "cakm", other := 2 }),
   (["my"], { latin := comma, numerals := "mymr" }),
   (["ar"], { latin := heldMinus comma, numerals := "arab", usual := arabic }),
   (["sd"], { latin := comma, numerals := "arab", usual := arabic }),
   (["ckb"], { latin := comma, numerals := "arab", usual := { arabic with minus := "\u200f-" } }),
   (["fa"], { latin := leftMinus comma, numerals := "arabext", usual := leftMinus arabic }),
   (["lrc mzn pa-arab"], { latin := comma, numerals := "arabext", usual := easternArabic }),
   (["ks"], { latin := comma, numerals := "arabext", usual := easternArabic, other := 2 }),
   (["ps uz-arab"], { latin := leftMinus point, numerals := "arabext", usual := easternArabic }),
   (["ur-in"], { latin := heldMinus comma, numerals := "arabext", usual := easternArabic })]

def named? (name : String) : Option NumberCustom :=
  (table.find? fun entry => (Subtag.words entry.1).contains name).map (·.2)

/-! ## Relatives -/

/-- The languages of the table that are not written in Latin script by default, by their script. -/
def scripts : List (String × List String) :=
  [("arab", ["ar ckb fa ks lrc mzn ps sd ur"]), ("armn", ["hy"]), ("beng", ["as bn"]),
   ("cakm", ["ccp"]),
   ("cyrl", ["be bg cu kk ky mk os ru sah sr tg tt uk"]), ("deva", ["brx hi kok mr ne"]),
   ("geor", ["ka"]), ("grek", ["el"]), ("gujr", ["gu"]), ("guru", ["pa"]), ("hebr", ["he"]),
   ("khmr", ["km"]),
   ("laoo", ["lo"]), ("mlym", ["ml"]), ("mymr", ["my"]), ("orya", ["or"]), ("taml", ["ta"]),
   ("telu", ["te"]), ("tfng", ["shi zgh"]), ("tibt", ["dz"])]

def scriptOf (language : String) : String :=
  ((scripts.find? fun entry => (Subtag.words entry.2).contains language).map (·.1)).getD "latn"

/-- Where a language is written in another script than by default. -/
def localScripts : List (String × String) :=
  [("az-iq", "arab"), ("az-ir", "arab"), ("az-ru", "cyrl"), ("kk-af", "arab"), ("kk-cn", "arab"),
   ("kk-ir", "arab"), ("kk-mn", "arab"), ("ky-cn", "arab"), ("ky-tr", "latn"), ("pa-pk", "arab"),
   ("sd-in", "deva"), ("sr-me", "latn"), ("sr-ro", "latn"), ("sr-tr", "latn"), ("tg-pk", "arab"),
   ("uz-af", "arab"), ("uz-cn", "cyrl")]

def scriptIn (language region : String) : String :=
  (localScripts.lookup (language ++ "-" ++ region)).getD (scriptOf language)

/-- The larger regions that share customs: the language, the larger region, and the regions that
    follow it before they follow their language. -/
def largerRegions : List (String × String × List String) :=
  [("en", "150", ["at be ch de dk fi nl se si"]),
   ("es", "419", ["ar bo br bz cl co cr cu do ec gt hn mx ni pa pe pr py sv us uy ve"]),
   ("pt", "pt", ["ao ch cv gq gw lu mo mz st tl"])]

/-- What a language in a region falls back to.  A language outside its default script does not share
    the customs it has in that script. -/
def above (language script region : String) : List String :=
  let larger := largerRegions.find? fun (l, _, members) =>
    l = language && scriptOf l = script && (Subtag.words members).contains region
  match larger with
  | some (_, larger, _) => [language ++ "-" ++ larger, language]
  | none => if scriptOf language = script then [language] else [language ++ "-" ++ script]

def nameOf (tag : LanguageTag) : String :=
  "-".intercalate ([tag.language] ++ tag.script.toList ++ tag.region.toList)

/-- The names under which to look for customs, the nearest first.  A variant asked for by keyword
    (`va`) goes before all others. -/
def candidates (tag : LanguageTag) : List String :=
  let language := tag.language
  let variant := (tag.keyword? "va").toList.map fun value => nameOf tag ++ "-u-va-" ++ value
  variant ++
  match tag.script, tag.region with
  | none, none => [language]
  | some script, none =>
    nameOf tag :: if scriptOf language = script then [language] else []
  | none, some region =>
    let script := scriptIn language region
    nameOf tag :: nameOf { tag with script } :: above language script region
  | some script, some region => nameOf tag :: above language script region

def ofTag (tag : LanguageTag) : NumberCustom :=
  ((candidates tag).findSome? named?).getD { latin := comma }

def signsWith (custom : NumberCustom) (numerals : String) : NumberSigns :=
  if numerals = custom.numerals then custom.usual
  else if custom.numerals ≠ "latn" then custom.latin
  else if numerals = "arab" then arabic
  else if numerals = "arabext" then easternArabic
  else custom.latin

end NumberCustom

/-! ## Grouping by tag -/

/-- The region whose customs are asked for by keyword (`rg`), such as `chzzzz`. -/
def LanguageTag.otherRegion? (tag : LanguageTag) : Option String :=
  (tag.keyword? "rg").bind fun value =>
    match value.toList with
    | [a, b, 'z', 'z', 'z', 'z'] => Subtag.region? (String.ofList [a, b])
    | _ => none

/-- The grouping of a tag that was understood.  The keyword `nu` asks for other digits. -/
def Grouping.ofLanguage (tag : LanguageTag) : Grouping :=
  let tag := { tag with region := tag.otherRegion?.or tag.region }
  let custom := NumberCustom.ofTag tag
  let (numerals, digits) :=
    match (tag.keyword? "nu").bind fun name => (Numerals.digits? name).map (name, ·) with
    | some asked => asked
    | none => (custom.numerals, (Numerals.digits? custom.numerals).getD [])
  let signs := custom.signsWith numerals
  { separator := bytes signs.separator, minus := bytes signs.minus, other := custom.other, digits }

/-- The grouping of a language tag.  A tag that is not understood leaves English grouping. -/
def Grouping.ofTag (tag : Text) : Grouping :=
  ((LanguageTag.parse? tag).map Grouping.ofLanguage).getD english

end Z80Asm
