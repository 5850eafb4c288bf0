import Mathlib.Data.Nat.Digits.Defs
import Z80Asm.Proofs.Spans

/-!
# Number literals

Numbers are written in decimal, or with a sign in front of their digits, with `0x` or `0b` in front, or with a letter
behind.  The notations overlap, as letters are digits too, and the digits may stand in groups: groups behind blanks are
first tried as hexadecimal ones.  The number in a line is still the one that was written.
-/

namespace Z80Asm

open List Text

variable {b c : UInt8} {word rest w ds after : Text} {n radix : Nat}

namespace Numeral

/-! ## Digits -/

/-- The digits of a number in a radix, in any letter case and after any number of zeros. -/
def Writes (radix n : Nat) (digits : Text) : Prop :=
  digits ≠ [] ∧ ∃ zeros, digits.map digit? = (List.replicate zeros 0 ++ (Nat.digits radix n).reverse).map some

theorem ofDigits_of_map {digits : Text} {values : List Nat} (h : digits.map digit? = values.map some) :
    ofDigits radix digits = Nat.ofDigits radix values.reverse := by
  have folds (n : Nat) : digits.foldl (fun n b => n * radix + (digit? b).getD 0) n =
      values.foldl (fun n d => d + radix * n) n := by
    induction values generalizing digits n with
    | nil => simp_all
    | cons d values ih =>
      obtain ⟨b, digits, rfl, first, rest⟩ := map_eq_cons_iff.1 h
      rw [foldl_cons, foldl_cons, ih rest, first, Option.getD_some, Nat.mul_comm, Nat.add_comm]
  rw [ofDigits, folds, Nat.ofDigits_eq_foldr, foldr_reverse]
  rfl

theorem Writes.facts {digits : Text} (h : Writes radix n digits) (base : 1 < radix) :
    (∀ b ∈ digits, isDigitOf radix b) ∧ ofDigits radix digits = n := by
  obtain ⟨-, zeros, values⟩ := h
  constructor
  · intro b mem
    have value : digit? b ∈ digits.map digit? := mem_map_of_mem mem
    rw [values] at value
    obtain ⟨d, isDigit, read⟩ := List.mem_map.1 value
    rw [isDigitOf, ← read]
    rcases mem_append.1 isDigit with zero | digit
    · simpa [eq_of_mem_replicate zero] using Nat.lt_of_succ_lt base
    · simpa using Nat.digits_lt_base base (mem_reverse.1 digit)
  · rw [ofDigits_of_map values, reverse_append, reverse_reverse, reverse_replicate,
      Nat.ofDigits_append_replicate_zero, Nat.ofDigits_digits]

theorem Writes.read? {digits : Text} (h : Writes radix n digits) (base : 1 < radix) :
    isDigits radix digits ∧ Numeral.read? radix digits = if n < 2 ^ 64 then some (Int64.ofNat n) else none := by
  have all : isDigits radix digits := by simpa [isDigits] using ⟨h.1, (h.facts base).1⟩
  rw [Numeral.read?, all, (h.facts base).2]
  simp

end Numeral

open Numeral

namespace Lex

/-! ## Groups of digits -/

/-- Groups that are accepted, with blanks in front of each, to the end of the line.  One that is the `last` ends it. -/
inductive Grouped (accept last : Text → Bool) : Text → Prop
  | nil : Grouped accept last []
  | cons {blanks word t : Text} (nonempty : blanks ≠ [] ∧ word ≠ []) (isBlank : ∀ b ∈ blanks, isBlank b)
      (alnum : ∀ b ∈ word, isAlnum b) (accepted : accept word) (final : last word → t = [])
      (rest : Grouped accept last t) :
      Grouped accept last (blanks ++ (word ++ t))

theorem blank_facts {b : UInt8} (h : isBlank b) : isWordByte b = false ∧ isAlnum b = false ∧
    lowerByte b ≠ 'x'.toUInt8 ∧ lowerByte b ≠ 'h'.toUInt8 := by
  have admitted := admits_blank .operation h
  have noAlnum := not_alnum_of_admits admitted
  have noLetter {l : UInt8} (letter : l ∈ bytes "xhbdqo0") : lowerByte b ≠ l := by
    rintro rfl
    simp [isAlnum_letter b letter] at noAlnum
  exact ⟨(admits_operation_iff.1 admitted).1, noAlnum, noLetter (by decide), noLetter (by decide)⟩

section
variable {C : UInt8 → Bool} {back t : Text} {accept last : Text → Bool}

theorem Grouped.head (h : Grouped accept last t) : ∀ b ∈ t.head?, isBlank b := by
  cases h with
  | nil => simp
  | @cons blanks _ _ nonempty isBlank =>
    obtain ⟨b, blanks, rfl⟩ := exists_cons_of_ne_nil nonempty.1
    simpa using isBlank b mem_cons_self

theorem Grouped.any_isBlank (h : Grouped accept last t) : t.any isBlank = (t.length != 0) := by
  have first := h.head
  cases t with
  | nil => rfl
  | cons b rest => simp [first b rfl]

theorem Grouped.span (h : Grouped accept last t) (alnum : ∀ b ∈ word, isAlnum b) :
    (word ++ t).takeWhile isAlnum = word ∧ (word ++ t).dropWhile isAlnum = t :=
  span_append alnum fun b first => (blank_facts (h.head b first)).2.1

theorem Grouped.group?_eq {blanks word : Text} (nonempty : blanks ≠ [] ∧ word ≠ []) (isBlank : ∀ b ∈ blanks, isBlank b)
    (alnum : ∀ b ∈ word, isAlnum b) (accepted : accept word) (rest : Grouped accept last t) :
    group? accept (blanks ++ (word ++ t)) = some (word, blanks.length + word.length) := by
  have plain : ∀ b ∈ (word ++ t).head?, Lex.isBlank b = false := by
    obtain ⟨b, word, rfl⟩ := exists_cons_of_ne_nil nonempty.2
    simpa using (not_blank_of_alnum (alnum b mem_cons_self)).1
  have noWord : t.head?.any isWordByte = false := by
    have first := rest.head
    cases t with
    | nil => rfl
    | cons b t => exact (blank_facts (first b rfl)).1
  simp [group?, span_append isBlank plain, rest.span alnum, nonempty, noWord, accepted]

theorem Grouped.groups_length (h : Grouped accept last t) {fuel : Nat} (enough : t.length ≤ fuel) :
    (groups accept last fuel t).2 = t.length := by
  induction h generalizing fuel with
  | nil => cases fuel <;> simp [groups, group?]
  | @cons blanks word t nonempty isBlank alnum accepted final rest ih =>
    have := length_pos_iff.2 nonempty.1
    obtain ⟨fuel, rfl⟩ : ∃ n, fuel = n + 1 := ⟨fuel - 1, by simp at enough; omega⟩
    have behind : (groups accept last fuel t).2 = t.length := ih (by simp at enough; omega)
    rw [groups, rest.group?_eq nonempty isBlank alnum accepted]
    dsimp only
    split
    next isLast => simp [final isLast]
    · rw [← append_assoc, ← length_append, drop_left]
      simp [behind, Nat.add_assoc]

/-- Groups of bytes of class `C` are accepted, also with `back` behind the last one. -/
structure Accepts (accept last : Text → Bool) (C : UInt8 → Bool) (back : Text) : Prop where
  alnum : ∀ b, C b → isAlnum b
  ending : ∀ b ∈ back, isAlnum b
  inner : ∀ w ≠ [], (∀ b ∈ w, C b) → accept w ∧ last w = false
  final : ∀ w ≠ [], (∀ b ∈ w, C b) → accept (w ++ back)

/-- A group, maybe with `back` behind it at the end of the line, and the groups that follow. -/
def Leads (accept last : Text → Bool) (C : UInt8 → Bool) (back t : Text) : Prop :=
  ∃ word tail rest, t = word ++ (tail ++ rest) ∧ word ≠ [] ∧ (∀ b ∈ word, C b) ∧
    (tail = [] ∨ tail = back ∧ rest = []) ∧ Grouped accept last rest

theorem Leads.grouped (h : Leads accept last C back t) (accepts : Accepts accept last C back)
    (blank : isBlank b) : Grouped accept last (b :: t) := by
  obtain ⟨word, tail, rest, rfl, isWord, bytes, ends, groups⟩ := h
  have alnum : ∀ b ∈ word, isAlnum b := fun b mem => accepts.alnum b (bytes b mem)
  have blanks : ∀ c ∈ [b], isBlank c := by simpa using blank
  rcases ends with rfl | ⟨rfl, rfl⟩
  · exact .cons ⟨by simp, isWord⟩ blanks alnum (accepts.inner word isWord bytes).1
      (by simp [accepts.inner word isWord bytes]) groups
  · rw [← append_assoc]
    exact .cons ⟨cons_ne_nil b [], by simp [isWord]⟩ blanks (forall_mem_append.2 ⟨alnum, accepts.ending⟩)
      (accepts.final word isWord bytes) (fun _ => rfl) .nil

theorem Accepts.split (accepts : Accepts accept last C back) {spaced : Text} (bytes : ∀ b ∈ spaced, C b ∨ isBlank b)
    (ends : spaced.getLast?.any (!isBlank ·)) :
    if spaced.head?.any (!isBlank ·) then Leads accept last C back (spaced ++ back)
    else Grouped accept last (spaced ++ back) := by
  induction spaced with
  | nil => cases ends
  | cons b spaced ih =>
    rw [forall_mem_cons] at bytes
    cases spaced with
    | nil =>
      have plain : isBlank b = false := by simpa using ends
      have digit : C b := bytes.1.resolve_right (by simp [plain])
      rw [if_pos (by simpa using plain)]
      exact ⟨[b], back, [], by simp, by simp, by simpa using digit, .inr ⟨rfl, rfl⟩, .nil⟩
    | cons c spaced =>
      have behind := ih bytes.2 (by simpa using ends)
      by_cases blank : isBlank b
      · rw [if_neg (by simpa using blank)]
        split at behind
        · exact behind.grouped accepts blank
        · generalize eq : c :: spaced ++ back = t at behind
          cases behind with
          | nil => simp at eq
          | @cons blanks word t nonempty isBlank alnum accepted final rest =>
            rw [cons_append, eq]
            exact .cons ⟨cons_ne_nil b blanks, nonempty.2⟩ (forall_mem_cons.2 ⟨blank, isBlank⟩) alnum
              accepted final rest
      · have digit : C b := bytes.1.resolve_right blank
        rw [if_pos (by simpa using blank)]
        split at behind
        · obtain ⟨word, tail, rest, eq, nonempty, digits, ends, groups⟩ := behind
          exact ⟨b :: word, tail, rest, by rw [cons_append, eq]; rfl, by simp,
            forall_mem_cons.2 ⟨digit, digits⟩, ends, groups⟩
        · exact ⟨[b], [], _, rfl, by simp, by simpa using digit, .inl rfl, behind⟩

end

end Lex

/-! ## Notations -/

/-- A sign in front of the digits of a number, with its letter in either case, and their radix. -/
inductive Numeral.Signed : Text → Nat → Prop
  | dollar : Signed ['$'.toUInt8] 16
  | hash : Signed ['#'.toUInt8] 16
  | percent : Signed ['%'.toUInt8] 2
  | letter {c : UInt8} {radix : Nat}
      (h : (Text.lowerByte c, radix) ∈ [('h'.toUInt8, 16), ('b'.toUInt8, 2), ('o'.toUInt8, 8), ('q'.toUInt8, 8)]) :
      Signed ['&'.toUInt8, c] radix

/-- What stands in front of the digits of a number without a sign, their radix, and what stands behind them. -/
inductive Numeral.Unsigned : Text → Nat → Text → Prop
  | decimal : Unsigned [] 10 []
  | suffix {c : UInt8} {radix : Nat}
      (h : (Text.lowerByte c, radix) ∈ [('d'.toUInt8, 10), ('b'.toUInt8, 2), ('q'.toUInt8, 8), ('o'.toUInt8, 8)]) :
      Unsigned [] radix [c]
  | hexadecimal {c : UInt8} (h : Text.lowerByte c = 'h'.toUInt8) : Unsigned [] 16 [c]
  | zeroB {c : UInt8} (h : Text.lowerByte c = 'b'.toUInt8) : Unsigned ['0'.toUInt8, c] 2 []
  | zeroX {c : UInt8} (h : Text.lowerByte c = 'x'.toUInt8) : Unsigned ['0'.toUInt8, c] 16 []

/-- A number in one of the notations, in any letter case, with blanks between its digits or in front of them. -/
structure Numeral.Spelled (n : Nat) (source front spaced back : Text) (radix : Nat) : Prop where
  style : Unsigned front radix back ∨ Signed front radix ∧ back = []
  source : source = front ++ (spaced ++ back)
  digits : Writes radix n (spaced.filter (!Lex.isBlank ·))
  /-- No blanks stand behind the digits, nor between them and one of the signs `$` and `#`. -/
  ends : spaced.getLast?.any (!Lex.isBlank ·)
  starts : front ∈ [bytes "$", bytes "#"] → spaced.head?.any (!Lex.isBlank ·)
  first : front = [] → spaced.head?.any Lex.isDigit

namespace Lex

section
variable {C : UInt8 → Bool} {source front spaced back t : Text} {accept last : Text → Bool}

theorem isAlnum_of_digit (h : isDigitOf radix b) : isAlnum b := by
  simp only [isDigitOf, digit?] at h
  simp only [isAlnum, isDigit, isLetter, Bool.or_eq_true]
  split_ifs at h <;> simp_all

theorem digit_facts (b : UInt8) : (∀ radix ∈ [2, 8, 10], isDigitOf radix b → isDigit b) ∧
    (isDigit b → lowerByte b ≠ 'b'.toUInt8 ∧ isDigitOf 16 b) ∧
    (isDigitOf 16 b → lowerByte b ≠ 'x'.toUInt8 ∧ lowerByte b ≠ 'h'.toUInt8) := by
  revert b
  exact byte_cases (by decide +kernel)

theorem isDigits_iff : isDigits radix w ↔ w ≠ [] ∧ ∀ b ∈ w, isDigitOf radix b := by
  simp [isDigits]

theorem Accepts.digits (radix : Nat) : Accepts (isDigits radix) (fun _ => false) (isDigitOf radix) [] where
  alnum b := isAlnum_of_digit
  ending := by simp
  inner w nonempty digits := ⟨isDigits_iff.2 ⟨nonempty, digits⟩, rfl⟩
  final w nonempty digits := by simpa using isDigits_iff.2 ⟨nonempty, digits⟩

/-! ## Numbers with a sign in front -/

section
variable (dialect : Dialect)

theorem signedEnd_whole (lead digits : Text) (spaced : Bool) (h : Grouped (isDigits radix) (fun _ => false) rest) :
    signedEnd dialect radix (lead ++ rest) digits lead.length spaced =
      .ofNumber (lead ++ rest) (digits ++ rest.filter (!isBlank ·)) (read? radix (digits ++ rest.filter (!isBlank ·)))
        ((lead ++ rest).length - 1) (spacedFault dialect (spaced || rest.length != 0) (lead ++ rest)) := by
  have all := h.groups_length (Nat.le_refl _)
  have taken := (groups_taken (isDigits radix) (fun _ => false) rest.length rest).1.word
  rw [all, take_length] at taken
  rw [signedEnd_eq, drop_left, all, ← taken, ← length_append, take_length]

theorem signRadix?_append (h : Signed front radix) :
    ∃ b more, front = b :: more ∧ b ∈ bytes "$#%&" ∧ (∀ c ∈ more, isAlnum c) ∧
      (b ∈ bytes "$#" → more = []) ∧ 1 < radix ∧
      ∀ rest, signRadix? true (front ++ rest) = some (radix, front.length) := by
  cases h with
  | dollar | hash | percent => exact ⟨_, [], rfl, by decide, by simp, fun _ => rfl, by decide, fun _ => rfl⟩
  | @letter c radix h =>
    obtain ⟨letter, base, sign⟩ : lowerByte c ∈ bytes "xhbdqo0" ∧ 1 < radix ∧
        signRadix? true ['&'.toUInt8, c] = some (radix, 2) := by
      simp only [mem_cons, Prod.mk.injEq, not_mem_nil, or_false] at h
      rcases h with ⟨is, rfl⟩ | ⟨is, rfl⟩ | ⟨is, rfl⟩ | ⟨is, rfl⟩ <;> simp only [signRadix?, is] <;> decide
    exact ⟨_, [c], rfl, by decide, by simpa using isAlnum_letter c letter, fun mem => absurd mem (by decide), base,
      fun _ => sign⟩

theorem any_isBlank_append {lead : Text} (plain : ∀ b ∈ lead, isAlnum b ∨ b ∈ bytes "$#%&") (rest : Text) :
    (lead ++ rest).any isBlank = rest.any isBlank := by
  have noBlank (b : UInt8) (mem : b ∈ lead) : isBlank b = false :=
    (plain b mem).elim (fun alnum => (not_blank_of_alnum alnum).1) fun sign => (sign_facts sign).1
  rw [any_append, any_eq_false.2 fun b mem => by simp [noBlank b mem], Bool.false_or]

theorem filter_alnum (alnum : ∀ b ∈ w, isAlnum b) : w.filter (!isBlank ·) = w :=
  filter_eq_self.2 fun b mem => by simp [(not_blank_of_alnum (alnum b mem)).1]

theorem signedNumber?_whole (sign : Signed front radix) (inside : ∀ b ∈ spaced, isDigitOf radix b ∨ isBlank b)
    (ends : spaced.getLast?.any (!isBlank ·))
    (starts : front ∈ [bytes "$", bytes "#"] → spaced.head?.any (!isBlank ·)) :
    signedNumber? dialect radix front.length (front ++ spaced) =
      some (.ofNumber (front ++ spaced) (spaced.filter (!isBlank ·)) (read? radix (spaced.filter (!isBlank ·)))
        ((front ++ spaced).length - 1) (spacedFault dialect ((front ++ spaced).any isBlank) (front ++ spaced))) := by
  obtain ⟨b, more, rfl, isSign, alnum, single, -, -⟩ := signRadix?_append sign
  have groups := (Accepts.digits radix).split inside ends
  have plain : ∀ c ∈ b :: more, isAlnum c ∨ c ∈ bytes "$#%&" :=
    forall_mem_cons.2 ⟨.inr isSign, fun c mem => .inl (alnum c mem)⟩
  rw [any_isBlank_append plain]
  unfold signedNumber?
  dsimp only
  rw [drop_left]
  rw [append_nil] at groups
  split at groups
  next =>
    obtain ⟨word, tail, rest, rfl, nonempty, digits, ends, groups⟩ := groups
    obtain rfl : tail = [] := ends.elim id And.left
    have alnum : ∀ b ∈ word, isAlnum b := fun b mem => isAlnum_of_digit (digits b mem)
    rw [nil_append, (groups.span alnum).1, if_neg (by simpa using nonempty),
      if_pos (isDigits_iff.2 ⟨nonempty, digits⟩), ← append_assoc, ← length_append,
      signedEnd_whole dialect _ word false groups, any_isBlank_append fun b mem => .inl (alnum b mem),
      groups.any_isBlank, filter_append, filter_alnum alnum, Bool.false_or]
  next blank =>
    have noHex : ((b :: more ++ spaced).head? == some '$'.toUInt8 ||
        (b :: more ++ spaced).head? == some '#'.toUInt8) = false := by
      by_contra hex
      have isHex : b = '$'.toUInt8 ∨ b = '#'.toUInt8 := by simpa [or_iff_not_imp_left] using hex
      exact blank (starts (by rcases isHex with rfl | rfl <;> rw [single (by decide)] <;> decide))
    have anyBlank : spaced.any isBlank := by
      rw [groups.any_isBlank]
      cases spaced with
      | nil => cases ends
      | cons => rfl
    rw [noHex, anyBlank]
    cases groups with
    | nil => cases ends
    | @cons blanks word rest nonempty isBlanks alnum accepted final groups =>
      have empty : (blanks ++ (word ++ rest)).takeWhile isAlnum = [] := by
        obtain ⟨c, blanks, rfl⟩ := exists_cons_of_ne_nil nonempty.1
        simp [blank_facts (isBlanks c mem_cons_self)]
      have skipped : blanks.filter (!isBlank ·) = [] := filter_eq_nil_iff.2 fun b mem => by simp [isBlanks b mem]
      have whole := signedEnd_whole dialect (b :: more ++ (blanks ++ word)) word true groups
      have size : (b :: more ++ (blanks ++ word)).length = (b :: more).length + (blanks.length + word.length) := by
        rw [length_append, length_append]
      rw [append_assoc, append_assoc blanks, size, Bool.true_or] at whole
      rw [empty, groups.group?_eq nonempty isBlanks alnum accepted]
      simp only [isEmpty_nil, if_true, Bool.false_eq_true, if_false, filter_append, skipped,
        filter_alnum alnum, nil_append]
      exact congrArg some whole

/-! ## Numbers without a sign -/

/-- A group that may be joined to hexadecimal digits, after `0x` or else up to the letter `h`. -/
def isHexGroup (radix : Bool) (w : Text) : Bool := isDigits 16 w || (!radix && isSuffixed w)

def isHexLast (w : Text) : Bool := !isDigits 16 w

def isHexFirst (radix : Bool) (w : Text) : Bool :=
  if radix then w.length = 2 || isDigits 16 (w.drop 2) else isDigits 16 w

def hexGroups (radix : Bool) (t : Text) : List Text × Nat := groups (isHexGroup radix) isHexLast t.length t

theorem hexGroups?_eq (word after : Text) {radix : Bool}
    (isRadix : (radixLetter? word == some 'x'.toUInt8) = radix) : hexGroups? word after =
      if isHexFirst radix word ∧ (hexGroups radix after).1 ≠ [] ∧
          (radix = false → ∃ w ∈ (hexGroups radix after).1, isDigits 16 w = false) then
        some (word ++ (hexGroups radix after).1.flatten, (hexGroups radix after).2)
      else none := by
  subst isRadix
  unfold hexGroups? hexGroups isHexFirst isHexGroup isHexLast
  dsimp only
  split_ifs <;> grind

/-- Groups are not joined as hexadecimal digits where neither `0x` nor the letter `h` is in sight. -/
theorem hexGroups?_none {word : Text} (noX : radixLetter? word ≠ some 'x'.toUInt8)
    (noH : ∀ b ∈ after, lowerByte b ≠ 'h'.toUInt8) : hexGroups? word after = none := by
  rw [hexGroups?_eq word after (beq_eq_false_iff_ne.2 noX), if_neg]
  rintro ⟨-, -, final⟩
  obtain ⟨w, mem, isLast⟩ := final rfl
  have taken : Taken after (hexGroups false after).1.flatten _ ∧ _ := groups_taken ..
  have suffixed : isSuffixed w := by simpa [isHexGroup, isLast] using taken.2 w mem
  obtain ⟨b, last, isH⟩ : ∃ b, w.getLast? = some b ∧ lowerByte b = 'h'.toUInt8 := by
    simpa using (Bool.and_eq_true_iff.1 suffixed).1
  have inside := mem_flatten_of_mem mem (mem_of_getLast? last)
  rw [← taken.1.word] at inside
  exact noH b (mem_of_mem_take (List.mem_filter.1 inside).1) isH

/-- Groups to the end of the line are joined as hexadecimal digits. -/
theorem hexGroups?_whole {word : Text} {radix : Bool} (isRadix : (radixLetter? word == some 'x'.toUInt8) = radix)
    (fits : isHexFirst radix word) (whole : Grouped (isHexGroup radix) isHexLast after) (nonempty : after ≠ [])
    (final : radix = false → ∃ b ∈ after, lowerByte b = 'h'.toUInt8) :
    ∃ text, hexGroups? word after = some (text, after.length) := by
  have length : (hexGroups radix after).2 = after.length := whole.groups_length (Nat.le_refl _)
  have taken : Taken after (hexGroups radix after).1.flatten (hexGroups radix after).2 := (groups_taken ..).1
  have word := taken.word
  rw [length, take_length] at word
  rw [hexGroups?_eq _ after isRadix, if_pos, length]
  · exact ⟨_, rfl⟩
  have inside {b : UInt8} (mem : b ∈ after) (plain : isBlank b = false) : ∃ w ∈ (hexGroups radix after).1, b ∈ w :=
    mem_flatten.1 (word ▸ List.mem_filter.2 ⟨mem, by simp [plain]⟩)
  refine ⟨fits, ?_, fun isFalse => ?_⟩
  · cases whole with
    | nil => exact absurd rfl nonempty
    | @cons _ w _ isGroup _ alnum =>
      obtain ⟨b, mem⟩ := exists_mem_of_ne_nil w isGroup.2
      obtain ⟨w, isWord, -⟩ := inside (b := b) (by simp [mem]) (not_blank_of_alnum (alnum b mem)).1
      exact ne_nil_of_mem isWord
  · obtain ⟨b, mem, isH⟩ := final isFalse
    obtain ⟨w, isWord, mem⟩ := inside mem (not_blank_of_alnum (isAlnum_letter b (by rw [isH]; decide))).1
    refine ⟨w, isWord, Bool.eq_false_iff.2 fun digits => ?_⟩
    exact ((digit_facts b).2.2 ((isDigits_iff.1 digits).2 b mem)).2 isH

/-- The bytes of a number are taken to the end of the line: a word, and the groups behind it. -/
def Joins (source : Text) : Prop :=
  ∃ word rest accept last, source = word ++ rest ∧ (∀ b ∈ word, isAlnum b) ∧ Grouped accept last rest ∧
    (joined source).2 = rest.length

theorem Joins.number_eq (h : Joins source) (dialect : Dialect) : number dialect source =
    .ofNumber (source.filter (!isBlank ·)) (source.filter (!isBlank ·)) (value? (source.filter (!isBlank ·)))
      (source.length - 1) (spacedFault dialect (source.any isBlank) source) := by
  obtain ⟨word, rest, accept, last, rfl, alnum, groups, length⟩ := h
  have text := (joined_taken (word ++ rest)).word
  rw [(groups.span alnum).1, length, ← length_append, take_length] at text
  rw [Lex.number_eq, (groups.span alnum).1, length, ← text, ← length_append, take_length,
    any_isBlank_append fun b mem => .inl (alnum b mem), groups.any_isBlank]

theorem Joins.decimal (alnum : ∀ b ∈ word, isAlnum b)
    (groups : Grouped (fun w => w.head?.any isDigit) (fun _ => false) rest)
    (noX : radixLetter? word ≠ some 'x'.toUInt8) (noH : ∀ b ∈ rest, lowerByte b ≠ 'h'.toUInt8) :
    Joins (word ++ rest) := by
  refine ⟨word, rest, _, _, rfl, alnum, groups, ?_⟩
  rw [joined, (groups.span alnum).1, (groups.span alnum).2, hexGroups?_none noX noH]
  exact groups.groups_length (Nat.le_refl _)

theorem Joins.hexadecimal (radix : Bool) (word : Text) (alnum : ∀ b ∈ word, isAlnum b)
    (isRadix : (radixLetter? word == some 'x'.toUInt8) = radix) (fits : rest ≠ [] → isHexFirst radix word)
    (groups : Grouped (isHexGroup radix) isHexLast rest)
    (final : rest ≠ [] → radix = false → ∃ b ∈ rest, lowerByte b = 'h'.toUInt8) : Joins (word ++ rest) := by
  refine ⟨word, rest, _, _, rfl, alnum, groups, ?_⟩
  rw [joined, (groups.span alnum).1, (groups.span alnum).2]
  cases rest with
  | nil => rw [hexGroups?_eq word [] isRadix, if_neg (fun joins => joins.2.1 rfl)]; rfl
  | cons b rest =>
    obtain ⟨text, found⟩ := hexGroups?_whole isRadix (fits (by simp)) groups (by simp) (final (by simp))
    rw [found]

theorem radixLetter?_ne {t : Text} {letter : UInt8} (h : ∀ b ∈ t.tail, lowerByte b ≠ letter) :
    radixLetter? t ≠ some letter := by
  match t with
  | [] | [_] => simp [radixLetter?]
  | a :: b :: _ =>
    rw [radixLetter?]
    split <;> simp [h b (by simp)]

theorem suffix_facts (b : UInt8) (h : lowerByte b ∈ bytes "dbqo0") :
    isAlnum b ∧ lowerByte b ≠ 'x'.toUInt8 ∧ lowerByte b ≠ 'h'.toUInt8 := by
  have within : bytes "dbqo0" ⊆ bytes "xhbdqo0" := by decide
  exact ⟨isAlnum_letter b (within h), fun isX => absurd (isX ▸ h) (by decide), fun isH => absurd (isH ▸ h) (by decide)⟩

theorem suffix_radix : ∀ p ∈ [('d'.toUInt8, 10), ('b'.toUInt8, 2), ('q'.toUInt8, 8), ('o'.toUInt8, 8)],
    p.2 ∈ [2, 8, 10] ∧ p.1 ∈ bytes "dbqo0" := by
  decide

/-- A letter behind decimal digits decides their radix, also behind a single zero. -/
theorem value?_suffix (nonempty : ds ≠ []) (digits : ∀ b ∈ ds, isDigit b)
    (h : (lowerByte c, radix) ∈ [('d'.toUInt8, 10), ('b'.toUInt8, 2), ('q'.toUInt8, 8), ('o'.toUInt8, 8)]) :
    value? (ds ++ [c]) = read? radix ds := by
  have noX : radixLetter? (ds ++ [c]) ≠ some 'x'.toUInt8 := by
    refine radixLetter?_ne fun b mem isX => ?_
    rcases mem_append.1 (mem_of_mem_tail mem) with mem | mem
    · exact ((digit_facts b).2.2 ((digit_facts b).2.1 (digits b mem)).2).1 isX
    · exact (suffix_facts c (suffix_radix _ h).2).2.1 (mem_singleton.1 mem ▸ isX)
  have noB : ¬(radixLetter? (ds ++ [c]) = some 'b'.toUInt8 ∧ isDigits 2 ((ds ++ [c]).drop 2)) := by
    rintro ⟨isB, binary⟩
    match ds with
    | [a] => cases binary
    | a :: b :: ds =>
      refine @radixLetter?_ne [a, b] _ ?_ isB
      simpa using ((digit_facts b).2.1 (digits b (by simp))).1
  have last : ((ds ++ [c]).getLast?.map lowerByte).getD 0 = lowerByte c := by simp
  unfold value?
  dsimp only
  rw [last, dropLast_concat, if_neg noX, if_neg (mt Bool.and_eq_true_iff.1 (by simpa using noB))]
  simp only [mem_cons, Prod.mk.injEq, not_mem_nil, or_false] at h
  rcases h with ⟨isLetter, rfl⟩ | ⟨isLetter, rfl⟩ | ⟨isLetter, rfl⟩ | ⟨isLetter, rfl⟩ <;> rw [isLetter] <;> rfl

theorem value?_unsigned (h : Unsigned front radix back) (digits : isDigits radix ds) :
    value? (front ++ (ds ++ back)) = read? radix ds := by
  obtain ⟨nonempty, inside⟩ := isDigits_iff.1 digits
  have decimal (small : radix ∈ [2, 8, 10]) : ∀ b ∈ ds, isDigit b :=
    fun b mem => (digit_facts b).1 radix small (inside b mem)
  have last (front : Text) (hex : ∀ b ∈ ds, isDigitOf 16 b) :
      ((front ++ ds).getLast?.map lowerByte).getD 0 ≠ 'h'.toUInt8 := by
    rw [getLast?_append, getLast?_eq_some_getLast nonempty]
    exact ((digit_facts _).2.2 (hex _ (getLast_mem nonempty))).2
  have letter (c : UInt8) : radixLetter? (['0'.toUInt8, c] ++ ds) = some (lowerByte c) := rfl
  cases h with
  | decimal => simpa using value?_digits (decimal (by decide))
  | @suffix c _ h => exact value?_suffix nonempty (decimal (suffix_radix _ h).1) h
  | @hexadecimal c isH =>
    unfold value?
    dsimp only
    rw [nil_append, getLast?_concat, Option.map_some, Option.getD_some, isH, if_pos rfl, dropLast_concat]
  | @zeroB c isB =>
    unfold value?
    dsimp only
    rw [append_nil, if_neg (last _ fun b mem => ((digit_facts b).2.1 (decimal (by decide) b mem)).2), letter c,
      isB, if_neg (by decide), show (['0'.toUInt8, c] ++ ds).drop 2 = ds from rfl, digits]
    rfl
  | @zeroX c isX =>
    unfold value?
    dsimp only
    rw [append_nil, if_neg (last _ inside), letter c, isX, if_pos rfl]
    rfl

/-- The first group of a number, which is empty if blanks stand in front, and the groups that follow. -/
theorem Accepts.lead (accepts : Accepts accept last C back) (inside : ∀ b ∈ spaced, C b ∨ isBlank b)
    (ends : spaced.getLast?.any (!isBlank ·)) : ∃ word tail rest, spaced ++ back = word ++ tail ++ rest ∧
      (∀ b ∈ word, C b) ∧ (tail = [] ∨ tail = back ∧ rest = []) ∧ Grouped accept last rest ∧
      (spaced.head?.any (!isBlank ·) → word ≠ []) := by
  have groups := accepts.split inside ends
  split at groups
  · obtain ⟨word, tail, rest, eq, nonempty, digits, ends, groups⟩ := groups
    exact ⟨word, tail, rest, by rw [eq, append_assoc], digits, ends, groups, fun _ => nonempty⟩
  next blank => exact ⟨[], [], _, rfl, by simp, .inl rfl, groups, fun plain => absurd plain blank⟩

theorem joins_decimal (small : ∀ b, isDigitOf radix b → isDigit b)
    (around : ∀ b ∈ front ++ back, isAlnum b ∧ lowerByte b ≠ 'x'.toUInt8 ∧ lowerByte b ≠ 'h'.toUInt8)
    (inside : ∀ b ∈ spaced, isDigitOf radix b ∨ isBlank b) (ends : spaced.getLast?.any (!isBlank ·)) :
    Joins (front ++ (spaced ++ back)) := by
  have head {w : Text} (after : Text) (nonempty : w ≠ []) (digits : ∀ b ∈ w, isDigitOf radix b) :
      (w ++ after).head?.any isDigit := by
    obtain ⟨b, w, rfl⟩ := exists_cons_of_ne_nil nonempty
    exact small b (digits b mem_cons_self)
  have accepts : Accepts (fun w => w.head?.any isDigit) (fun _ => false) (isDigitOf radix) back :=
    ⟨fun b => isAlnum_of_digit, fun b mem => (around b (mem_append_right _ mem)).1,
      fun w nonempty digits => ⟨by simpa using head [] nonempty digits, rfl⟩, fun w => head back⟩
  have letters : ∀ b ∈ front ++ (spaced ++ back), lowerByte b ≠ 'x'.toUInt8 ∧ lowerByte b ≠ 'h'.toUInt8 := by
    rw [forall_mem_append, forall_mem_append] at *
    refine ⟨fun b mem => (around.1 b mem).2, fun b mem => ?_, fun b mem => (around.2 b mem).2⟩
    rcases inside b mem with digit | blank
    · exact (digit_facts b).2.2 ((digit_facts b).2.1 (small b digit)).2
    · exact (blank_facts blank).2.2
  obtain ⟨word, tail, rest, eq, digits, ends, groups, -⟩ := accepts.lead inside ends
  have alnum : ∀ b ∈ front ++ (word ++ tail), isAlnum b := by
    rw [forall_mem_append, forall_mem_append] at *
    refine ⟨fun b mem => (around.1 b mem).1, fun b mem => isAlnum_of_digit (digits b mem), ?_⟩
    rcases ends with rfl | ⟨rfl, -⟩
    · simp
    · exact fun b mem => (around.2 b mem).1
  rw [eq, ← append_assoc, forall_mem_append] at letters
  rw [eq, ← append_assoc]
  exact .decimal alnum groups (radixLetter?_ne fun b mem => (letters.1 b (mem_of_mem_tail mem)).1)
    fun b mem => (letters.2 b mem).2

theorem Accepts.hexadecimal {radix : Bool} (ending : ∀ b ∈ back, isAlnum b)
    (final : ∀ w ≠ [], (∀ b ∈ w, isDigitOf 16 b) → isHexGroup radix (w ++ back)) :
    Accepts (isHexGroup radix) isHexLast (isDigitOf 16) back :=
  ⟨fun b => isAlnum_of_digit, ending, fun w nonempty digits => by
    simp [isHexGroup, isHexLast, isDigits_iff.2 ⟨nonempty, digits⟩], final⟩

theorem joins_zeroX (isX : lowerByte c = 'x'.toUInt8)
    (inside : ∀ b ∈ spaced, isDigitOf 16 b ∨ isBlank b) (ends : spaced.getLast?.any (!isBlank ·)) :
    Joins ('0'.toUInt8 :: c :: spaced) := by
  have accepts : Accepts (isHexGroup true) isHexLast (isDigitOf 16) [] :=
    .hexadecimal (by simp) fun w nonempty digits => by simp [isHexGroup, isDigits_iff.2 ⟨nonempty, digits⟩]
  obtain ⟨word, tail, rest, eq, digits, final, groups, -⟩ := accepts.lead inside ends
  obtain rfl : tail = [] := final.elim id And.left
  rw [append_nil, append_nil] at eq
  rw [eq]
  refine .hexadecimal true ('0'.toUInt8 :: c :: word) ?_ ?_ ?_ groups (by simp)
  · have letter : isAlnum c := isAlnum_letter c (by rw [isX]; decide)
    simpa using ⟨by decide, letter, fun b mem => isAlnum_of_digit (digits b mem)⟩
  · rw [radixLetter?, if_pos rfl, isX]
    rfl
  · intro _
    cases word with
    | nil => rfl
    | cons b word =>
      simpa [isHexFirst] using isDigits_iff.2 ⟨cons_ne_nil b word, digits⟩

theorem joins_hexadecimal (isH : lowerByte c = 'h'.toUInt8) (first : spaced.head?.any (!isBlank ·))
    (inside : ∀ b ∈ spaced, isDigitOf 16 b ∨ isBlank b) (ends : spaced.getLast?.any (!isBlank ·)) :
    Joins (spaced ++ [c]) := by
  have accepts : Accepts (isHexGroup false) isHexLast (isDigitOf 16) [c] :=
    .hexadecimal (by simpa using isAlnum_letter c (by rw [isH]; decide)) fun w nonempty digits => by
      simp [isHexGroup, isSuffixed, isH, isDigits_iff.2 ⟨nonempty, digits⟩]
  obtain ⟨word, tail, rest, eq, digits, final, groups, nonempty⟩ := accepts.lead inside ends
  have tails : ∀ b ∈ tail, b = c := by
    rcases final with rfl | ⟨rfl, -⟩ <;> simp
  rw [eq]
  refine .hexadecimal false _ ?_ (beq_eq_false_iff_ne.2 (radixLetter?_ne fun b mem => ?_)) ?_ groups ?_
  · refine forall_mem_append.2 ⟨fun b mem => isAlnum_of_digit (digits b mem), fun b mem => ?_⟩
    rw [tails b mem]
    exact accepts.ending c (by simp)
  · rcases mem_append.1 (mem_of_mem_tail mem) with mem | mem
    · exact ((digit_facts b).2.2 (digits b mem)).1
    · rw [tails b mem, isH]
      decide
  · intro more
    rcases final with rfl | ⟨-, rfl⟩
    · simpa [isHexFirst] using isDigits_iff.2 ⟨nonempty first, digits⟩
    · exact absurd rfl more
  · intro more _
    refine ⟨c, ?_, isH⟩
    have last : rest.getLast? = some c := by
      have last := congrArg getLast? eq
      rw [getLast?_concat, getLast?_append, getLast?_eq_some_getLast more] at last
      rw [getLast?_eq_some_getLast more, last]
      rfl
    exact mem_of_getLast? last

theorem joins_unsigned (h : Unsigned front radix back)
    (inside : ∀ b ∈ spaced, isDigitOf radix b ∨ isBlank b) (ends : spaced.getLast?.any (!isBlank ·))
    (first : front = [] → spaced.head?.any isDigit) : Joins (front ++ (spaced ++ back)) := by
  have small {radix : Nat} (mem : radix ∈ [2, 8, 10]) (b : UInt8) : isDigitOf radix b → isDigit b :=
    (digit_facts b).1 radix mem
  cases h with
  | decimal => exact joins_decimal (small (by decide)) (by simp) inside ends
  | @suffix c _ h =>
    exact joins_decimal (small (suffix_radix _ h).1) (by simpa using suffix_facts c (suffix_radix _ h).2) inside ends
  | @hexadecimal c isH =>
    refine joins_hexadecimal isH ?_ inside ends
    obtain ⟨b, isFirst, digit⟩ : ∃ b, spaced.head? = some b ∧ isDigit b := (Option.any_eq_true ..).1 (first rfl)
    simpa [isFirst] using (not_blank_of_alnum (by simp [isAlnum, digit])).1
  | @zeroB c isB =>
    have letters := And.intro (suffix_facts '0'.toUInt8 (by decide)) (suffix_facts c (by rw [isB]; decide))
    exact joins_decimal (small (by decide)) (by simpa using letters) inside ends
  | zeroX isX => simpa using joins_zeroX isX inside ends

/-! ## Numbers in a line -/

/-- A line with a data directive and one operand that is scanned to the end of the line. -/
theorem lex_operand {l : Lexeme} {fault : Option Fault} (plain : isBlank b = false ∧ b ≠ ';'.toUInt8)
    (scanned : ∀ st : State, operandStart st.before st.space rest.head? →
      scanAt dialect st b rest = { lexeme := some l, more := rest.length, fault }) :
    ∃ db tok, lex dialect (bytes " db " ++ b :: rest) = ⟨[db, tok], fault⟩ ∧
      db.lexeme = .word (bytes "db") (.directive (.data .byte)) ∧ tok.lexeme = l := by
  let blank : Blanks := ⟨bytes " ", by decide⟩
  have scans (space : Bool) : Scans dialect { ({} : State) with space } (.word (bytes "db") (.ofWord (bytes "db")))
      (blank.val ++ b :: rest) :=
    scans_word (by rintro b ⟨⟩; decide) 'd'.toUInt8 ['b'.toUInt8] [] (by decide) (by decide) (.inl rfl)
  obtain ⟨db, col, isDirective, word⟩ := run_lexeme {} blank scans 1
  obtain ⟨space, passed⟩ := run_blanks dialect ⟨[db], false, none⟩ blank col (b :: rest)
  have role : Role.ofWord (bytes "db") = .directive (.data .byte) := by decide
  rw [role] at isDirective
  have starts : operandStart [db] space rest.head? := by simp [operandStart, isDirective]
  refine ⟨db, ⟨l, col + blank.val.length, space⟩, ?_, isDirective, rfl⟩
  have behind := @run_skip dialect ⟨[⟨l, col + blank.val.length, space⟩, db], false, fault⟩
    (col + blank.val.length + 1) rest []
  rw [append_nil] at behind
  have line : run dialect {} 1 0 (bytes " db " ++ b :: rest) =
      ⟨[⟨l, col + blank.val.length, space⟩, db], false, fault⟩ := by
    refine (word.trans passed).trans ?_
    rw [run, if_neg (by simp [plain.1]), if_neg plain.2, scanned ⟨[db], space, none⟩ starts]
    exact behind
  rw [lex, line]
  rfl

theorem Scanned.ofNumber_eq (text note span : Text) (value : Int64) (more : Nat) (spaced : Bool) (fits : Prop)
    [Decidable fits] :
    ofNumber text note (if fits then some value else none) more (spacedFault dialect spaced span) =
      { lexeme := some (.number text (if fits then value else 0)), more
        fault := if dialect = .native ∧ spaced then some (.about .numberSpace span)
          else if fits then none else some (.about .numberInvalid note) } := by
  cases dialect <;> cases spaced <;> by_cases fits <;> simp [*, ofNumber, spacedFault]

theorem scanAt_unsigned (st : State) (digit : isDigit b) (rest : Text) :
    scanAt dialect st b rest = number dialect (b :: rest) := by
  rw [scanAt, if_pos digit]

end

theorem scanAt_signed {dialect : Dialect} {st : State} {size : Nat} {s : Scanned}
    (isSign : b ∈ bytes "$#%&") (operand : operandStart st.before st.space rest.head?)
    (sign : signRadix? true (b :: rest) = some (radix, size))
    (found : signedNumber? dialect radix size (b :: rest) = some s) : scanAt dialect st b rest = s := by
  obtain ⟨-, -, digit, word, quote, apostrophe⟩ := sign_facts isSign
  unfold scanAt
  dsimp only
  rw [if_neg digit, if_neg word, if_neg quote, if_neg apostrophe, operand, sign]
  dsimp only
  rw [found, Option.getD_some]

theorem unsigned_facts (h : Unsigned front radix back) :
    1 < radix ∧ (∀ b ∈ front ++ back, isAlnum b) ∧ (front ≠ [] → front.head?.any isDigit) := by
  cases h with
  | decimal => simp
  | @suffix c radix h =>
    have base : ∀ radix ∈ [2, 8, 10], 1 < radix := by decide
    exact ⟨base radix (suffix_radix _ h).1, by simpa using (suffix_facts c (suffix_radix _ h).2).1, by simp⟩
  | @hexadecimal c isH => exact ⟨by decide, by simpa using isAlnum_letter c (by rw [isH]; decide), by simp⟩
  | @zeroB c isLetter | @zeroX c isLetter =>
    exact ⟨by decide, by simpa using ⟨by decide, isAlnum_letter c (by rw [isLetter]; decide)⟩, fun _ => rfl⟩

/-- A number in one of the notations is scanned to the end of the line. -/
theorem Spelled.scanAt_eq (h : Spelled n source front spaced back radix) (dialect : Dialect) :
    ∃ b rest text note, source = b :: rest ∧ (isBlank b = false ∧ b ≠ ';'.toUInt8) ∧
      ∀ st : State, operandStart st.before st.space rest.head? → scanAt dialect st b rest =
        .ofNumber text note (if n < 2 ^ 64 then some (Int64.ofNat n) else none) rest.length
          (spacedFault dialect (source.any isBlank) source) := by
  have base : 1 < radix := by
    rcases h.style with style | ⟨style, -⟩
    · exact (unsigned_facts style).1
    · obtain ⟨-, -, -, -, -, -, base, -⟩ := signRadix?_append style
      exact base
  have inside : ∀ b ∈ spaced, isDigitOf radix b ∨ isBlank b := by
    intro b mem
    by_cases blank : isBlank b
    · exact .inr blank
    · exact .inl ((h.digits.facts base).1 b (List.mem_filter.2 ⟨mem, by simpa using blank⟩))
  obtain ⟨digits, value⟩ := h.digits.read? base
  have whole := h.source
  rcases h.style with style | ⟨style, rfl⟩
  · obtain ⟨-, alnum, zero⟩ := unsigned_facts style
    rw [forall_mem_append] at alnum
    have joins := joins_unsigned style inside h.ends h.first
    rw [← whole] at joins
    have joinedText : source.filter (!isBlank ·) = front ++ (spaced.filter (!isBlank ·) ++ back) := by
      rw [whole, filter_append, filter_append, filter_alnum alnum.1, filter_alnum alnum.2]
    have starts : source.head?.any isDigit := by
      rw [whole]
      cases front with
      | nil =>
        have first := h.first rfl
        cases spaced with
        | nil => cases first
        | cons => exact first
      | cons => exact zero (by simp)
    obtain ⟨b, isFirst, digit⟩ := (Option.any_eq_true ..).1 starts
    obtain ⟨rest, rfl⟩ := head?_eq_some_iff.1 isFirst
    let text := front ++ (spaced.filter (!isBlank ·) ++ back)
    refine ⟨b, rest, text, text, rfl, not_blank_of_alnum (by simp [isAlnum, digit]), fun st _ => ?_⟩
    rw [scanAt_unsigned dialect st digit, joins.number_eq, joinedText, value?_unsigned style digits, value]
    rfl
  · obtain ⟨b, more, rfl, isSign, alnum, single, -, sign⟩ := signRadix?_append style
    rw [append_nil] at whole
    obtain ⟨blank, comment, -⟩ := sign_facts isSign
    refine ⟨b, more ++ spaced, source, spaced.filter (!isBlank ·), whole, ⟨blank, comment⟩, fun st operand => ?_⟩
    rw [scanAt_signed isSign operand (sign spaced) (signedNumber?_whole dialect style inside h.ends h.starts), value,
      whole]
    rfl

end

/-- **A number is read in each of its notations.**  After a data directive it becomes one token, which holds its value;
    a number of 2^64 and more is too large, and blanks inside of one are a fault of the native dialect. -/
theorem lex_numeral {n radix : Nat} {source front spaced back : Text}
    (h : Spelled n source front spaced back radix) (dialect : Dialect) :
    ∃ db tok text note, lex dialect (bytes " db " ++ source) = ⟨[db, tok],
        if dialect = .native ∧ source.any isBlank then some (.about .numberSpace source)
        else if n < 2 ^ 64 then none else some (.about .numberInvalid note)⟩ ∧
      db.lexeme = .word (bytes "db") (.directive (.data .byte)) ∧
      tok.lexeme = .number text (if n < 2 ^ 64 then Int64.ofNat n else 0) := by
  obtain ⟨b, rest, text, note, rfl, plain, scanned⟩ := Spelled.scanAt_eq h dialect
  simp only [Scanned.ofNumber_eq] at scanned
  obtain ⟨db, tok, line, directive, number⟩ := lex_operand dialect plain scanned
  exact ⟨db, tok, text, note, line, directive, number⟩

/-- Blanks in a hexadecimal number with letters in both cases, which starts with a zero. -/
theorem lex_numeral_spaced : Spelled 0xFB00 (bytes "0fB 0\t0H") [] (bytes "0fB 0\t0") (bytes "H") 16 ∧
    ∃ db tok text, lex .compass (bytes " db 0fB 0\t0H") = ⟨[db, tok], none⟩ ∧
      db.lexeme = .word (bytes "db") (.directive (.data .byte)) ∧ tok.lexeme = .number text 0xFB00 := by
  have h : Spelled 0xFB00 (bytes "0fB 0\t0H") [] (bytes "0fB 0\t0") (bytes "H") 16 := by
    refine ⟨.inl (.hexadecimal (by decide)), by decide, ⟨by decide, 1, ?_⟩, by decide, by decide, fun _ => by decide⟩
    have digits : Nat.digits 16 0xFB00 = [0, 0, 11, 15] := by simp
    rw [digits]
    decide
  obtain ⟨db, tok, text, note, line, directive, number⟩ := lex_numeral h .compass
  exact ⟨h, db, tok, text, line, directive, number⟩

end Lex

end Z80Asm
