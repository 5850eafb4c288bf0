import Mathlib.Data.List.TakeWhile
import Z80Asm.Proofs.Scanning

/-!
# Where tokens come from

A line is cut into parts: blanks, bytes that start no token, tokens with the bytes that they were read from, and
the comment.  The parts are the whole line, so that nothing is lost and nothing is read twice.
-/

namespace Z80Asm.Lex

open List

variable {n size radix : Nat} {b : UInt8} {t rest : Text} {space operand : Bool} {dialect : Dialect} {s : Scanned}

/-! ## Digit groups -/

/-- The first `n` bytes of a text are letters, digits and blanks, and `word` without the blanks. -/
structure Taken (t word : Text) (n : Nat) : Prop where
  fits : n ≤ t.length
  word : (t.take n).filter (!isBlank ·) = word
  bytes : ∀ b ∈ t.take n, isAlnum b ∨ isBlank b

theorem not_blank_of_alnum (h : isAlnum b) : isBlank b = false ∧ b ≠ ';'.toUInt8 := by
  rcases Bool.or_eq_true_iff.1 h with digit | letter
  · obtain ⟨-, blank, comment, -⟩ := isDigit_facts b digit
    exact ⟨blank, comment⟩
  · obtain ⟨-, blank, comment, -⟩ := isWordStart_facts b (by simp [isWordStart, letter])
    exact ⟨blank, comment⟩

/-- The signs in front of numbers start no other token than these and operators. -/
theorem sign_facts (h : b ∈ bytes "$#%&") : isBlank b = false ∧ b ≠ ';'.toUInt8 ∧ ¬isDigit b ∧
    ¬isWordStart b ∧ b ≠ Text.quoteMark ∧ b ≠ Text.apostrophe := by
  have signs : bytes "$#%&" = ['$'.toUInt8, '#'.toUInt8, '%'.toUInt8, '&'.toUInt8] := by decide
  simp only [signs, mem_cons, not_mem_nil, or_false] at h
  rcases h with rfl | rfl | rfl | rfl <;> decide

/-- The letters in front of digits and behind them, and the zero. -/
theorem isAlnum_letter (b : UInt8) : Text.lowerByte b ∈ bytes "xhbdqo0" → isAlnum b := by
  revert b
  exact byte_cases (by decide +kernel)

namespace Taken
variable {word more : Text} {m : Nat}

theorem nil (t : Text) : Taken t [] 0 := ⟨Nat.zero_le _, by simp, by simp⟩

theorem append (h : Taken t word n) (behind : Taken (t.drop n) more m) : Taken t (word ++ more) (n + m) := by
  refine ⟨?_, ?_, ?_⟩
  · have := behind.fits
    have := h.fits
    rw [length_drop] at *
    omega
  · rw [take_add, filter_append, h.word, behind.word]
  · rw [take_add, forall_mem_append]
    exact ⟨h.bytes, behind.bytes⟩

theorem front {p : UInt8 → Bool} {t word : Text} (all : ∀ b, p b → isAlnum b ∨ isBlank b)
    (rest : (t.takeWhile p).filter (!isBlank ·) = word) : Taken t word (t.takeWhile p).length := by
  have front := (prefix_iff_eq_take.1 (List.takeWhile_prefix (l := t) p)).symm
  refine ⟨(List.takeWhile_prefix p).length_le, by rwa [front], fun b mem => all b ?_⟩
  exact mem_takeWhile_imp (front ▸ mem)

theorem run (t : Text) : Taken t (t.takeWhile isAlnum) (t.takeWhile isAlnum).length := by
  refine front (fun b alnum => .inl alnum) (filter_eq_self.2 fun b mem => ?_)
  simp [(not_blank_of_alnum (mem_takeWhile_imp mem)).1]

theorem blanks (t : Text) : Taken t [] (t.takeWhile isBlank).length :=
  front (fun b blank => .inr blank) (filter_eq_nil_iff.2 fun b mem => by simp [mem_takeWhile_imp mem])

theorem comment (h : Taken t word n) : ';'.toUInt8 ∉ t.take n := fun mem => by
  rcases h.bytes _ mem with alnum | blank
  · exact (not_blank_of_alnum alnum).2 rfl
  · exact absurd blank (by decide)

end Taken

theorem drop_takeWhile (p : UInt8 → Bool) (t : Text) : t.drop (t.takeWhile p).length = t.dropWhile p := by
  have whole := @drop_left _ (t.takeWhile p) (t.dropWhile p)
  rwa [takeWhile_append_dropWhile] at whole

theorem group?_taken {accept : Text → Bool} {word : Text} (h : group? accept t = some (word, n)) :
    Taken t word n ∧ accept word := by
  unfold group? at h
  dsimp only at h
  rw [← drop_takeWhile] at h
  split_ifs at h with _ accepted
  cases h
  exact ⟨(Taken.blanks t).append (Taken.run _), accepted⟩

theorem groups_taken (accept last : Text → Bool) (fuel : Nat) (t : Text) :
    Taken t (groups accept last fuel t).1.flatten (groups accept last fuel t).2 ∧
      ∀ word ∈ (groups accept last fuel t).1, accept word := by
  fun_induction groups accept last fuel t with
  | case1 t => exact ⟨.nil t, by simp⟩
  | case2 => exact ⟨.nil _, by simp⟩
  | case3 fuel t word n found => simpa using group?_taken found
  | case4 fuel t word n found _ words m behind ih =>
    rw [behind] at ih
    exact ⟨(group?_taken found).1.append ih.1, forall_mem_cons.2 ⟨(group?_taken found).2, ih.2⟩⟩

theorem hexGroups?_taken {word after text : Text} (h : hexGroups? word after = some (text, n)) :
    ∃ more, text = word ++ more ∧ Taken after more n := by
  unfold hexGroups? at h
  dsimp only at h
  split_ifs at h <;> cases h <;> exact ⟨_, rfl, (groups_taken ..).1⟩

/-! ## Scanners -/

/-- The shape of a word: `af'` is one. -/
def IsWord (text : Text) : Prop :=
  ∃ start stem mark, text = start :: stem ++ mark ∧ isWordStart start ∧ stem.all isWordByte ∧
    (mark = [] ∨ mark = [Text.apostrophe] ∧ Text.lower (start :: stem) = bytes "af")

theorem IsWord.mem_facts {text : Text} (h : IsWord text) : ∀ b ∈ text, isWordByte b ∨ b = Text.apostrophe := by
  obtain ⟨start, stem, mark, rfl, starts, stemBytes, marks⟩ := h
  have startByte : isWordByte start := by simp [isWordByte, starts]
  intro b mem
  simp only [cons_append, mem_cons, mem_append] at mem
  rcases mem with rfl | mem | mem
  · exact .inl startByte
  · exact .inl (all_eq_true.1 stemBytes b mem)
  · rcases marks with rfl | ⟨rfl, -⟩
    · cases mem
    · exact .inr (mem_singleton.1 mem)

/-- The quotes of strings, and how the bytes behind them are read. -/
inductive Quotes : UInt8 → (Text → Inside) → Prop
  | double : Quotes Text.quoteMark quoted
  | single : Quotes Text.apostrophe apostrophed

/-- What a token holds that is read from the bytes `span`. -/
def Spells (span : Text) (fault : Option Fault) : Lexeme → Prop
  | .word text role => text = span ∧ IsWord text ∧ role = .ofWord text
  | .sign s => s.text = span
  | .number text value => (∀ b ∈ span, isAlnum b ∨ isBlank b ∨ b ∈ bytes "$#%&") ∧
    if span.head?.any isDigit then
      text = span.filter (!isBlank ·) ∧ (fault = none → Numeral.value? text = some value)
    else text = span
  | .string text => ∃ quote inside scan, Quotes quote scan ∧ span = quote :: inside ∧
      scan inside = { text, size := inside.length, closed := fault.isNone }

/-- What a scanner finds at the start of a text is what the bytes that it takes spell. -/
structure Reads (t : Text) (s : Scanned) : Prop where
  fits : s.more < t.length
  spells : ∀ l ∈ s.lexeme, Spells (t.take (s.more + 1)) s.fault l
  comment : ';'.toUInt8 ∈ t.take (s.more + 1) → ∃ text, s.lexeme = some (.string text)
  skipped : s.lexeme = none → s.more = 0 ∧ s.fault = some (.about .character (Text.quoteByte (t.head?.getD 0)))

def joined (t : Text) : Text × Nat :=
  let word := t.takeWhile isAlnum
  let after := t.dropWhile isAlnum
  match hexGroups? word after with
  | some joined => joined
  | none =>
    let (words, n) := groups (fun w => w.head?.any isDigit) (fun _ => false) after.length after
    (word ++ words.flatten, n)

theorem joined_taken (t : Text) : Taken t (joined t).1 ((t.takeWhile isAlnum).length + (joined t).2) := by
  have behind {more : Text} {n : Nat} (h : Taken (t.dropWhile isAlnum) more n) :
      Taken t (t.takeWhile isAlnum ++ more) ((t.takeWhile isAlnum).length + n) :=
    (Taken.run t).append (drop_takeWhile isAlnum t ▸ h)
  unfold joined
  dsimp only
  split
  next joined found =>
    obtain ⟨more, text, taken⟩ := hexGroups?_taken found
    exact text ▸ behind taken
  · exact behind (groups_taken ..).1

def Scanned.ofNumber (text note : Text) (value : Option Int64) (more : Nat) (spaced : Option Fault) : Scanned :=
  match value with
  | some value => { lexeme := some (.number text value), more, fault := spaced }
  | none => { lexeme := some (.number text 0), more, fault := spaced.or (some (.about .numberInvalid note)) }

theorem number_eq (dialect : Dialect) (t : Text) : number dialect t =
    .ofNumber (joined t).1 (joined t).1 (Numeral.value? (joined t).1)
      ((t.takeWhile isAlnum).length + (joined t).2 - 1)
      (spacedFault dialect ((joined t).2 != 0) (t.take ((t.takeWhile isAlnum).length + (joined t).2))) := rfl

theorem Reads.ofNumber {text note : Text} {value : Option Int64} {spaced : Option Fault} (fits : n < t.length)
    (comment : ';'.toUInt8 ∉ t.take (n + 1))
    (spells : ∀ v fault, (fault = none → value = some v) → Spells (t.take (n + 1)) fault (.number text v)) :
    Reads t (.ofNumber text note value n spaced) := by
  cases value with
  | some v => exact ⟨fits, by rintro l ⟨⟩; exact spells v _ fun _ => rfl, fun mem => absurd mem comment, nofun⟩
  | none =>
    exact ⟨fits, by rintro l ⟨⟩; exact spells 0 _ (by simp [Scanned.ofNumber]), fun mem => absurd mem comment, nofun⟩

theorem number_reads (dialect : Dialect) (digit : isDigit b) (rest : Text) :
    Reads (b :: rest) (number dialect (b :: rest)) := by
  have taken := joined_taken (b :: rest)
  have nonempty : 0 < ((b :: rest).takeWhile isAlnum).length + (joined (b :: rest)).2 :=
    Nat.add_pos_left (by simp [isAlnum, digit]) _
  rw [number_eq]
  generalize ((b :: rest).takeWhile isAlnum).length + (joined (b :: rest)).2 = n at *
  obtain ⟨n, rfl⟩ := Nat.exists_eq_succ_of_ne_zero (Nat.ne_of_gt nonempty)
  refine .ofNumber taken.fits taken.comment fun v fault read => ?_
  rw [Spells, if_pos (by simpa using digit)]
  exact ⟨fun b mem => (taken.bytes b mem).imp_right .inl, taken.word.symm, read⟩

theorem signRadix?_cases (h : Numeral.signRadix? operand (b :: rest) = some (radix, size)) :
    b ∈ bytes "$#%&" ∧ (size = 1 ∨ size = 2 ∧ ∃ c more, rest = c :: more ∧ isAlnum c) := by
  unfold Numeral.signRadix? at h
  dsimp only at h
  split_ifs at h with hex binary either
  · cases h
    refine ⟨?_, .inl rfl⟩
    rcases Bool.or_eq_true_iff.1 hex with isSign | isSign <;> rw [of_decide_eq_true isSign] <;> decide
  · cases h
    rw [of_decide_eq_true (Bool.and_eq_true_iff.1 binary).1]
    exact ⟨by decide, .inl rfl⟩
  · rw [of_decide_eq_true (Bool.and_eq_true_iff.1 either).1]
    refine ⟨by decide, .inr ?_⟩
    cases rest with
    | nil => cases h
    | cons c more =>
      dsimp only at h
      split_ifs at h with isH isB isOther <;> cases h
      all_goals refine ⟨rfl, c, more, rfl, isAlnum_letter c ?_⟩
      · rw [isH]; decide
      · rw [isB]; decide
      · rcases Bool.or_eq_true_iff.1 isOther with isO | isO <;> rw [of_decide_eq_true isO] <;> decide

theorem signedEnd_eq (dialect : Dialect) (radix : Nat) (t digits : Text) (size : Nat) (spaced : Bool) :
    let found := groups (Numeral.isDigits radix) (fun _ => false) (t.drop size).length (t.drop size)
    signedEnd dialect radix t digits size spaced =
      .ofNumber (t.take (size + found.2)) (digits ++ found.1.flatten) (Numeral.read? radix (digits ++ found.1.flatten))
        (size + found.2 - 1) (spacedFault dialect (spaced || found.2 != 0) (t.take (size + found.2))) := rfl

/-- A number with a sign in front is what stands between the sign and the end of its digits. -/
theorem signedNumber?_cases (h : signedNumber? dialect radix size t = some s) :
    ∃ word n value note fault, Taken (t.drop size) word n ∧
      s = .ofNumber (t.take (size + n)) note value (size + n - 1) fault := by
  have ended {word digits : Text} {n : Nat} (taken : Taken (t.drop size) word n) {spaced : Bool}
      (h : some (signedEnd dialect radix t digits (size + n) spaced) = some s) : ∃ word n value note fault,
      Taken (t.drop size) word n ∧ s = .ofNumber (t.take (size + n)) note value (size + n - 1) fault := by
    have more := (groups_taken (Numeral.isDigits radix) (fun _ => false) (t.drop (size + n)).length
      (t.drop (size + n))).1
    rw [signedEnd_eq, Option.some_inj, Nat.add_assoc] at h
    exact ⟨_, _, _, _, _, taken.append (by rwa [drop_drop]), h.symm⟩
  unfold signedNumber? at h
  dsimp only at h
  split at h
  · split at h
    · cases h
    · split at h
      next digits n found => exact ended (group?_taken found).1 h
      · cases h
  · split at h
    · exact ended (Taken.run _) h
    · split at h
      · cases h
      · exact ⟨_, _, none, _, none, Taken.run _, (Option.some.inj h).symm⟩

theorem signedNumber?_reads (isSign : Numeral.signRadix? operand (b :: rest) = some (radix, size))
    (h : signedNumber? dialect radix size (b :: rest) = some s) : Reads (b :: rest) s := by
  obtain ⟨first, sizes⟩ := signRadix?_cases isSign
  obtain ⟨word, n, value, note, fault, taken, rfl⟩ := signedNumber?_cases h
  have inside : 0 < size ∧ size ≤ (b :: rest).length ∧
      ∀ c ∈ (b :: rest).take size, isAlnum c ∨ isBlank c ∨ c ∈ bytes "$#%&" := by
    rcases sizes with rfl | ⟨rfl, c, more, rfl, alnum⟩
    · simpa using .inr (.inr first)
    · simpa using ⟨.inr (.inr first), .inl alnum⟩
  have fits := taken.fits
  rw [length_drop] at fits
  obtain ⟨m, isSize⟩ : ∃ m, size + n = m + 1 := ⟨size + n - 1, by omega⟩
  have bytes : ∀ c ∈ (b :: rest).take (size + n), isAlnum c ∨ isBlank c ∨ c ∈ bytes "$#%&" := by
    rw [take_add, forall_mem_append]
    exact ⟨inside.2.2, fun c mem => (taken.bytes c mem).imp_right .inl⟩
  rw [isSize] at bytes ⊢
  refine .ofNumber (by omega) (fun mem => absurd (bytes _ mem) (by decide)) fun v fault _ => ?_
  rw [Spells, if_neg (by simp [sign_facts first])]
  exact ⟨bytes, rfl⟩

theorem word_reads (starts : isWordStart b) (rest : Text) : Reads (b :: rest) (word (b :: rest)) := by
  have isByte : isWordByte b := by simp [isWordByte, starts]
  obtain ⟨mark, marked, scanned, front⟩ : ∃ mark,
      (mark = [] ∨ mark = [Text.apostrophe] ∧ Text.lower (b :: rest.takeWhile isWordByte) = bytes "af") ∧
      word (b :: rest) = { lexeme := some (.word (b :: rest.takeWhile isWordByte ++ mark)
                                       (.ofWord (b :: rest.takeWhile isWordByte ++ mark)))
                           more := (rest.takeWhile isWordByte ++ mark).length } ∧
      rest.takeWhile isWordByte ++ mark <+: rest := by
    have whole := takeWhile_append_dropWhile (p := isWordByte) (l := rest)
    unfold word
    rw [takeWhile_cons_of_pos isByte, dropWhile_cons_of_pos isByte]
    dsimp only
    split
    next af =>
      rw [Bool.and_eq_true, beq_iff_eq, beq_iff_eq] at af
      obtain ⟨more, behind⟩ := head?_eq_some_iff.1 af.2
      refine ⟨[Text.apostrophe], .inr ⟨rfl, af.1⟩, by simp, more, ?_⟩
      simpa [behind] using whole
    · exact ⟨[], .inl rfl, by simp, by simpa using List.takeWhile_prefix isWordByte⟩
  have span := prefix_iff_eq_take.1 ((prefix_cons_inj b).2 front)
  have isWord : IsWord (b :: (rest.takeWhile isWordByte ++ mark)) :=
    ⟨b, _, mark, rfl, starts, all_takeWhile, marked⟩
  rw [scanned]
  refine ⟨Nat.lt_succ_of_le front.length_le, ?_, ?_, by simp⟩
  · rintro l ⟨⟩
    exact ⟨span, isWord, rfl⟩
  · intro mem
    rcases isWord.mem_facts _ (span ▸ mem) with isByte | isMark
    · exact absurd isByte (by decide)
    · exact absurd isMark (by decide)

section
variable {quote : UInt8} {scan : Text → Inside} (h : Quotes quote scan)
include h

theorem Quotes.size_cons (b : UInt8) (t : Text) : ∃ n, (scan (b :: t)).size = n + 1 := by
  cases h <;> cases t <;> simp only [quoted, apostrophed] <;> repeat' split
  all_goals exact ⟨_, rfl⟩

/-- What is scanned is a part of the text, and scanned alike by itself. -/
theorem Quotes.scan_take (t : Text) : (scan t).size ≤ t.length ∧ scan (t.take (scan t).size) = scan t := by
  have cons := h.size_cons
  cases h with
  | double =>
    fun_induction quoted t with
    | case1 => exact ⟨Nat.le_refl 0, rfl⟩
    | case2 => simp [Inside.close, quoted]
    | case3 b other => simp [Inside.cons, Inside.open, quoted, other]
    | case4 => simp [Inside.close, quoted]
    | case5 b e rest other v isEscape ih => simp [Inside.cons, quoted, other, isEscape, ih]
    | case6 b e rest other noEscape ih =>
      obtain ⟨n, size⟩ := cons e rest
      rw [size, take_succ_cons] at ih
      simp [Inside.cons, quoted, other, noEscape, size, ih.2, Nat.le_of_succ_le_succ ih.1]
  | single =>
    fun_induction apostrophed t with
    | case1 => exact ⟨Nat.le_refl 0, rfl⟩
    | case2 => simp [Inside.close, apostrophed]
    | case3 b other => simp [Inside.cons, Inside.open, apostrophed, other]
    | case4 rest ih => simp [Inside.cons, apostrophed, ih]
    | case5 => simp [Inside.close, apostrophed]
    | case6 b e rest other ih =>
      obtain ⟨n, size⟩ := cons e rest
      rw [size, take_succ_cons] at ih
      simp [Inside.cons, apostrophed, other, size, ih.2, Nat.le_of_succ_le_succ ih.1]

theorem string_reads (rest : Text) : Reads (quote :: rest) (string (scan rest)) := by
  have own := h.scan_take rest
  have isNone : (string (scan rest)).fault.isNone = (scan rest).closed := by
    cases closed : (scan rest).closed <;> simp [string, closed]
  refine ⟨Nat.lt_succ_of_le own.1, ?_, fun _ => ⟨_, rfl⟩, by simp [string]⟩
  rintro l ⟨⟩
  refine ⟨quote, rest.take (scan rest).size, scan, h, rfl, ?_⟩
  rw [own.2, isNone, length_take_of_le own.1]

end

theorem sign_reads (noComment : b ≠ ';'.toUInt8) (rest : Text) : Reads (b :: rest) (sign (b :: rest)) := by
  unfold sign
  split
  next s first =>
    rw [Sign.first?] at first
    have front : s.text <+: b :: rest := List.isPrefixOf_iff_prefix.1 (find?_some first :)
    have clear : ';'.toUInt8 ∉ s.text ∧ s.text.length - 1 + 1 = s.text.length := by cases s <;> decide
    refine ⟨?_, ?_, ?_, by simp⟩
    · have := front.length_le
      show s.text.length - 1 < _
      omega
    · rintro l ⟨⟩
      rw [clear.2]
      exact prefix_iff_eq_take.1 front
    · rw [clear.2, ← prefix_iff_eq_take.1 front]
      exact fun mem => absurd mem clear.1
  · exact ⟨Nat.succ_pos _, by simp, by simpa using Ne.symm noComment, fun _ => ⟨rfl, rfl⟩⟩

theorem scanAt_reads (dialect : Dialect) (st : State) (noComment : b ≠ ';'.toUInt8) (rest : Text) :
    Reads (b :: rest) (scanAt dialect st b rest) := by
  unfold scanAt
  dsimp only
  split
  next digit => exact number_reads dialect digit rest
  split
  next starts => exact word_reads starts rest
  split
  next isQuote => exact isQuote ▸ string_reads .double rest
  split
  next isQuote => exact isQuote ▸ string_reads .single rest
  split
  next radix size isSign =>
    cases found : signedNumber? dialect radix size (b :: rest) with
    | none => exact sign_reads noComment rest
    | some s => exact signedNumber?_reads isSign found
  · exact sign_reads noComment rest

/-! ## Parts of a line -/

inductive Part where
  | blank (b : UInt8)
  | skipped (b : UInt8)
  | token (tok : Token) (span : Text) (fault : Option Fault)
  | comment (text : Text)

namespace Part

def text : Part → Text
  | blank b | skipped b => [b]
  | token _ span _ => span
  | comment text => text

def token? : Part → Option Token
  | token tok _ _ => some tok
  | _ => none

def fault? : Part → Option Fault
  | skipped b => some (.about .character (Text.quoteByte b))
  | token _ _ fault => fault
  | _ => none

end Part

/-- Parts that follow each other from a column on, with or without blanks in front of them.  Each is what it stands
    for; semicolons stand in strings and in the comment only, which is the last part. -/
inductive Laid : Bool → Nat → List Part → Prop
  | nil {space : Bool} {col : Nat} : Laid space col []
  | comment {space : Bool} {col : Nat} (rest : Text) : Laid space col [.comment (';'.toUInt8 :: rest)]
  | blank {space : Bool} {col : Nat} {b : UInt8} {parts : List Part} (isBlank : isBlank b)
      (rest : Laid true (col + 1) parts) : Laid space col (.blank b :: parts)
  | skipped {space : Bool} {col : Nat} {b : UInt8} {parts : List Part} (noComment : b ≠ ';'.toUInt8)
      (rest : Laid space (col + 1) parts) : Laid space col (.skipped b :: parts)
  | token {space : Bool} {col : Nat} {lexeme : Lexeme} {span : Text} {fault : Option Fault} {parts : List Part}
      (nonempty : span ≠ []) (spells : Spells span fault lexeme)
      (comment : ';'.toUInt8 ∈ span → ∃ text, lexeme = .string text)
      (rest : Laid false (col + span.length) parts) : Laid space col (.token ⟨lexeme, col, space⟩ span fault :: parts)

def Part.ofScanned (st : State) (col : Nat) (b : UInt8) (rest : Text) (s : Scanned) : Part :=
  match s.lexeme with
  | some lexeme => .token { lexeme, col, space := st.space } (b :: rest.take s.more) s.fault
  | none => .skipped b

/-- Cuts a line into parts from byte `col` on, after passing over `skip` bytes. -/
def cut (dialect : Dialect) (st : State) (col : Nat) : Nat → Text → List Part
  | _, [] => []
  | skip + 1, _ :: rest => cut dialect st (col + 1) skip rest
  | 0, b :: rest =>
    if isBlank b then .blank b :: cut dialect { st with space := true } (col + 1) 0 rest
    else if b = ';'.toUInt8 then [.comment (b :: rest)]
    else
      let s := scanAt dialect st b rest
      .ofScanned st col b rest s :: cut dialect (st.accept col s) (col + 1) s.more rest

section
variable {st : State} {col : Nat} {parts : List Part}

theorem Part.ofScanned_text (reads : Reads (b :: rest) s) :
    (ofScanned st col b rest s).text = b :: rest.take s.more := by
  unfold ofScanned
  split
  · rfl
  next none => simp [Part.text, (reads.skipped none).1]

theorem Part.ofScanned_accept (st : State) (col : Nat) (reads : Reads (b :: rest) s) :
    (st.accept col s).before = (ofScanned st col b rest s).token?.toList ++ st.before ∧
      (st.accept col s).space = (s.lexeme.isNone && st.space) ∧
      (st.accept col s).fault = st.fault.or (ofScanned st col b rest s).fault? := by
  unfold ofScanned State.accept
  cases found : s.lexeme with
  | some lexeme => simp [token?, fault?]
  | none => simp [token?, fault?, (reads.skipped found).2]

theorem Laid.scanned (reads : Reads (b :: rest) s) (noComment : b ≠ ';'.toUInt8)
    (behind : Laid (s.lexeme.isNone && st.space) (col + 1 + s.more) parts) :
    Laid st.space col (.ofScanned st col b rest s :: parts) := by
  unfold Part.ofScanned
  cases found : s.lexeme with
  | some lexeme =>
    have comment := reads.comment
    rw [found] at behind comment
    have length : col + (b :: rest.take s.more).length = col + 1 + s.more := by
      rw [length_cons, length_take_of_le (Nat.le_of_lt_succ reads.fits)]
      omega
    refine .token (by simp) (reads.spells lexeme found) (fun mem => ?_) (length ▸ behind)
    obtain ⟨text, isString⟩ := comment mem
    exact ⟨text, Option.some.inj isString⟩
  | none =>
    rw [found, (reads.skipped found).1] at behind
    exact .skipped noComment behind

section
variable (dialect : Dialect) (st : State) (col skip : Nat) (t : Text)

theorem cut_laid (fits : skip ≤ t.length) : Laid st.space (col + skip) (cut dialect st col skip t) := by
  fun_induction cut dialect st col skip t with
  | case1 => exact .nil
  | case2 st col skip b rest ih => exact Nat.add_right_comm col 1 skip ▸ ih (Nat.le_of_succ_le_succ fits)
  | case3 st col b rest isBlank ih => exact .blank isBlank (ih (Nat.zero_le _))
  | case4 st col rest => exact .comment rest
  | case5 st col b rest _ noComment s ih =>
    have reads := scanAt_reads dialect st noComment rest
    have behind := ih (Nat.le_of_lt_succ reads.fits)
    rw [(Part.ofScanned_accept st _ reads).2.1] at behind
    exact .scanned reads noComment behind

theorem cut_text : (cut dialect st col skip t).flatMap Part.text = t.drop skip := by
  fun_induction cut dialect st col skip t with
  | case1 => simp
  | case2 => simpa
  | case3 => simpa [Part.text]
  | case4 => simp [Part.text]
  | case5 st col b rest _ noComment s ih =>
    have reads := scanAt_reads dialect st noComment rest
    rw [flatMap_cons, ih, Part.ofScanned_text reads, cons_append, take_append_drop]
    rfl

theorem run_cut :
    (run dialect st col skip t).before = ((cut dialect st col skip t).filterMap Part.token?).reverse ++ st.before ∧
      (run dialect st col skip t).fault = st.fault.or ((cut dialect st col skip t).findSome? Part.fault?) := by
  fun_induction cut dialect st col skip t with
  | case1 => simp [run]
  | case2 st col skip b rest ih => exact ih
  | case3 st col b rest isBlank ih => rwa [run, if_pos isBlank, filterMap_cons, findSome?_cons]
  | case4 st col rest blank => simp [run, blank, Part.token?, Part.fault?]
  | case5 st col b rest blank noComment s ih =>
    obtain ⟨before, -, fault⟩ := Part.ofScanned_accept st col (scanAt_reads dialect st noComment rest)
    rw [before, fault] at ih
    rw [run, if_neg blank, if_neg noComment]
    refine ⟨ih.1.trans ?_, ih.2.trans ?_⟩
    · rw [filterMap_cons]
      cases (Part.ofScanned st col b rest s).token? <;> simp
    · rw [findSome?_cons, Option.or_assoc]
      cases (Part.ofScanned st col b rest s).fault? <;> rfl

end

theorem Laid.forall_mem (h : Laid space col parts) : ∀ part ∈ parts, (∃ b, part = .blank b ∧ isBlank b) ∨
    (∃ b, part = .skipped b) ∨ (∃ rest, part = .comment (';'.toUInt8 :: rest)) ∨
    ∃ tok span fault, part = .token tok span fault ∧ span ≠ [] ∧ Spells span fault tok.lexeme := by
  induction h with
  | nil => simp
  | comment rest => simp
  | blank isBlank _ ih => exact forall_mem_cons.2 ⟨.inl ⟨_, rfl, isBlank⟩, ih⟩
  | skipped _ _ ih => exact forall_mem_cons.2 ⟨.inr (.inl ⟨_, rfl⟩), ih⟩
  | token nonempty spells _ _ ih =>
    exact forall_mem_cons.2 ⟨.inr (.inr (.inr ⟨_, _, _, rfl, nonempty, spells⟩)), ih⟩

theorem Laid.columns (h : Laid space col parts) :
    (∀ tok ∈ parts.filterMap Part.token?, col ≤ tok.col) ∧ (parts.filterMap Part.token?).Pairwise (·.col < ·.col) := by
  induction h with
  | nil => simp
  | comment => exact ⟨by rintro tok ⟨⟩, .nil⟩
  | blank _ _ ih | skipped _ _ ih => exact ⟨fun tok mem => Nat.le_of_succ_le (ih.1 tok mem), ih.2⟩
  | token nonempty _ _ _ ih =>
    have pos := length_pos_iff.2 nonempty
    rw [filterMap_cons, Part.token?, forall_mem_cons, pairwise_cons]
    refine ⟨⟨Nat.le_refl _, fun tok mem => ?_⟩, fun tok mem => ?_, ih.2⟩
    · exact Nat.le_trans (Nat.le_add_right ..) (ih.1 tok mem)
    · exact Nat.lt_of_lt_of_le (Nat.lt_add_of_pos_right pos) (ih.1 tok mem)

end

def parts (dialect : Dialect) (line : Text) : List Part := cut dialect {} 1 0 line

theorem lex_parts (dialect : Dialect) (line : Text) : lex dialect line =
    { tokens := (parts dialect line).filterMap Part.token?, fault := (parts dialect line).findSome? Part.fault? } := by
  obtain ⟨before, fault⟩ := run_cut dialect {} 1 0 line
  rw [lex, before, fault]
  simp [parts]

theorem parts_laid (dialect : Dialect) (line : Text) : Laid false 1 (parts dialect line) :=
  cut_laid dialect {} 1 0 line (Nat.zero_le _)

/-- **A line is split without loss.**  Its parts are the whole line and follow each other: blanks, bytes that start no
    token and are reported, the bytes of each token from its column on, and the comment.  The tokens are those of the
    parts, in growing columns, and the fault is the first one of a part, so that without a fault no byte is skipped. -/
theorem lex_lossless (dialect : Dialect) (line : Text) :
    Laid false 1 (parts dialect line) ∧ (parts dialect line).flatMap Part.text = line ∧
      (lex dialect line).tokens = (parts dialect line).filterMap Part.token? ∧
      (lex dialect line).tokens.Pairwise (·.col < ·.col) ∧
      (lex dialect line).fault = (parts dialect line).findSome? Part.fault? := by
  rw [lex_parts]
  have laid := parts_laid dialect line
  exact ⟨laid, cut_text dialect {} 1 0 line, rfl, laid.columns.2, rfl⟩

end Z80Asm.Lex
