import Mathlib.Algebra.Group.Nat.Defs
import Z80Asm.Proofs.LoadedRows
import Z80Asm.Text.Utf8

/-!
# Written rows

Texts that are written row by row fall into the same rows again, and hexadecimal digits are read as the number
that they were written from.
-/

namespace Z80Asm.Text

open List

variable {t part : Text} {separator : UInt8} {rows : List Text}

/-! ## Parts of a text -/

theorem splitAtByte_append (plain : separator ∉ part) (rest : Text) :
    splitAtByte separator (part ++ separator :: rest) = part :: splitAtByte separator rest := by
  induction part with
  | nil => simp [splitAtByte]
  | cons b more ih =>
    rw [mem_cons, not_or] at plain
    rw [cons_append, splitAtByte, if_neg (Ne.symm plain.1), ih plain.2]

theorem splitAtByte_rows (plain : ∀ row ∈ rows, separator ∉ row) (rest : Text) :
    splitAtByte separator ((rows.map (· ++ [separator])).flatten ++ rest) = rows ++ splitAtByte separator rest := by
  induction rows with
  | nil => rfl
  | cons row rows ih =>
    rw [forall_mem_cons] at plain
    rw [map_cons, flatten_cons, append_assoc, append_assoc, singleton_append,
      splitAtByte_append plain.1, ih plain.2, cons_append]

theorem lines_rows (plain : ∀ row ∈ rows, 0x0A ∉ row ∧ 0x0D ∉ row) : lines (rows.map (· ++ [0x0A])).flatten = rows := by
  have noReturn : 0x0D ∉ (rows.map (· ++ [0x0A])).flatten := by
    simpa [mem_flatten] using fun row mem => (plain row mem).2
  have split := splitAtByte_rows (fun row mem => (plain row mem).1) []
  rw [append_nil] at split
  rw [lines, dropReturns_of_not_mem (.inl noReturn), split]
  simp [splitAtByte]

def words (field : Text) : List Text := (splitAtByte ' '.toUInt8 field).filter (!·.isEmpty)

@[simp] theorem words_blank (rest : Text) : words (' '.toUInt8 :: rest) = words rest := by
  simp [words, splitAtByte]

theorem words_append (plain : ' '.toUInt8 ∉ part) (nonempty : part ≠ []) (rest : Text) :
    words (part ++ ' '.toUInt8 :: rest) = part :: words rest := by
  rw [words, splitAtByte_append plain, filter_cons_of_pos (by simpa using nonempty), words]

theorem words_single (plain : ' '.toUInt8 ∉ part) (nonempty : part ≠ []) : words part = [part] := by
  rw [words, splitAtByte_of_not_mem plain, filter_cons_of_pos (by simpa using nonempty)]
  rfl

theorem words_blanks (n : Nat) : words (List.replicate n ' '.toUInt8) = [] := by
  induction n with
  | zero => rfl
  | succ n ih => rw [replicate_succ, words_blank, ih]

/-! ## Hexadecimal digits -/

theorem hexDigit_facts : ∀ d : Fin 16, Numeral.digit? (hexDigit d) = some d.val ∧
    Lex.isAlnum (hexDigit d) = true ∧ hexDigit d < 0x80 := by decide

theorem hexDigit_mod (n : Nat) : Numeral.digit? (hexDigit (n % 16)) = some (n % 16) ∧
    Lex.isAlnum (hexDigit (n % 16)) = true ∧ hexDigit (n % 16) < 0x80 :=
  hexDigit_facts ⟨n % 16, Nat.mod_lt n (by decide)⟩

@[simp] theorem length_hex (width n : Nat) : (hex width n).length = width := by
  induction width generalizing n with
  | zero => rfl
  | succ width ih => simp [hex, ih]

theorem hex_bytes {width n : Nat} : ∀ b ∈ hex width n, Lex.isAlnum b = true ∧ b < 0x80 := by
  induction width generalizing n with
  | zero => simp [hex]
  | succ width ih =>
    intro b mem
    rw [hex, mem_append, mem_singleton] at mem
    rcases mem with mem | rfl
    · exact ih b mem
    · exact (hexDigit_mod n).2

theorem hex_succ (width n : Nat) : hex (width + 1) n = hexDigit (n / 16 ^ width % 16) :: hex width n := by
  induction width generalizing n with
  | zero => simp [hex]
  | succ width ih =>
    rw [hex, ih, cons_append, Nat.div_div_eq_div_mul, ← Nat.pow_succ']
    rfl

theorem hex_mod (width n : Nat) : hex width n = hex width (n % 16 ^ width) := by
  induction width generalizing n with
  | zero => rfl
  | succ width ih =>
    have last : n % 16 ^ (width + 1) % 16 = n % 16 := Nat.mod_mod_of_dvd n ⟨16 ^ width, Nat.pow_succ'⟩
    have others : n % 16 ^ (width + 1) / 16 = n / 16 % 16 ^ width := by
      rw [Nat.pow_succ, Nat.mul_comm, Nat.mod_mul_right_div_self]
    rw [hex, hex, last, others, ih]

theorem isAlnum_ne (b : UInt8) : Lex.isAlnum b → b ≠ ' '.toUInt8 ∧ b ≠ 0x0A := by
  revert b
  exact Lex.byte_cases (by decide +kernel)

/-- **Hexadecimal digits are read as the number they show.** -/
theorem ofDigits_hex (width n : Nat) : Numeral.ofDigits 16 (hex width n) = n % 16 ^ width := by
  induction width generalizing n with
  | zero => simp [hex, Numeral.ofDigits, Nat.mod_one]
  | succ width ih =>
    have split : Numeral.ofDigits 16 (hex (width + 1) n) = Numeral.ofDigits 16 (hex width (n / 16)) * 16 + n % 16 := by
      rw [hex, Numeral.ofDigits, foldl_append]
      simp only [foldl_cons, foldl_nil, (hexDigit_mod n).1, Option.getD_some]
      rfl
    rw [split, ih, Nat.pow_succ, Nat.mul_comm (16 ^ width), Nat.mod_mul, Nat.add_comm, Nat.mul_comm]

/-! ## Padding -/

theorem pieces_length (ascii : ∀ b ∈ t, b < 0x80) : (pieces t).length = t.length := by
  unfold pieces
  induction t with
  | nil => rfl
  | cons b rest ih =>
    rw [forall_mem_cons] at ascii
    simp [piecesFrom, firstPiece, ascii.1, ih ascii.2]

theorem padRight_of_ascii (ascii : ∀ b ∈ t, b < 0x80) (width : Nat) :
    padRight width t = t ++ List.replicate (width - t.length) ' '.toUInt8 := by
  rw [padRight, pieces_length ascii]

end Z80Asm.Text
