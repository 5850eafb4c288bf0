import Z80Asm.Proofs.OperandText
import Z80Asm.Proofs.RenamedRuns

/-!
# Instructions written and read again

An instruction that is written from its mnemonic and the source forms of its operands is assembled as
that instruction, so its bytes and faults are those of the encoder.
-/

namespace Z80Asm

open List

variable {ops : List Cpu.Operand} {m : Cpu.Mnemonic} {toks : List Token}

/-- The operands of an instruction have source forms.  Of several, `push` and `pop` would make several
    instructions. -/
structure Cpu.Mnemonic.Canonical (m : Mnemonic) (ops : List Operand) : Prop where
  first : ∀ op ∈ ops.head?, op.Canonical (Program.conditionFirst m ops.length)
  others : ∀ op ∈ ops.tail, op.Canonical false
  single : m = .push ∨ m = .pop → ops.length ≤ 1

def Cpu.Operand.joined (ops : List Operand) : List Lexeme :=
  List.intercalate [.sign .comma] (ops.map lexemes)

/-- The line of an instruction: a blank, the mnemonic, a blank and the operands. -/
def Cpu.Mnemonic.line (m : Mnemonic) (ops : List Operand) : Text :=
  bytes " " ++ (m.name ++ (bytes " " ++ Text.join (bytes ",") (ops.map Operand.text)))

namespace Cpu.Mnemonic.Canonical
variable {m : Mnemonic} {op : Operand} {ops : List Operand}

theorem forall_exists (h : m.Canonical ops) : ∀ op ∈ ops, ∃ condition, op.Canonical condition := by
  cases ops with
  | nil => simp
  | cons op ops =>
    exact forall_mem_cons.2 ⟨⟨_, h.first op rfl⟩, fun op mem => ⟨_, h.others op mem⟩⟩

theorem written (h : ∀ op' ∈ op :: ops, ∃ condition, op'.Canonical condition) :
    Lex.Written .operand (Operand.joined (op :: ops)) := by
  rw [forall_mem_cons] at h
  obtain ⟨condition, canonical⟩ := h.1
  induction ops generalizing op condition with
  | nil => simpa [Operand.joined] using canonical.written .done
  | cons next ops ih =>
    obtain ⟨nextCanonical, rest⟩ := forall_mem_cons.1 h.2
    obtain ⟨condition', canonical'⟩ := nextCanonical
    have behind := ih ⟨⟨condition', canonical'⟩, rest⟩ condition' canonical'
    simpa [Operand.joined, intercalate_cons_cons] using canonical.written (.comma behind)

end Cpu.Mnemonic.Canonical

namespace Program
variable (s : Settings) (owner : Text)

theorem mapM_arg (h : ∀ op ∈ ops, op.Canonical false) {parts : List (List Token)}
    (holds : parts.map (·.map (·.lexeme)) = ops.map (·.lexemes)) :
    ∃ args, parts.mapM (arg s owner false) = .ok args ∧ Forall₂ Arg.Denotes args ops := by
  induction ops generalizing parts with
  | nil =>
    obtain rfl := map_eq_nil_iff.1 holds
    exact ⟨[], rfl, .nil⟩
  | cons op ops ih =>
    obtain ⟨part, parts, rfl, first, rest⟩ := map_eq_cons_iff.1 holds
    rw [forall_mem_cons] at h
    obtain ⟨a, read, denotes⟩ := arg_of_canonical s owner h.1 first
    obtain ⟨args, reads, denoted⟩ := ih h.2 rest
    refine ⟨a :: args, ?_, .cons denotes denoted⟩
    rw [mapM_cons, read, reads]
    rfl

theorem args_of_canonical (h : m.Canonical ops) (holds : toks.map (·.lexeme) = Cpu.Operand.joined ops) :
    ∃ args, Program.args s owner m toks = .ok args ∧ Forall₂ Arg.Denotes args ops := by
  cases ops with
  | nil =>
    obtain rfl := map_eq_nil_iff.1 holds
    exact ⟨[], rfl, .nil⟩
  | cons op ops =>
    have parts : (Token.splitFrom 0 toks).map (·.map (·.lexeme)) = (op :: ops).map (·.lexemes) := by
      refine Token.map_splitFrom (by simp) ?_ holds
      intro ls mem part held
      obtain ⟨op', isOp, rfl⟩ := List.mem_map.1 mem
      obtain ⟨condition, canonical⟩ := h.forall_exists op' isOp
      exact canonical.closed held
    have nonempty : toks ≠ [] := by
      rintro rfl
      exact (h.first op rfl).lexemes_ne_nil (cons_eq_cons.1 parts).1.symm
    have split : Token.splitArgs toks = Token.splitFrom 0 toks := by simp [Token.splitArgs, nonempty]
    obtain ⟨part, more, isSplit, first, rest⟩ := map_eq_cons_iff.1 parts
    have length : more.length = ops.length := by simpa using congrArg List.length rest
    obtain ⟨a, read, denotes⟩ := arg_of_canonical s owner (h.first op rfl) first
    obtain ⟨args, reads, denoted⟩ := mapM_arg s owner h.others rest
    refine ⟨a :: args, ?_, .cons denotes denoted⟩
    unfold Program.args
    rw [split, isSplit]
    dsimp only
    rw [length, ← length_cons, read, reads]
    rfl

end Program

theorem Cpu.Mnemonic.mem_all (m : Mnemonic) : m ∈ all := by
  cases m with
  | implied op | alu op | rot op | bit op => cases op <;> decide
  | _ => decide

theorem Cpu.Mnemonic.name_facts (m : Mnemonic) : m.name.head?.any Lex.isWordStart ∧
    m.name.all Lex.isWordByte ∧ Role.ofWord m.name = .mnemonic m ∧ '@'.toUInt8 ∉ m.name ∧
    0x0A ∉ m.name := by
  have facts : ∀ m ∈ all, m.name.head?.any Lex.isWordStart ∧ m.name.all Lex.isWordByte ∧
      Role.ofWord m.name = .mnemonic m ∧ '@'.toUInt8 ∉ m.name ∧ 0x0A ∉ m.name := by decide +kernel
  exact facts m m.mem_all

theorem Lexeme.spread_nil (ls : List Lexeme) : spread (fun _ => ⟨[], rfl⟩) ls = ls.flatMap source := by
  induction ls with
  | nil => rfl
  | cons l ls ih => simp [spread, ih]

theorem Text.lines_single {t : Text} (nonempty : t ≠ []) (noBreak : 0x0A ∉ t) : lines t = [t] := by
  cases t with
  | nil => exact absurd rfl nonempty
  | cons b t =>
    rw [lines, dropReturns_of_not_mem (.inr noBreak), splitAtByte_of_not_mem noBreak]
    rfl

namespace Cpu.Mnemonic.Canonical
variable {m : Mnemonic} {ops : List Operand}

theorem joined_source (h : ∀ op ∈ ops, ∃ condition, op.Canonical condition) :
    (Operand.joined ops).flatMap Lexeme.source = Text.join (bytes ",") (ops.map Operand.text) := by
  have text (ops : List Operand) (h : ∀ op ∈ ops, ∃ condition, op.Canonical condition) :
      ops.map Operand.text = (ops.map Operand.lexemes).map (·.flatMap Lexeme.source) := by
    rw [map_map]
    refine map_congr_left fun op mem => ?_
    obtain ⟨condition, canonical⟩ := h op mem
    exact (Operand.lexemes_source canonical).symm
  have comma : [Lexeme.sign .comma].flatMap Lexeme.source = bytes "," := rfl
  rw [text ops h, Operand.joined, Text.join, ← comma]
  generalize ops.map Operand.lexemes = lss
  induction lss with
  | nil => rfl
  | cons ls lss ih =>
    cases lss with
    | nil => simp
    | cons next lss =>
      simp only [map_cons, intercalate_cons_cons, flatMap_append] at ih ⊢
      rw [ih]

theorem mem_joined {l : Lexeme} (mem : l ∈ Operand.joined ops) : l = .sign .comma ∨ ∃ op ∈ ops, l ∈ op.lexemes := by
  induction ops with
  | nil => cases mem
  | cons op ops ih =>
    cases ops with
    | nil => exact .inr ⟨op, mem_cons_self, by simpa [Operand.joined] using mem⟩
    | cons next ops =>
      simp only [Operand.joined, map_cons, intercalate_cons_cons, append_assoc, mem_append, mem_singleton] at mem
      rcases mem with mem | isComma | mem
      · exact .inr ⟨op, mem_cons_self, mem⟩
      · exact .inl isComma
      · rcases ih mem with isComma | ⟨op', isOp, mem⟩
        · exact .inl isComma
        · exact .inr ⟨op', mem_cons_of_mem _ isOp, mem⟩

theorem lex_line (h : m.Canonical ops) (dialect : Dialect) :
    ∃ head toks, lex dialect (m.line ops) = ⟨head :: toks, none⟩ ∧
      head.lexeme = .word m.name (.mnemonic m) ∧ toks.map (·.lexeme) = Operand.joined ops := by
  have splits : Lex.Splits dialect .operand (Operand.joined ops) := by
    cases ops with
    | nil => exact .nil _
    | cons op ops => exact (written h.forall_exists).splits
  obtain ⟨starts, goesOn, role, -⟩ := m.name_facts
  obtain ⟨head, toks, lexed, isWord, holds⟩ :=
    Lex.lex_word dialect m.name starts goesOn (by simp [role]) splits fun _ => ⟨[], rfl⟩
  rw [Lexeme.spread_nil, joined_source h.forall_exists] at lexed
  exact ⟨head, toks, lexed, role ▸ isWord, holds⟩

theorem line_single (h : m.Canonical ops) : Text.lines (m.line ops) = [m.line ops] := by
  refine Text.lines_single (append_ne_nil_of_left_ne_nil (by decide) _) fun mem => ?_
  rw [line, ← joined_source h.forall_exists] at mem
  simp only [mem_append, mem_flatMap] at mem
  rcases mem with mem | mem | mem | ⟨l, mem, isBreak⟩
  · exact absurd mem (by decide)
  · exact m.name_facts.2.2.2.2 mem
  · exact absurd mem (by decide)
  · rcases mem_joined mem with rfl | ⟨op, isOp, mem⟩
    · exact absurd isBreak (by decide)
    · obtain ⟨condition, canonical⟩ := h.forall_exists op isOp
      exact (canonical.plain l mem).noBreak isBreak

end Cpu.Mnemonic.Canonical

structure Cpu.Mnemonic.Heads (m : Mnemonic) (ops : List Operand) (head : Token) (toks : List Token) :
    Prop where
  canonical : m.Canonical ops
  isWord : head.lexeme = .word m.name (.mnemonic m)
  holds : toks.map (·.lexeme) = Operand.joined ops

namespace Cpu.Mnemonic.Heads
variable {m : Mnemonic} {ops : List Operand} {head : Token}

section
variable (h : m.Heads ops head toks)
include h

theorem plain : ∀ tok ∈ toks, tok.lexeme = .sign .comma ∨ tok.lexeme.Plain := by
  intro tok mem
  have joined : tok.lexeme ∈ Operand.joined ops := h.holds ▸ mem_map_of_mem mem
  rcases Canonical.mem_joined joined with isComma | ⟨op, isOp, mem⟩
  · exact .inl isComma
  · obtain ⟨condition, canonical⟩ := h.canonical.forall_exists op isOp
    exact .inr (canonical.plain _ mem)

theorem splitLabel : Token.splitLabel (head :: toks) = (none, head :: toks) := by
  have noName : head.isName = false := by simp [Token.isName, h.isWord]
  cases toks with
  | nil => simp [Token.splitLabel, noName]
  | cons tok toks =>
    have noColon : tok.isSign .colon = false := by
      rcases h.plain tok mem_cons_self with isComma | plain
      · simp [Token.isSign, isComma]
      · simpa [Token.isSign] using plain.noColon
    simp [Token.splitLabel, noName, noColon]

theorem bodyIs (d : Directive) : Token.bodyIs d (head :: toks) = false := by
  simp [Token.bodyIs, Token.body, h.splitLabel, Token.isDirective, h.isWord]

theorem compassWord? : Token.compassWord? (head :: toks) = none := by
  unfold Token.compassWord?
  rw [find?_eq_none]
  intro word mem
  obtain ⟨tok, mem, isWord⟩ := List.mem_filterMap.1 mem
  rw [List.contains_iff_mem]
  unfold Token.word? at isWord
  split at isWord
  next text role lexeme =>
    cases isWord
    rcases mem_cons.1 mem with rfl | mem
    · rw [h.isWord] at lexeme
      cases lexeme
      exact m.name_facts.2.2.2.1
    · rcases h.plain tok mem with isComma | plain
      · simp [isComma] at lexeme
      · exact plain.noAt _ _ lexeme
  · cases isWord

end

end Cpu.Mnemonic.Heads

namespace Program

theorem line_of_instruction (s : Settings) (st : Building) (ln : Line) {head : Token} (h : m.Heads ops head toks)
    (tokens : ln.tokens = head :: toks) (noFault : ln.fault = none) (noScript : ln.script = none) :
    ∃ args, Forall₂ Arg.Denotes args ops ∧
      line s st ln = ({ st with seq := st.seq + 1 } : Building).act
        { seq := st.seq + 1, pos := ln.pos, text := ln.text } (.instruction m args) := by
  obtain ⟨args, read, denotes⟩ := args_of_canonical s st.owner h.canonical h.holds
  refine ⟨args, denotes, ?_⟩
  have single : ((m = .push || m = .pop) && args.length > 1) = false := by
    have length := denotes.length_eq
    have single := h.canonical.single
    simp only [Bool.and_eq_false_iff, Bool.or_eq_false_iff, decide_eq_false_iff_not]
    by_cases stack : m = .push ∨ m = .pop
    · have := single stack
      omega
    · exact .inl (not_or.1 stack)
  simp [line, noFault, tokens, h.splitLabel, labelled, noScript, h.compassWord?, body, h.isWord,
    instruction, read, single]

end Program

namespace Assembly

/-- **The line of an instruction is assembled as that instruction.**  All of the program is one statement
    without a label, whose operands have the given ones as values in every environment; wherever it is
    executed, it emits what the encoder gives for them there, and reports what the encoder reports. -/
theorem assembleText_instruction (s : Settings) (cancelled : Nat → Bool) (file : Text)
    (m : Cpu.Mnemonic) (ops : List Cpu.Operand) (h : m.Canonical ops) :
    ∃ args, assembleText s cancelled file (m.line ops) =
        passesOver s cancelled []
          [.act { seq := 1, pos := { file, line := 1 }, text := m.line ops } (.instruction m args)] ∧
      (∀ env, args.map (·.resolve (·.value env)) = ops) ∧
      ∀ p w node, Walk.act w p node (.instruction m args) =
        match Cpu.encode m w.pc ops with
        | .error cause => w.fail p node (.operands m.name ops cause.fault)
        | .ok encoded => (w.misfitWith p node encoded.misfit).emit encoded.code := by
  obtain ⟨head, toks, lexed, isWord, holds⟩ := h.lex_line s.dialect
  have heads : m.Heads ops head toks := ⟨h, isWord, holds⟩
  let ln : Line := { pos := { file, line := 1 }, text := m.line ops, tokens := head :: toks }
  have loaded : Source.load s Source.includeLimit file (m.line ops) {} = { lines := #[ln] } := by
    simp [Source.includeLimit, Source.load, h.line_single, Source.loadRows, lexed, heads.bodyIs,
      Loading.push, ln]
  have expanded : Macro.expand s Macro.depthLimit [ln] {} = { lines := #[ln] } := by
    simp [Macro.depthLimit, Macro.expand, Macro.expandLines, ln, heads.splitLabel, Token.isDirective,
      isWord, Token.word?, Expansion.push]
  obtain ⟨args, denotes, built⟩ := Program.line_of_instruction s {} ln heads rfl rfl rfl
  refine ⟨args, ?_, fun env => ?_, fun p w node => ?_⟩
  · simp [assembleText, loaded, expanded, Program.build, Program.lines, built, Building.act, Building.add,
      Program.finish, Program.closeAll, Building.program, passesOver, ln]
  · exact Arg.map_resolve denotes env
  · cases encoded : Cpu.encode m w.pc ops <;>
      simp only [Walk.act, Walk.emitInstruction, w.operands_eq p node denotes, encoded]

/-- The condition `c`, and the lowest value, whose opposite has no positive form. -/
theorem assembleText_instruction_lowest :
    Cpu.Mnemonic.Canonical .call [.cond .c, .imm Int64.minValue] ∧
      ∃ args, assembleText .bare neverCancelled (bytes "a.asm") (bytes " call c,-9223372036854775808") =
        passesOver .bare neverCancelled [] [.act
          { seq := 1, pos := { file := bytes "a.asm", line := 1 }
            text := bytes " call c,-9223372036854775808" } (.instruction .call args)] ∧
      ∀ env, args.map (·.resolve (·.value env)) = [.cond .c, .imm Int64.minValue] := by
  have canonical : Cpu.Mnemonic.Canonical .call [.cond .c, .imm Int64.minValue] := by
    refine ⟨?_, ?_, by decide⟩
    · rintro op ⟨⟩
      exact .cond (by decide) (by decide)
    · simpa using Cpu.Operand.Canonical.imm Int64.minValue
  have text : Cpu.Mnemonic.line .call [.cond .c, .imm Int64.minValue] =
      bytes " call c,-9223372036854775808" := by decide +kernel
  obtain ⟨args, assembled, values, -⟩ :=
    assembleText_instruction .bare neverCancelled (bytes "a.asm") .call _ canonical
  rw [text] at assembled
  exact ⟨canonical, args, assembled, values⟩

end Assembly

end Z80Asm
