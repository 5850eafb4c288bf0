import Z80Asm.Main
import Z80Asm.Proofs.UniqueDecoding
import Z80Asm.Proofs.FileNames
import Z80Asm.Proofs.StringLiterals
import Z80Asm.Proofs.StackSources
import Z80Asm.Proofs.ListingText
import Z80Asm.Proofs.LexicalFaults
import Z80Asm.Proofs.DialectSources
import Z80Asm.Proofs.UnrolledSources
import Z80Asm.Proofs.AddedRows
import Z80Asm.Proofs.Misfits
import Z80Asm.Proofs.WrittenFiles
import Z80Asm.Proofs.TableChanges
import Z80Asm.Proofs.LedgerCalls
import Z80Asm.Proofs.Assignments
import Z80Asm.Proofs.FileParts
import Z80Asm.Proofs.Predefined
import Z80Asm.Proofs.Evaluation
import Z80Asm.Proofs.ExpansionSteps
import Z80Asm.Proofs.MacroHeads
