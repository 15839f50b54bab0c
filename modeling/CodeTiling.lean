import CodeTiling.Code.Internal
import CodeTiling.Code.Pool
import CodeTiling.Main
import CodeTiling.Proofs.AlphaEquivalence
import CodeTiling.Proofs.Announced
import CodeTiling.Proofs.BitRuns
import CodeTiling.Proofs.Interning
import CodeTiling.Proofs.LeastFree
import CodeTiling.Proofs.Liveness
import CodeTiling.Proofs.Numbering
import CodeTiling.Proofs.Output
import CodeTiling.Proofs.Priority
import CodeTiling.Proofs.Respelling
import CodeTiling.Proofs.Unification
import CodeTiling.Proofs.Worklist
import CodeTiling.Wire.Encoding
import CodeTiling.Proofs.InstructionLanguage
import CodeTiling.Proofs.AddressFields
import CodeTiling.Proofs.AddressGrammar
import CodeTiling.Proofs.Verbatim
import CodeTiling.Proofs.WrittenInstructions
import CodeTiling.Proofs.WrittenFunctions
import CodeTiling.Proofs.WordScans
import CodeTiling.Proofs.RegisterUses
import CodeTiling.Proofs.FirstAppearance
import CodeTiling.Proofs.Resolution
