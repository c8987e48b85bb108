import PolishArithmetic.Bench
import PolishArithmetic.Calculate
import PolishArithmetic.Log
import PolishArithmetic.Main
import PolishArithmetic.Proofs.Blame
import PolishArithmetic.Proofs.Canonical
import PolishArithmetic.Proofs.Cutting
import PolishArithmetic.Proofs.DepthLimit
import PolishArithmetic.Proofs.Descent
import PolishArithmetic.Proofs.Embedding
import PolishArithmetic.Proofs.Grammar
import PolishArithmetic.Proofs.InputLines
import PolishArithmetic.Proofs.Number.Bits
import PolishArithmetic.Proofs.Number.Nearest
import PolishArithmetic.Proofs.Number.ReadBack
import PolishArithmetic.Proofs.Number.Spelling
import PolishArithmetic.Proofs.Number.Value
import PolishArithmetic.Proofs.OperandCount
import PolishArithmetic.Proofs.Scan
import PolishArithmetic.Proofs.Sightings
import PolishArithmetic.Proofs.Spacing
import PolishArithmetic.Proofs.Spans
import PolishArithmetic.Proofs.StackEvaluation
import PolishArithmetic.Proofs.Substitution
import PolishArithmetic.Proofs.TermLanguages
import PolishArithmetic.Proofs.TermPlaces
import PolishArithmetic.Proofs.Terms
import PolishArithmetic.Proofs.VariableCheck
import PolishArithmetic.Proofs.ViablePrefix
import PolishArithmetic.Proofs.Locality
import PolishArithmetic.Proofs.UniqueReading
import PolishArithmetic.Proofs.Colour
import PolishArithmetic.Proofs.Underline
import PolishArithmetic.Proofs.BenchRuns
import PolishArithmetic.Proofs.RunOutcomes
