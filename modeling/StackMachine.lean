import StackMachine.CodeUnit.Listing
import StackMachine.Compile.Event
import StackMachine.Node.Build
import StackMachine.Node.Equality
import StackMachine.Node.Spine
import StackMachine.Numeral.Reader
import StackMachine.Pipeline
import StackMachine.StackCheck
import StackMachine.Wire.Unit
import StackMachine.Proofs.Code.Decoding
import StackMachine.Proofs.Code.Passes
import StackMachine.Proofs.Compile.Evaluation
import StackMachine.Proofs.StackCheck.Soundness
import StackMachine.Proofs.Machine.FaultSite
import StackMachine.Proofs.StackCheck.Verdicts
import StackMachine.Proofs.Compile.Expressions
import StackMachine.Proofs.Compile.FirstDefect
import StackMachine.Proofs.Compile.Recursive
import StackMachine.Proofs.Code.Operands
import StackMachine.Proofs.Wire.Forms
import StackMachine.Proofs.Wire.Grammar
import StackMachine.Proofs.Wire.Canonical
import StackMachine.Proofs.Wire.RoundTrip
import StackMachine.Proofs.Machine.SlotInvariant
import StackMachine.Proofs.StackCheck.Supply
import StackMachine.Proofs.Machine.Composition
import StackMachine.Proofs.Compile.PoolReferences
import StackMachine.Proofs.Compile.Relocation
import StackMachine.Proofs.Listing.Lines
import StackMachine.Proofs.Listing.Emission
import StackMachine.Proofs.Listing.Execution
import StackMachine.Proofs.Machine.Kinds
import StackMachine.Proofs.Binary64.Similarity
import StackMachine.Proofs.Machine.Similarity
import StackMachine.Proofs.Compile.Events
import StackMachine.Proofs.Machine.Trace
import StackMachine.Proofs.Machine.Aftermath
import StackMachine.Proofs.Machine.Capacity
import StackMachine.Proofs.Machine.KindFlow
import StackMachine.Proofs.Compile.KindInference
import StackMachine.Proofs.Compile.Nesting
import StackMachine.Proofs.Compile.Chains
import StackMachine.Proofs.Wire.Truncation
import StackMachine.Proofs.Binary64.Rounding
import StackMachine.Proofs.Decimal.ReadBack
import StackMachine.Proofs.Numeral.RoundTrip
import StackMachine.Proofs.Binary64.Nearest
import StackMachine.Proofs.Decimal.Value
import StackMachine.Proofs.Decimal.Coarsest
import StackMachine.Proofs.Decimal.FewestDigits
import StackMachine.Proofs.Numeral.Grammar
import StackMachine.Proofs.Numeral.SignificantDigits
import StackMachine.Proofs.Numeral.Layout
import StackMachine.Proofs.Node.Layers
import StackMachine.Proofs.Code.Words
