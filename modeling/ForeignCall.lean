import ForeignCall.Main
import ForeignCall.Proofs.Native.Agreement
import ForeignCall.Proofs.Native.Binding
import ForeignCall.Proofs.Signature.RoundTrip
import ForeignCall.Proofs.Signature.Lines
import ForeignCall.Proofs.Signature.Sharing
import ForeignCall.Proofs.Signature.Earliest
import ForeignCall.Proofs.Signature.Layout
import ForeignCall.Proofs.Table.WellFormed
import ForeignCall.Proofs.Table.SlotNames
import ForeignCall.Proofs.Table.Buildable
import ForeignCall.Proofs.Policy.Renumbering
import ForeignCall.Proofs.Policy.Reordering
import ForeignCall.Proofs.Mapping.Separation
import ForeignCall.Proofs.BitSet.History
import ForeignCall.Proofs.BitSet.Iteration
import ForeignCall.Proofs.BitSet.Equality
import ForeignCall.Proofs.Machine
import ForeignCall.Proofs.Command.Run
import ForeignCall.Proofs.Command.Verbose
import ForeignCall.Proofs.X86.SaveArea
import ForeignCall.Proofs.X86.CallPolicy
import ForeignCall.Proofs.Command.Arguments
import ForeignCall.Proofs.Policy.Classification
import ForeignCall.Proofs.Signature.Gaps
import ForeignCall.Proofs.Signature.Termination
import ForeignCall.Proofs.Text.Order
