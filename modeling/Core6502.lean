import Core6502.Emulator
import Core6502.Listing
import Core6502.Recorder
import Core6502.Proofs.Bus.Locality
import Core6502.Proofs.Bus.Traffic
import Core6502.Proofs.Clock.Checked
import Core6502.Proofs.Clock.Completions
import Core6502.Proofs.Clock.Cost
import Core6502.Proofs.Clock.Ledger
import Core6502.Proofs.Clock.Refinement
import Core6502.Proofs.History.Background
import Core6502.Proofs.History.Flags
import Core6502.Proofs.History.Latches
import Core6502.Proofs.History.Log
import Core6502.Proofs.History.Masking
import Core6502.Proofs.History.Restart
import Core6502.Proofs.Listing.Reading
import Core6502.Proofs.Listing.Run
import Core6502.Proofs.Listing.Tiling
import Core6502.Proofs.Memory.History
import Core6502.Proofs.Multibyte.Comparison
import Core6502.Proofs.Multibyte.Shifting
import Core6502.Proofs.Program.Multiply
import Core6502.Proofs.Reference.Addressing
import Core6502.Proofs.Reference.Conformance
import Core6502.Proofs.Stack.Interrupt
import Core6502.Proofs.Stack.Nesting
