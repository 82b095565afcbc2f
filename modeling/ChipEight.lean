import ChipEight.Cancellation
import ChipEight.Frontend.Script
import ChipEight.Instruction.Encode
import ChipEight.Keypad.Layout
import ChipEight.Main
import ChipEight.Proofs.Bounds
import ChipEight.Proofs.Faults
import ChipEight.Proofs.Calls
import ChipEight.Proofs.Rewind
import ChipEight.Proofs.Batches
import ChipEight.Proofs.Turns
import ChipEight.Proofs.Lives
import ChipEight.Proofs.Shown
import ChipEight.Proofs.Tones
import ChipEight.Proofs.Accounting
import ChipEight.Proofs.RealTime
import ChipEight.Proofs.Timeless
import ChipEight.Proofs.Redo
import ChipEight.Proofs.Headless
import ChipEight.Proofs.Rates
import ChipEight.Proofs.FastForward
import ChipEight.Proofs.Pixels
import ChipEight.Proofs.Strict
import ChipEight.Proofs.Progress
import ChipEight.Proofs.Footprint
import ChipEight.Proofs.Randomness
import ChipEight.Proofs.Superposition
import ChipEight.Proofs.KeyReads
import ChipEight.Proofs.Timers
import ChipEight.Proofs.Listener
import ChipEight.Proofs.Shutdown
import ChipEight.Proofs.Sprites
import ChipEight.Proofs.Redraws
import ChipEight.Proofs.Counter
import ChipEight.Proofs.Arithmetic
import ChipEight.Proofs.IdleTime
import ChipEight.Proofs.Drift
import ChipEight.Proofs.Transfers
import ChipEight.Proofs.RoundTrips
import ChipEight.Proofs.LastPicture
import ChipEight.Proofs.Transcript
import ChipEight.Proofs.Disassembly
import ChipEight.Proofs.Accessors
