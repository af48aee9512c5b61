import Sm83.Arithmetic
import Sm83.Command.Address
import Sm83.Command.Job
import Sm83.Command.Outcome
import Sm83.Command.Patch
import Sm83.Command.ReadFailure
import Sm83.Command.Scan
import Sm83.Fault
import Sm83.Flags
import Sm83.Instruction
import Sm83.Instruction.Assembly
import Sm83.Instruction.Decode
import Sm83.Journal
import Sm83.Listing
import Sm83.Machine
import Sm83.Machine.Execute
import Sm83.Machine.Step
import Sm83.Main
import Sm83.Memory
import Sm83.Memory.Bank
import Sm83.Memory.Code
import Sm83.Operand
import Sm83.Registers
import Sm83.Session
import Sm83.Text.Blank
import Sm83.Text.Hex
import Sm83.Text.Numeral
import Sm83.Word
import Sm83.Proofs.Execution
import Sm83.Proofs.Failure
import Sm83.Proofs.Run
import Sm83.Proofs.HiddenFlags
import Sm83.Proofs.Listing
import Sm83.Proofs.Assembly
import Sm83.Proofs.StraightLine
import Sm83.Proofs.Footprint
import Sm83.Proofs.Writes
import Sm83.Proofs.Levels
import Sm83.Proofs.RunJob
import Sm83.Proofs.Address
import Sm83.Proofs.Patch
import Sm83.Proofs.Latch
import Sm83.Proofs.Stack
import Sm83.Proofs.LongSum
import Sm83.Proofs.LongShift
import Sm83.Proofs.Stores
import Sm83.Proofs.Frame
import Sm83.Proofs.Jump
import Sm83.Proofs.Subroutine
import Sm83.Proofs.PushPop
import Sm83.Proofs.Accumulation
import Sm83.Proofs.WordSum
import Sm83.Proofs.SingleBits
import Sm83.Proofs.Counting
import Sm83.Proofs.Checked
import Sm83.Proofs.CheckedCode
import Sm83.Proofs.CheckedStep
import Sm83.Proofs.CheckedWalk
