import R3000.CommandLine.Folder
import R3000.Main
import R3000.Proofs.Constants.Descent
import R3000.Proofs.Cpu.Dispatch
import R3000.Proofs.Device.Range
import R3000.Proofs.Flow.Speculation
import R3000.Proofs.Flow.Slots
import R3000.Proofs.Instr.Assembly
import R3000.Proofs.Machine.Breakpoints
import R3000.Proofs.Machine.Commands
import R3000.Proofs.Machine.Isolation
import R3000.Proofs.Machine.Lessons
import R3000.Proofs.Machine.Time
import R3000.Proofs.Memory.Bus
import R3000.Proofs.Memory.Unaligned
import R3000.Proofs.Refinement.Exceptions
import R3000.Proofs.Session.Promotions
import R3000.Proofs.Session.SoftCache
import R3000.Proofs.Session.Splitting
import R3000.Proofs.Unit.Transparency
import R3000.Proofs.Code.Replay
import R3000.Proofs.Code.Selection
