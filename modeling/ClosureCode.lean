import ClosureCode.Builtin.Call
import ClosureCode.Compiler
import ClosureCode.Heap
import ClosureCode.Instruction.RoundTrip
import ClosureCode.Listing
import ClosureCode.Object.Equality
import ClosureCode.Program.Equality
import ClosureCode.Proofs.Blame
import ClosureCode.Proofs.Bookkeeping
import ClosureCode.Proofs.Boundaries
import ClosureCode.Proofs.Captures
import ClosureCode.Proofs.Disassembly
import ClosureCode.Proofs.EqualityLaws
import ClosureCode.Proofs.Fingerprints
import ClosureCode.Proofs.ForwardJumps
import ClosureCode.Proofs.FrameHistory
import ClosureCode.Proofs.HashEntries
import ClosureCode.Proofs.Initialization
import ClosureCode.Proofs.ListInterface
import ClosureCode.Proofs.Lookup
import ClosureCode.Proofs.Operands
import ClosureCode.Proofs.Overwrites
import ClosureCode.Proofs.References
import ClosureCode.Proofs.Relocation
import ClosureCode.Proofs.Renaming
import ClosureCode.Proofs.Rewriting
import ClosureCode.Proofs.Runs
import ClosureCode.Proofs.Session
import ClosureCode.Proofs.Slots
import ClosureCode.Proofs.StackDiscipline
import ClosureCode.Proofs.Surroundings
import ClosureCode.Proofs.TableHistory
import ClosureCode.Proofs.TopLevelLets
import ClosureCode.Proofs.UniqueDecoding
import ClosureCode.Proofs.UniqueReading
import ClosureCode.Proofs.Visits
