import ProgramHash.Main
import ProgramHash.Proofs.Compilation
import ProgramHash.Proofs.Generation.Hazards
import ProgramHash.Proofs.Generation.Packing
import ProgramHash.Proofs.Generation.Rewriting
import ProgramHash.Proofs.Generation.Shape
import ProgramHash.Proofs.Generation.Stalls
import ProgramHash.Proofs.Generation.Succession
import ProgramHash.Proofs.Hashing
import ProgramHash.Proofs.Interpretation
import ProgramHash.Proofs.Scalar.Agreement
import ProgramHash.Proofs.Vector.Agreement
import ProgramHash.Proofs.Generation.Steps
import ProgramHash.Proofs.Machine.Disassembly
import ProgramHash.Proofs.Stream
import ProgramHash.Proofs.Machine.Image
import ProgramHash.Proofs.Schedule.Timetable
import ProgramHash.Proofs.Vector.ProductCode
import ProgramHash.Proofs.Digest
import ProgramHash.Proofs.Rounds
import ProgramHash.Proofs.LaneFile
import ProgramHash.Proofs.Listing
import ProgramHash.Proofs.Generation.Availability
