import TurtleAlloc.Main
import TurtleAlloc.Proofs.Allocation.Sharing
import TurtleAlloc.Proofs.Liveness
import TurtleAlloc.Proofs.Spill.Groups
import TurtleAlloc.Proofs.Frame
import TurtleAlloc.Proofs.Machine
import TurtleAlloc.Proofs.Spill.Simulation
import TurtleAlloc.Proofs.Compile.Placement
import TurtleAlloc.Proofs.Compile.Rounds
import TurtleAlloc.Proofs.Compile.Simulation
import TurtleAlloc.Proofs.Compile.Outcome
import TurtleAlloc.Proofs.ControlFlow
import TurtleAlloc.Proofs.Compile.Names
import TurtleAlloc.Proofs.Allocation.Relabel
import TurtleAlloc.Proofs.Compile.Pinned
import TurtleAlloc.Proofs.Spill.Relabel
import TurtleAlloc.Proofs.Compile.Relabel
import TurtleAlloc.Proofs.Allocation.Optimality
import TurtleAlloc.Proofs.Allocation.Slots
import TurtleAlloc.Proofs.Compile.FrameLayout
import TurtleAlloc.Proofs.Compile.Skeleton
import TurtleAlloc.Proofs.Format
import TurtleAlloc.Proofs.Allocation.PoolSize
import TurtleAlloc.Proofs.Allocation.Pressure
import TurtleAlloc.Proofs.Allocation.Order
import TurtleAlloc.Proofs.Block
import TurtleAlloc.Proofs.Compile.Blocks
import TurtleAlloc.Proofs.Occurrences
import TurtleAlloc.Proofs.Spill.Bytes
import TurtleAlloc.Proofs.Compile.Labels
import TurtleAlloc.Proofs.SlotAccess
import TurtleAlloc.Proofs.Compile.Renaming
