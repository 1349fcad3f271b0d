import SymbolicOmega.Automaton.Inspect
import SymbolicOmega.Automaton.RuleTable
import SymbolicOmega.Hoa.Output
import SymbolicOmega.Proofs.Acceptance.Denotation
import SymbolicOmega.Proofs.Acceptance.Mixing
import SymbolicOmega.Proofs.Automaton.Atomicity
import SymbolicOmega.Proofs.Automaton.Memoized
import SymbolicOmega.Proofs.Automaton.Partition
import SymbolicOmega.Proofs.BitSet.Counter
import SymbolicOmega.Proofs.BitSet.Packing
import SymbolicOmega.Proofs.Diagram.Choice
import SymbolicOmega.Proofs.Diagram.Cubes
import SymbolicOmega.Proofs.Diagram.Dropping
import SymbolicOmega.Proofs.Diagram.Pairing
import SymbolicOmega.Proofs.Diagram.Refusals
import SymbolicOmega.Proofs.Diagram.Termination
import SymbolicOmega.Proofs.Diagram.Transparency
import SymbolicOmega.Proofs.Hoa.Declaration
import SymbolicOmega.Proofs.Hoa.Order
import SymbolicOmega.Proofs.Letters.Enumeration
import SymbolicOmega.Proofs.Program.Positions
import SymbolicOmega.Proofs.Program.Removals
import SymbolicOmega.Proofs.Diagram.LastCell
