import Shroud.Report.Compile
import Shroud.Report.Copies
import Shroud.Report.Program
import Shroud.Report.Steps
import Shroud.Report.Types
import Shroud.Syntax.Attribute
import Shroud.Decimal.Double
import Shroud.Decimal.Shortest
import Shroud.Text.Printable
import Shroud.Text.Word
import Shroud.Proofs.ExactValues
import Shroud.Proofs.Exposure
import Shroud.Proofs.Acts
import Shroud.Proofs.Coherence
import Shroud.Proofs.Dominance
import Shroud.Proofs.Loops
import Shroud.Proofs.Aliasing
import Shroud.Proofs.Sections
import Shroud.Proofs.Growth
import Shroud.Proofs.Arrangement
import Shroud.Proofs.Assignments
import Shroud.Proofs.Construction
import Shroud.Proofs.Conversions
import Shroud.Proofs.Declared
import Shroud.Proofs.Lawful
import Shroud.Proofs.Interference
import Shroud.Proofs.CircuitNames
import Shroud.Proofs.KeySupply
import Shroud.Proofs.SingleAssignment
import Shroud.Proofs.Loading
import Shroud.Proofs.Clashes
import Shroud.Proofs.Guards
import Shroud.Proofs.Simultaneous
import Shroud.Proofs.Joining
import Shroud.Proofs.Origins
import Shroud.Proofs.Ciphertexts
import Shroud.Proofs.Refusals
import Shroud.Proofs.Unmixed
import Shroud.Proofs.Consistency
import Shroud.Proofs.NumberedClasses
import Shroud.Proofs.Recursion
import Shroud.Proofs.Completeness
import Shroud.Proofs.Capability
import Shroud.Proofs.Folding
import Shroud.Proofs.Representation
import Shroud.Proofs.CircuitMarks
import Shroud.Proofs.Literals
import Shroud.Proofs.Settings
import Shroud.Proofs.SpreadHoms
import Shroud.Proofs.Mentions
import Shroud.Proofs.Parallel
import Shroud.Proofs.Callees
import Shroud.Proofs.Inlining
