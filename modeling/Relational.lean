import Relational.Config.File
import Relational.Proofs.Compile.Columns
import Relational.Proofs.Compile.DistinctNames
import Relational.Proofs.Compile.History
import Relational.Proofs.Compile.Interleaving
import Relational.Proofs.Compile.Isolation
import Relational.Proofs.Compile.Jumps
import Relational.Proofs.Compile.Literal
import Relational.Proofs.Compile.Renaming
import Relational.Proofs.Compile.Restoration
import Relational.Proofs.Compile.Storage
import Relational.Proofs.Compile.UniqueColumns
import Relational.Proofs.Compile.Writes
import Relational.Proofs.Declarations
import Relational.Proofs.Optimize.Descent
import Relational.Proofs.Optimize.KeyLookup
import Relational.Proofs.Optimize.OperatorFlaws
import Relational.Proofs.Optimize.Placement
import Relational.Proofs.Optimize.Skipping
import Relational.Proofs.Plan.Rewriting
import Relational.Proofs.Resolution.Overlay
import Relational.Proofs.Resolution.Removal
import Relational.Proofs.Resolution.Selection
import Relational.Proofs.Stack.Lookup
import Relational.Proofs.Stack.Nested
import Relational.Proofs.Text.Outline
