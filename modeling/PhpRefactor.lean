import PhpRefactor.Engine.Limit
import PhpRefactor.Files.Crew
import PhpRefactor.Files.Tree
import PhpRefactor.Main
import PhpRefactor.Syntax.Build
import PhpRefactor.Syntax.Equality
import PhpRefactor.Types.Constructor
import PhpRefactor.Proofs.Document.Reload
import PhpRefactor.Proofs.Document.Respelling
import PhpRefactor.Proofs.Engine.Freshness
import PhpRefactor.Proofs.Engine.Accounting
import PhpRefactor.Proofs.Engine.Commuting
import PhpRefactor.Proofs.Engine.Coverage
import PhpRefactor.Proofs.Engine.Stability
import PhpRefactor.Proofs.Rule.Eligible
import PhpRefactor.Proofs.Engine.Supply
import PhpRefactor.Proofs.Engine.Ledger
import PhpRefactor.Proofs.Engine.Lengthening
import PhpRefactor.Proofs.Engine.Order
import PhpRefactor.Proofs.Engine.Renumbering
import PhpRefactor.Proofs.Engine.Unwrapping
import PhpRefactor.Proofs.Engine.Integrity
import PhpRefactor.Proofs.Engine.Statements
import PhpRefactor.Proofs.Files.Again
import PhpRefactor.Proofs.Files.AnyOrder
import PhpRefactor.Proofs.Files.Outputs
import PhpRefactor.Proofs.Files.Rerun
import PhpRefactor.Proofs.Files.Skipped
import PhpRefactor.Proofs.Index.Handle
import PhpRefactor.Proofs.Index.Places
import PhpRefactor.Proofs.Index.Stale
import PhpRefactor.Proofs.Index.Structure
import PhpRefactor.Proofs.Rule.Condition
import PhpRefactor.Proofs.Syntax.Expression
import PhpRefactor.Proofs.Syntax.Spelling
import PhpRefactor.Proofs.Types.Certainty
