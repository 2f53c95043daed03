import CobolTree.Analysis
import CobolTree.Conversion.Tokens
import CobolTree.Proofs.Agreement.Pictures
import CobolTree.Proofs.Agreement.Terminals
import CobolTree.Proofs.CaseInsensitive
import CobolTree.Proofs.CleanParse
import CobolTree.Proofs.ClosingTrailers
import CobolTree.Proofs.Conversion.Blanking
import CobolTree.Proofs.Conversion.Bounds
import CobolTree.Proofs.Conversion.Failures
import CobolTree.Proofs.Conversion.Resolution
import CobolTree.Proofs.Conversion.Tokens
import CobolTree.Proofs.Conversion.Trailers
import CobolTree.Proofs.Conversion.View
import CobolTree.Proofs.FreeTextEnds
import CobolTree.Proofs.Grammar.Keywords
import CobolTree.Proofs.Grammar.Padding
import CobolTree.Proofs.Pointing
import CobolTree.Proofs.ProcedureHeadings
import CobolTree.Proofs.Production.Landmarks
import CobolTree.Proofs.Provenance.Characters
import CobolTree.Proofs.Provenance.Order
import CobolTree.Proofs.Provenance.Widths
import CobolTree.Proofs.Reporting
import CobolTree.Proofs.RuleTree.Leaves
import CobolTree.Proofs.SectionOwnership
import CobolTree.Proofs.SentenceEnds
import CobolTree.Proofs.Siblings
import CobolTree.Proofs.Source.Layout
import CobolTree.Proofs.Source.Positions
import CobolTree.Proofs.StatementVerbs
import CobolTree.Proofs.Termination
import CobolTree.RuleTree.Outline
import CobolTree.View.Procedure
import CobolTree.View.ProgramUnit
import CobolTree.View.Role
