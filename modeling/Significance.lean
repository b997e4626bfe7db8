import Significance.Main
import Significance.PointPlot
import Significance.Proofs.Acceptance
import Significance.Proofs.Balance
import Significance.Proofs.BetweenWithin
import Significance.Proofs.CellBounds
import Significance.Proofs.CellCheck
import Significance.Proofs.CompleteDesign
import Significance.Proofs.Decision
import Significance.Proofs.Drawing
import Significance.Proofs.Freedom
import Significance.Proofs.HeaderFields
import Significance.Proofs.JsonLines
import Significance.Proofs.MatrixFit
import Significance.Proofs.Nesting
import Significance.Proofs.OutputDirectory
import Significance.Proofs.Partition
import Significance.Proofs.Presentation
import Significance.Proofs.Renormalization
import Significance.Proofs.RowNames
import Significance.Proofs.StudentizedRange
import Significance.Proofs.TypeTwo
import Significance.Proofs.Scaling
import Significance.Proofs.Levels
import Significance.Proofs.TermColumns
import Significance.Proofs.CellLabels
