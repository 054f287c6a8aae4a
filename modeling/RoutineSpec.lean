import RoutineSpec.Analysis
import RoutineSpec.Tree.Compact
import RoutineSpec.Tree.Outline
import RoutineSpec.Proofs.Phrase
import RoutineSpec.Proofs.Advance
import RoutineSpec.Proofs.ExpressionSound
import RoutineSpec.Proofs.ProgramSound
import RoutineSpec.Proofs.ExpressionComplete
import RoutineSpec.Proofs.ProgramComplete
import RoutineSpec.Proofs.Acceptance
import RoutineSpec.Proofs.Agreement
import RoutineSpec.Proofs.Writing
import RoutineSpec.Proofs.WrittenPhrase
import RoutineSpec.Proofs.Spelling
import RoutineSpec.Proofs.RoundTrip
import RoutineSpec.Proofs.Budget
import RoutineSpec.Proofs.ValidPrefix
import RoutineSpec.Proofs.ReportOrder
import RoutineSpec.Proofs.Resumption
import RoutineSpec.Proofs.Separation
import RoutineSpec.Proofs.Halves
import RoutineSpec.Proofs.Alike
import RoutineSpec.Proofs.Lockstep
import RoutineSpec.Proofs.Layout
import RoutineSpec.Proofs.LongestMatch
import RoutineSpec.Proofs.Separators
import RoutineSpec.Proofs.Position
import RoutineSpec.Proofs.Edges
import RoutineSpec.Proofs.Confinement
import RoutineSpec.Proofs.Retracing
import RoutineSpec.Proofs.SourceOrder
import RoutineSpec.Proofs.EndOfInput
import RoutineSpec.Proofs.Policies
import RoutineSpec.Proofs.OutlineDecoding
import RoutineSpec.Proofs.CompactDecoding
import RoutineSpec.Proofs.MalformedAssignment
import RoutineSpec.Proofs.NearestElse
import RoutineSpec.Proofs.Grouping
import RoutineSpec.Proofs.ArgumentLists
import RoutineSpec.Proofs.BrokenHeaders
import RoutineSpec.Proofs.MalformedCompound
import RoutineSpec.Proofs.Inspection
import RoutineSpec.Proofs.Boundaries
import RoutineSpec.Proofs.Blanking
import RoutineSpec.Proofs.LineBreaks
import RoutineSpec.Proofs.LimitedRoom
import RoutineSpec.Proofs.Seams
import RoutineSpec.Proofs.Numbers
import RoutineSpec.Proofs.SkippedStatements
