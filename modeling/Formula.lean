import Formula.Record
import Formula.Session
import Formula.Proofs.CharacterClasses
import Formula.Proofs.OperatorSpelling
import Formula.Proofs.TokenPlaces
import Formula.Proofs.Scanning
import Formula.Proofs.Tokenizing
import Formula.Proofs.NumberReading
import Formula.Proofs.Nesting
import Formula.Proofs.NestingRuns
import Formula.Proofs.ExpressionTokens
import Formula.Proofs.CellsKept
import Formula.Proofs.Precedence
import Formula.Proofs.Reading
import Formula.Proofs.ExpressionReading
import Formula.Proofs.OperandCounts
import Formula.Proofs.Tallies
import Formula.Proofs.DanglingOperators
import Formula.Proofs.Items
import Formula.Proofs.OpenGroups
import Formula.Proofs.EntryReading
import Formula.Proofs.PlacedOperators
import Formula.Proofs.Walks
import Formula.Proofs.Pieces
import Formula.Proofs.NothingLost
import Formula.Proofs.LongerTexts
import Formula.Proofs.GroupRuns
import Formula.Proofs.AdjacentValues
import Formula.Proofs.ParallelRuns
import Formula.Proofs.SoundVariables
import Formula.Proofs.AlikeEvaluation
import Formula.Proofs.EntriesInTurn
import Formula.Proofs.EntriesRead
import Formula.Proofs.Sequences
import Formula.Proofs.SoundSessions
import Formula.Proofs.ParserReuse
import Formula.Proofs.ParenthesisDepth
import Formula.Proofs.LeftoverValues
import Formula.Proofs.VariablesGained
import Formula.Proofs.DoubleClasses
import Formula.Proofs.DoubleDifference
import Formula.Proofs.Domains
import Formula.Proofs.PlainFunctions
import Formula.Proofs.CallsInTrees
import Formula.Proofs.StatefulWork
import Formula.Proofs.GuardedEvaluation
import Formula.Proofs.FaultlessEvaluation
import Formula.Proofs.MappedCells
import Formula.Proofs.RelatedEvaluation
import Formula.Proofs.MappedRuns
import Formula.Proofs.ParsedOnce
import Formula.Proofs.VariableNames
import Formula.Proofs.RecordedEvaluation
import Formula.Proofs.CallPlaces
import Formula.Proofs.IsolatedEnvironments
import Formula.Proofs.WholeDoubles
import Formula.Proofs.CallHistories
import Formula.Proofs.CountedCalls
import Formula.Proofs.CellsWritten
import Formula.Proofs.WaitingOperators
import Formula.Proofs.PrefixOperators
import Formula.Proofs.PostOrder
import Formula.Proofs.OrderedEvaluation
import Formula.Proofs.ExactValues
import Formula.Proofs.NearestDoubles
import Formula.Proofs.TwosComplement
import Formula.Proofs.LongestLexemes
import Formula.Proofs.PreOrder
import Formula.Proofs.OperatorOrder
