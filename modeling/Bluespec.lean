import Bluespec.Main
import Bluespec.Tree.SExpr
import Bluespec.Proofs.OperatorGrammar
import Bluespec.Proofs.OperatorReading
import Bluespec.Proofs.OperatorSoundness
import Bluespec.Proofs.OperatorUniqueness
import Bluespec.Proofs.Scanning
import Bluespec.Proofs.SpacedText
import Bluespec.Proofs.OperatorExpressions
import Bluespec.Proofs.LosslessTree
import Bluespec.Proofs.Judgement
import Bluespec.Proofs.ForwardRuns
import Bluespec.Proofs.ForwardGrammar
import Bluespec.Proofs.Traits
import Bluespec.Proofs.Declarations
import Bluespec.Proofs.TypeTraits
import Bluespec.Proofs.InheritedTraits
import Bluespec.Proofs.ExpressionTraits
import Bluespec.Proofs.DefinitionTraits
import Bluespec.Proofs.UnitTraits
import Bluespec.Proofs.RecordedDeclarations
import Bluespec.Proofs.NodePlaces
import Bluespec.Proofs.DeclarationNodes
import Bluespec.Proofs.PermittedStatements
import Bluespec.Proofs.Sites
import Bluespec.Proofs.Moving
import Bluespec.Proofs.Tracking
import Bluespec.Proofs.TrackedTypes
import Bluespec.Proofs.TrackedGrammar
import Bluespec.Proofs.TrackedDefinitions
import Bluespec.Proofs.MovedLists
import Bluespec.Proofs.TrackedUnits
import Bluespec.Proofs.StableSorting
import Bluespec.Proofs.Layout
import Bluespec.Proofs.CutText
import Bluespec.Proofs.PatternLanguage
import Bluespec.Proofs.LongestLexemes
import Bluespec.Proofs.Relexing
import Bluespec.Proofs.Respacing
import Bluespec.Proofs.FullGrammar
import Bluespec.Proofs.LoopProgress
import Bluespec.Proofs.FailureReports
import Bluespec.Proofs.Speculation
import Bluespec.Proofs.FirstProblems
import Bluespec.Proofs.DialectFilter
import Bluespec.Proofs.Confined
import Bluespec.Proofs.ConfinedRules
import Bluespec.Proofs.ConfinedTypes
import Bluespec.Proofs.ConfinedOperands
import Bluespec.Proofs.ConfinedOperators
import Bluespec.Proofs.ConfinedStatements
import Bluespec.Proofs.ConfinedBlocks
import Bluespec.Proofs.ConfinedExpressions
import Bluespec.Proofs.ConfinedBodies
import Bluespec.Proofs.SpanTrees
import Bluespec.Proofs.SpanRules
import Bluespec.Proofs.SpanTypes
import Bluespec.Proofs.SpanGrammar
import Bluespec.Proofs.SpanDefinitions
import Bluespec.Proofs.NestedSpans
import Bluespec.Proofs.ConfinedDefinitions
import Bluespec.Proofs.ConfinedGrammar
import Bluespec.Proofs.ConfinedUnits
import Bluespec.Proofs.SupportedConstructs
import Bluespec.Proofs.FaithfulSpans
import Bluespec.Proofs.StatementSequences
import Bluespec.Proofs.AdjacentTexts
import Bluespec.Proofs.BracketedExpressions
import Bluespec.Proofs.StringBodies
import Bluespec.Proofs.JoinedUnits
import Bluespec.Proofs.ValueBlockResults
import Bluespec.Proofs.BeforeColon
import Bluespec.Proofs.ColonExpressions
import Bluespec.Proofs.ColonTexts
import Bluespec.Proofs.ReplacedOperands
import Bluespec.Proofs.LiteralOperands
import Bluespec.Proofs.AssignmentTargets
import Bluespec.Proofs.Windows
import Bluespec.Proofs.WindowGrammar
import Bluespec.Proofs.RecoveredStatements
import Bluespec.Proofs.ElseOwners
import Bluespec.Proofs.Conditions
import Bluespec.Proofs.ReportedRuns
import Bluespec.Proofs.GuardTexts
import Bluespec.Proofs.MemberTexts
import Bluespec.Proofs.ReportedUnits
import Bluespec.Proofs.ClosingWords
import Bluespec.Proofs.UnclosedConstructs
import Bluespec.Proofs.BrokenHeaders
import Bluespec.Proofs.WrittenLists
import Bluespec.Proofs.NumberTexts
import Bluespec.Proofs.IntegerLiterals
import Bluespec.Proofs.WrittenTypes
import Bluespec.Proofs.RenderedTypes
import Bluespec.Proofs.DefinitionRuns
import Bluespec.Proofs.LoneBlocks
import Bluespec.Proofs.LexerStates
import Bluespec.Proofs.ClosingMarks
import Bluespec.Proofs.EscapeSequences
import Bluespec.Proofs.LineColumns
import Bluespec.Proofs.TaggedPayloads
import Bluespec.Proofs.RepeatedRuns
import Bluespec.Proofs.FirstErrorMode
import Bluespec.Proofs.RejectedLeaves
import Bluespec.Proofs.NestedLeaves
