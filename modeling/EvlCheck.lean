import EvlCheck.Editor.Completion
import EvlCheck.Editor.Configuration
import EvlCheck.Editor.Glossary
import EvlCheck.Editor.OpenCall
import EvlCheck.Editor.Parameters
import EvlCheck.Limits.Profile
import EvlCheck.Main
import EvlCheck.Proofs.Analysis.Verdict
import EvlCheck.Proofs.Lexing.Lines
import EvlCheck.Proofs.Parsing.DepthLimit
import EvlCheck.Proofs.Parsing.Halting
import EvlCheck.Proofs.Session.Offer
import EvlCheck.Proofs.Session.Results
import EvlCheck.Proofs.Check.LineEnds
import EvlCheck.Proofs.Check.LaidOut
import EvlCheck.Proofs.Check.LineOrder
import EvlCheck.Proofs.Check.Protection
import EvlCheck.Proofs.Lexing.Spaced
import EvlCheck.Proofs.Check.UntypedText
import EvlCheck.Proofs.Parsing.Returns
import EvlCheck.Proofs.Check.DeclarationText
import EvlCheck.Proofs.Check.Sources
import EvlCheck.Proofs.Check.TypesUsed
import EvlCheck.Proofs.Fix.AddedLines
import EvlCheck.Proofs.Fix.FixedArgs
import EvlCheck.Proofs.Fix.FixedType
import EvlCheck.Proofs.Fix.Offers
import EvlCheck.Proofs.Fix.ReplacedLine
import EvlCheck.Proofs.Fix.Mended
import EvlCheck.Proofs.Parsing.Extents
import EvlCheck.Proofs.Lexing.Row
import EvlCheck.Proofs.Check.ExtractedCalls
import EvlCheck.Proofs.Check.OutermostCall
import EvlCheck.Proofs.Parsing.CleanSource
import EvlCheck.Proofs.Check.LineChanges
import EvlCheck.Proofs.Check.NormalForm
import EvlCheck.Proofs.Check.MentionedNames
import EvlCheck.Proofs.Check.ArgumentCounts
import EvlCheck.Proofs.Check.ZeroDivisors
import EvlCheck.Proofs.Fix.WrappedLine
import EvlCheck.Proofs.Fix.Redeclared
import EvlCheck.Proofs.Fix.DeclaredAbove
import EvlCheck.Proofs.Fix.MadeConstant
import EvlCheck.Proofs.Lexing.Figures
import EvlCheck.Proofs.Fix.QuotedStatement
import EvlCheck.Proofs.Parsing.ReportOrder
import EvlCheck.Proofs.Parsing.ReportPreferences
import EvlCheck.Proofs.Fix.KeptStatement
import EvlCheck.Proofs.Fix.KeptSyntax
import EvlCheck.Proofs.Editor.ArgumentSlices
import EvlCheck.Proofs.Editor.ArgumentPlaces
import EvlCheck.Proofs.Editor.HoveredWord
import EvlCheck.Proofs.Parsing.RuleBalance
import EvlCheck.Proofs.Token.Navigation
