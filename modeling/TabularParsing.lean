import TabularParsing.Decimal.Fixed
import TabularParsing.Decimal.Numeral
import TabularParsing.Text.Lines
import TabularParsing.Text.Quoted
import TabularParsing.Text.Uppercase
import TabularParsing.Grammar.Tables
import TabularParsing.Grammar.Basic
import TabularParsing.Grammar.Language
import TabularParsing.Grammar.Text
import TabularParsing.WeightedRule
import TabularParsing.RuleWeights.Text
import TabularParsing.RuleWeights.StickBreaking
import TabularParsing.Span.Map
import TabularParsing.Span.Table
import TabularParsing.Tree.Text
import TabularParsing.ScoredParse
import TabularParsing.Sampling
import TabularParsing.Span.Text
import TabularParsing.Json.Number
import TabularParsing.Json.Printer
import TabularParsing.WeightedGrammar.Document
import TabularParsing.WeightedGrammar.Language
import TabularParsing.Earley.Parse
import TabularParsing.Earley.Text
import TabularParsing.CommandLine.Session
import TabularParsing.Main
import TabularParsing.Proofs.Segment
import TabularParsing.Proofs.Span.Derivability
import TabularParsing.Proofs.Recognition
import TabularParsing.Proofs.BestScore
import TabularParsing.Proofs.Earley.Acceptance
import TabularParsing.Proofs.Earley.BestDerivation
import TabularParsing.Proofs.Agreement.Charts
import TabularParsing.Proofs.Agreement.Acceptance
import TabularParsing.Proofs.Agreement.Probability
import TabularParsing.Proofs.Earley.Sentence
import TabularParsing.Proofs.Earley.Turns
import TabularParsing.Proofs.Earley.Scores
import TabularParsing.Proofs.Earley.TreeDerivation
import TabularParsing.Proofs.Entries
import TabularParsing.Proofs.WeightedGrammar.Documents
import TabularParsing.Proofs.WeightedGrammar.Persistence
import TabularParsing.Proofs.Json.Decoding
import TabularParsing.Proofs.WeightedGrammar.Shapes
import TabularParsing.Proofs.WeightedGrammar.Outcome
import TabularParsing.Proofs.Decimal.Digits
import TabularParsing.Proofs.Json.Literal
import TabularParsing.Proofs.Sampling.Accepted
import TabularParsing.Proofs.Text.PrintGrammar
import TabularParsing.Proofs.Text.PrintWeighted
import TabularParsing.Proofs.Span.Trees
import TabularParsing.Proofs.Earley.StartSymbol
import TabularParsing.Proofs.FirstProof
import TabularParsing.Proofs.Earley.Reweighing
import TabularParsing.Proofs.Sampling.Outcomes
import TabularParsing.Proofs.RuleWeights.StickBreaking
import TabularParsing.Proofs.Text.Stacked
import TabularParsing.Proofs.Decimal.Numerals
import TabularParsing.Proofs.Text.Layout
import TabularParsing.Proofs.Grammar.Pass
import TabularParsing.Proofs.Grammar.Tables
import TabularParsing.Proofs.RuleWeights.Printing
import TabularParsing.Proofs.Span.Table
import TabularParsing.Proofs.Earley.StateSets
import TabularParsing.Proofs.WeightedGrammar.Reading
import TabularParsing.Proofs.Earley.Checked
import TabularParsing.Proofs.Earley.TreeEnds
import TabularParsing.Proofs.Earley.TreeCalls
import TabularParsing.Proofs.Earley.Safety
