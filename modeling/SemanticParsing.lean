import SemanticParsing.Proofs.AddedRule
import SemanticParsing.Proofs.ArithmeticSentences
import SemanticParsing.Proofs.CarriedFeatures
import SemanticParsing.Proofs.ChartHistory
import SemanticParsing.Proofs.GuardedParse
import SemanticParsing.Proofs.Isolation
import SemanticParsing.Proofs.Leaders
import SemanticParsing.Proofs.LexicalScoping
import SemanticParsing.Proofs.LexiconProduct
import SemanticParsing.Proofs.LexiconShape
import SemanticParsing.Proofs.MeaningTransitivity
import SemanticParsing.Proofs.NumericArguments
import SemanticParsing.Proofs.OfferedRules
import SemanticParsing.Proofs.OperatorChains
import SemanticParsing.Proofs.OperatorNesting
import SemanticParsing.Proofs.OracleAccuracy
import SemanticParsing.Proofs.RecordedVocabulary
import SemanticParsing.Proofs.RepeatedRanking
import SemanticParsing.Proofs.RuleOrder
import SemanticParsing.Proofs.Scoping
import SemanticParsing.Proofs.Sequencing
import SemanticParsing.Proofs.TextLayout
import SemanticParsing.Proofs.UntiedExamples
