import RelLang.Kind
import RelLang.Parse
import RelLang.Proofs.Parse.Asserted
import RelLang.Proofs.Parse.Assertion
import RelLang.Proofs.Parse.Balance
import RelLang.Proofs.Parse.Bounds
import RelLang.Proofs.Parse.Cap
import RelLang.Proofs.Parse.Complete
import RelLang.Proofs.Parse.Concatenation
import RelLang.Proofs.Parse.Context
import RelLang.Proofs.Parse.Declarations
import RelLang.Proofs.Parse.DocComment
import RelLang.Proofs.Parse.Implication
import RelLang.Proofs.Parse.Language
import RelLang.Proofs.Parse.Layout
import RelLang.Proofs.Parse.Lookahead
import RelLang.Proofs.Parse.Lossless
import RelLang.Proofs.Parse.Nesting
import RelLang.Proofs.Parse.OneNode
import RelLang.Proofs.Parse.OptionValue
import RelLang.Proofs.Parse.Placement
import RelLang.Proofs.Parse.Precedence
import RelLang.Proofs.Parse.Prefixed
import RelLang.Proofs.Parse.Recovery
import RelLang.Proofs.Parse.Repetition
import RelLang.Proofs.Parse.RoundTrip
import RelLang.Proofs.Parse.Sequence
import RelLang.Proofs.Parse.Stray
import RelLang.Proofs.Parse.Synonym
import RelLang.Proofs.Parse.Temporal
import RelLang.Proofs.Parse.TemporalOption
import RelLang.Proofs.Parse.Termination
import RelLang.Proofs.Parse.TooDeep
import RelLang.Proofs.Parse.Unclosed
import RelLang.Proofs.Parse.Unfinished
import RelLang.Proofs.Syntax.Apart
import RelLang.Proofs.Text.Lines
import RelLang.Proofs.Token.Brace
import RelLang.Proofs.Token.Tokens
import RelLang.Proofs.Traversal.Visitor
import RelLang.Proofs.View.Bare
import RelLang.Text.Edit
import RelLang.Traversal.Visitor
import RelLang.Traversal.Walk
