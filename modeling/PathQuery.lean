import PathQuery.Main
import PathQuery.Value
import PathQuery.Proofs.Tree.Preorder
import PathQuery.Proofs.Tree.Documents
import PathQuery.Proofs.Matcher.Hits
import PathQuery.Proofs.Query.Chain
import PathQuery.Proofs.Query.Splittings
import PathQuery.Proofs.Query.Resolution
import PathQuery.Proofs.Regex.Literal
import PathQuery.Proofs.Path.Quote
import PathQuery.Proofs.Pattern.Quoted
import PathQuery.Proofs.Matcher.Compile
import PathQuery.Proofs.Query.QuotedEntry
import PathQuery.Proofs.Flatten.Leaves
import PathQuery.Proofs.Tree.KeyTexts
import PathQuery.Proofs.Flatten.RoundTrip
import PathQuery.Proofs.Json.Reader
import PathQuery.Proofs.Query.Parents
import PathQuery.Proofs.Query.Shape
import PathQuery.Proofs.Pattern.Meaning
import PathQuery.Proofs.Regex.Spelling
import PathQuery.Proofs.Pattern.Assembly
import PathQuery.Proofs.Pattern.Accepts
import PathQuery.Proofs.Pattern.Anchoring
import PathQuery.Proofs.Query.FlagSets
import PathQuery.Proofs.Query.Widening
import PathQuery.Proofs.Query.Models
import PathQuery.Proofs.Flatten.Search
import PathQuery.Proofs.Pattern.Sameness
import PathQuery.Proofs.Query.Sameness
import PathQuery.Proofs.Matcher.Search
import PathQuery.Proofs.Path.Join
import PathQuery.Proofs.Query.Composition
import PathQuery.Proofs.Pattern.Slots
import PathQuery.Proofs.Pattern.Greedy
import PathQuery.Proofs.Pattern.Membership
import PathQuery.Proofs.Query.Distinct
import PathQuery.Proofs.Query.Ordering
import PathQuery.Proofs.Regex.Alternation
import PathQuery.Proofs.Pattern.Alternation
import PathQuery.Proofs.Path.Suffix
import PathQuery.Proofs.Pattern.Numerals
import PathQuery.Proofs.Path.Redundancy
import PathQuery.Proofs.Path.Spelling
import PathQuery.Proofs.Pattern.Classes
import PathQuery.Proofs.Query.Fillings
import PathQuery.Proofs.Tree.Conversion
import PathQuery.Proofs.Command.Find
import PathQuery.Proofs.Path.WellFormed
import PathQuery.Proofs.Path.Rejoining
import PathQuery.Proofs.Query.ParentSteps
import PathQuery.Proofs.Matcher.FirstFailure
