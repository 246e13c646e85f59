import FluentPattern.Backreference
import FluentPattern.Builder
import FluentPattern.Builder.Call
import FluentPattern.Builder.Vocabulary
import FluentPattern.Built
import FluentPattern.Compiled
import FluentPattern.Dialect.Admission
import FluentPattern.Dialect.Fault
import FluentPattern.Dialect.Reading
import FluentPattern.Dialect.Token
import FluentPattern.Dialect.Tree
import FluentPattern.Event
import FluentPattern.Expression
import FluentPattern.Flags
import FluentPattern.Fragment
import FluentPattern.Fragment.Call
import FluentPattern.Matching.Backtrack
import FluentPattern.Matching.Lowering
import FluentPattern.Matching.Matcher
import FluentPattern.Matching.Node
import FluentPattern.Matching.Regex
import FluentPattern.Matching.Search
import FluentPattern.Matching.Table
import FluentPattern.Proofs.Lexeme
import FluentPattern.Proofs.Move
import FluentPattern.Proofs.Sign
import FluentPattern.Proofs.Spelling
import FluentPattern.Proofs.Spelling.Reading
import FluentPattern.Proofs.Spelling.Signs
import FluentPattern.Proofs.Written
import FluentPattern.Segment
import FluentPattern.Text
import FluentPattern.Text.Blank
import FluentPattern.Text.CaseFold
import FluentPattern.Text.DecimalDigit
import FluentPattern.Text.Escape
import FluentPattern.Text.Printable
import FluentPattern.Text.Quoted
import FluentPattern.Proofs.Row
import FluentPattern.Proofs.Structure
import FluentPattern.Proofs.GroupCount
import FluentPattern.Proofs.Contents
import FluentPattern.Proofs.Lead
import FluentPattern.Proofs.Frame
import FluentPattern.Proofs.Copy
import FluentPattern.Proofs.Tree
import FluentPattern.Proofs.Finished
import FluentPattern.Proofs.Label
import FluentPattern.Proofs.Append
import FluentPattern.Proofs.Matching.Ways
import FluentPattern.Proofs.Matching.Renumber
import FluentPattern.Proofs.Matching.Explore
import FluentPattern.Proofs.Matching.Rows
import FluentPattern.Proofs.Matching.Leftmost
import FluentPattern.Proofs.Matching.Laws
import FluentPattern.Proofs.Matching.Engines
import FluentPattern.Proofs.Matching.Lowered
import FluentPattern.Proofs.Matching.Answers
import FluentPattern.Proofs.Matching.Stops
import FluentPattern.Proofs.Embedding
import FluentPattern.Proofs.Alternation
import FluentPattern.Proofs.Matching.Languages
import FluentPattern.Proofs.Matching.Anchored
import FluentPattern.Proofs.Matching.Units
import FluentPattern.Proofs.AnyRun
import FluentPattern.Proofs.Exclusion
import FluentPattern.Proofs.Repetition
import FluentPattern.Proofs.Captures
import FluentPattern.Proofs.Alternatives
import FluentPattern.Proofs.Modifiers
import FluentPattern.Proofs.Shorthands
import FluentPattern.Proofs.Matching.LongestRun
import FluentPattern.Proofs.RunWithout
import FluentPattern.Proofs.Refusal
import FluentPattern.Proofs.FlagCalls
import FluentPattern.Proofs.Counts
import FluentPattern.Proofs.Replacement
import FluentPattern.Proofs.Splitting
import FluentPattern.Proofs.Escaping
import FluentPattern.Proofs.FragmentCalls
import FluentPattern.Proofs.Matching.Sound
import FluentPattern.Proofs.Matching.Passes
import FluentPattern.Proofs.Queries
