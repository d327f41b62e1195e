import PatternAutomata.Automaton.Interchange
import PatternAutomata.Diagnostic.Excerpt
import PatternAutomata.Matcher
import PatternAutomata.Pattern.Outline
import PatternAutomata.Search.Trace
import PatternAutomata.Proofs.Search.Run
import PatternAutomata.Proofs.Search.Turn
import PatternAutomata.Proofs.Automaton.Dangling
import PatternAutomata.Proofs.Search.Termination
import PatternAutomata.Proofs.Search.Limits
import PatternAutomata.Proofs.Search.Trail
import PatternAutomata.Proofs.Text.Slice
import PatternAutomata.Proofs.Search.Acceptance
import PatternAutomata.Proofs.Search.Guidance
import PatternAutomata.Proofs.CharSet.Parity
import PatternAutomata.Proofs.Pattern.Matching
import PatternAutomata.Proofs.Pattern.Backtracking
import PatternAutomata.Proofs.Region.Basic
import PatternAutomata.Proofs.Region.Walk
import PatternAutomata.Proofs.Region.Passage
import PatternAutomata.Proofs.Automaton.Edges
import PatternAutomata.Proofs.Region.Construction
import PatternAutomata.Proofs.Pattern.Induction
import PatternAutomata.Proofs.Pattern.Size
import PatternAutomata.Proofs.Pattern.Rendering
import PatternAutomata.Proofs.Pattern.Acceptance
import PatternAutomata.Proofs.Search.Lead
import PatternAutomata.Proofs.Region.Outcome
import PatternAutomata.Proofs.Region.Shadow
import PatternAutomata.Proofs.Region.Priority
import PatternAutomata.Proofs.Pattern.Priority
import PatternAutomata.Proofs.Region.Capture
import PatternAutomata.Proofs.Region.Copies
import PatternAutomata.Proofs.Pattern.Captures
import PatternAutomata.Proofs.Pattern.Traversal
import PatternAutomata.Proofs.Search.Paths
import PatternAutomata.Proofs.Region.Arrows
import PatternAutomata.Proofs.Search.Distinct
import PatternAutomata.Proofs.Search.Events
import PatternAutomata.Proofs.Pattern.Effort
import PatternAutomata.Proofs.Region.Reachability
import PatternAutomata.Proofs.Pattern.Trim
import PatternAutomata.Proofs.Search.Thresholds
import PatternAutomata.Proofs.Search.Extent
import PatternAutomata.Proofs.Search.Scanning
import PatternAutomata.Proofs.Search.Replacement
import PatternAutomata.Proofs.Text.Decimal
import PatternAutomata.Proofs.Pattern.Tokens
import PatternAutomata.Proofs.Pattern.Normal
import PatternAutomata.Proofs.Pattern.Written
import PatternAutomata.Proofs.Pattern.Buildable
import PatternAutomata.Proofs.Pattern.Descent
import PatternAutomata.Proofs.Pattern.Agreement
import PatternAutomata.Proofs.Pattern.Mistakes
import PatternAutomata.Proofs.Text.Line
import PatternAutomata.Proofs.Automaton.Rule
import PatternAutomata.Proofs.Automaton.Reading
import PatternAutomata.Proofs.Automaton.Listing
import PatternAutomata.Proofs.Automaton.Spelling
import PatternAutomata.Proofs.Automaton.Loading
import PatternAutomata.Proofs.Search.Prefix
import PatternAutomata.Proofs.Search.Modes
import PatternAutomata.Proofs.Pattern.Reported
import PatternAutomata.Proofs.Search.Memoryless
import PatternAutomata.Proofs.Pattern.Live
import PatternAutomata.Proofs.Pattern.StateCount
import PatternAutomata.Proofs.Search.Preference
import PatternAutomata.Proofs.Search.Relabelling
import PatternAutomata.Proofs.Region.Likeness
import PatternAutomata.Proofs.Region.Postponement
import PatternAutomata.Proofs.Region.Rounds
import PatternAutomata.Proofs.Region.Spellings
import PatternAutomata.Proofs.Pattern.Rounds
import PatternAutomata.Proofs.Pattern.Occurrences
import PatternAutomata.Proofs.Text.Bytes
import PatternAutomata.Proofs.Search.Cutting
import PatternAutomata.Proofs.Pattern.Nesting
import PatternAutomata.Proofs.Pattern.Bracketed
import PatternAutomata.Proofs.Pattern.Lexing
import PatternAutomata.Proofs.Pattern.Numbering
import PatternAutomata.Proofs.Automaton.RuleLines
import PatternAutomata.Proofs.Automaton.Checked
import PatternAutomata.Proofs.CharSet.Words
import PatternAutomata.Proofs.Pattern.SetEdge
import PatternAutomata.Proofs.CharSet.Runs
import PatternAutomata.Proofs.Pattern.Confinement
