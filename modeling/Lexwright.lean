import Lexwright.Emit
import Lexwright.Lexer.Basic
import Lexwright.Proofs.Automaton.Alphabet
import Lexwright.Proofs.Automaton.Block
import Lexwright.Proofs.Automaton.Canonical
import Lexwright.Proofs.Automaton.Choice
import Lexwright.Proofs.Automaton.Conflicts
import Lexwright.Proofs.Automaton.Deletion
import Lexwright.Proofs.Automaton.EmptyTexts
import Lexwright.Proofs.Automaton.Errors
import Lexwright.Proofs.Automaton.Explore
import Lexwright.Proofs.Automaton.Implements
import Lexwright.Proofs.Automaton.Layout
import Lexwright.Proofs.Automaton.Memo
import Lexwright.Proofs.Automaton.Reach
import Lexwright.Proofs.Automaton.Recognizes
import Lexwright.Proofs.Automaton.Recursion
import Lexwright.Proofs.Automaton.Renaming
import Lexwright.Proofs.Automaton.Renumbering
import Lexwright.Proofs.Automaton.Repetition
import Lexwright.Proofs.Automaton.Reports
import Lexwright.Proofs.Automaton.Rows
import Lexwright.Proofs.Automaton.Sequence
import Lexwright.Proofs.Automaton.Shape
import Lexwright.Proofs.Automaton.Stepwise
import Lexwright.Proofs.Automaton.Subset
import Lexwright.Proofs.Automaton.Thompson
import Lexwright.Proofs.Automaton.Tidy
import Lexwright.Proofs.Automaton.Unmatched
import Lexwright.Proofs.Automaton.WellBuilt
import Lexwright.Proofs.Automaton.Worklist
import Lexwright.Proofs.CharClass.Bits
import Lexwright.Proofs.CharClass.Calls
import Lexwright.Proofs.CharClass.Canonical
import Lexwright.Proofs.CharClass.Membership
import Lexwright.Proofs.Closed
import Lexwright.Proofs.Compile
import Lexwright.Proofs.Diagnostics
import Lexwright.Proofs.Emit.Arrays
import Lexwright.Proofs.Emit.Comments
import Lexwright.Proofs.Emit.Faithful
import Lexwright.Proofs.Emit.Lexemes
import Lexwright.Proofs.Emit.Names
import Lexwright.Proofs.Emit.Reader
import Lexwright.Proofs.Emit.Spelling
import Lexwright.Proofs.Interner
import Lexwright.Proofs.Interner.Calls
import Lexwright.Proofs.Lexer.Blocks
import Lexwright.Proofs.Lexer.Checked
import Lexwright.Proofs.Lexer.Deletion
import Lexwright.Proofs.Lexer.Failure
import Lexwright.Proofs.Lexer.Generations
import Lexwright.Proofs.Lexer.Hidden
import Lexwright.Proofs.Lexer.Items
import Lexwright.Proofs.Lexer.Positions
import Lexwright.Proofs.Lexer.Progress
import Lexwright.Proofs.Lexer.Reference
import Lexwright.Proofs.Lexer.Renumbering
import Lexwright.Proofs.Lexer.Run
import Lexwright.Proofs.Lexer.Safety
import Lexwright.Proofs.Lexer.Scan
import Lexwright.Proofs.Lexer.Session
import Lexwright.Proofs.Lexer.Step
import Lexwright.Proofs.Lexicon.Deletion
import Lexwright.Proofs.Lexicon.Labels
import Lexwright.Proofs.Lexicon.Occurrences
import Lexwright.Proofs.Lexicon.Renaming
import Lexwright.Proofs.Lexicon.Validation
import Lexwright.Proofs.Log
import Lexwright.Proofs.LongestMatch
import Lexwright.Proofs.Lookups
import Lexwright.Proofs.Pattern.Agreement
import Lexwright.Proofs.Pattern.Inlining
import Lexwright.Proofs.Pattern.Sturdy
import Lexwright.Proofs.Pattern.Visits
import Lexwright.Proofs.Regex.Preorder
import Lexwright.Proofs.Segments.Cases
import Lexwright.Proofs.Segments.Complement
import Lexwright.Proofs.Segments.Cover
import Lexwright.Proofs.Segments.Normal
import Lexwright.Proofs.Segments.Partition
import Lexwright.Proofs.Segments.Refine
import Lexwright.Proofs.Segments.Split
import Lexwright.Proofs.Segments.Words
import Lexwright.Proofs.Slices
import Lexwright.Proofs.Stages
import Lexwright.Proofs.StateSet
import Lexwright.Proofs.Stream.Decode
import Lexwright.Proofs.Stream.Motion
import Lexwright.Proofs.Stream.Offset
import Lexwright.Proofs.Stream.Reader
import Lexwright.Proofs.Stream.Text
import Lexwright.Proofs.Text.CaseMap
import Lexwright.Proofs.Text.Utf8
import Lexwright.Stages
import Lexwright.Stream.Reader
