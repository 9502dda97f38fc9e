import RegexAudit.Analysis.Backreference
import RegexAudit.Analysis.Category
import RegexAudit.Analysis.Cover
import RegexAudit.Analysis.Equality
import RegexAudit.Analysis.First
import RegexAudit.Analysis.Form
import RegexAudit.Analysis.Reach
import RegexAudit.Bounds
import RegexAudit.CharSet.Basic
import RegexAudit.CharSet.Fold
import RegexAudit.CharSet.KnownProperties
import RegexAudit.CharSet.OfNode
import RegexAudit.CharSet.Properties
import RegexAudit.CharSet.Range
import RegexAudit.CommandLine
import RegexAudit.Flags
import RegexAudit.Lint.Captures
import RegexAudit.Lint.Diagnostic
import RegexAudit.Lint.DuplicateAlternative
import RegexAudit.Lint.EmptyClass
import RegexAudit.Lint.Fix
import RegexAudit.Lint.Linter
import RegexAudit.Lint.NestedQuantifier
import RegexAudit.Lint.Repair
import RegexAudit.Lint.UnusedCapture
import RegexAudit.Lint.UselessAssertion
import RegexAudit.Lint.UselessReference
import RegexAudit.Main
import RegexAudit.ParseError
import RegexAudit.Sorting
import RegexAudit.Syntax.Arena
import RegexAudit.Syntax.Class
import RegexAudit.Syntax.Cursor
import RegexAudit.Syntax.Lexeme
import RegexAudit.Syntax.Node
import RegexAudit.Syntax.Parser
import RegexAudit.Syntax.Pattern
import RegexAudit.Syntax.Place
import RegexAudit.Syntax.Regex
import RegexAudit.Text
import RegexAudit.Unicode.Basic
import RegexAudit.Unicode.CaseFolding
import RegexAudit.Unicode.Hidden
import RegexAudit.Unicode.Letter
import RegexAudit.Unicode.Property
import RegexAudit.Unicode.Uppercase
import RegexAudit.Proofs.Ranges
import RegexAudit.Proofs.CharSets
import RegexAudit.Proofs.Cases
import RegexAudit.Proofs.Matching
import RegexAudit.Proofs.Forms
import RegexAudit.Proofs.Coverage
import RegexAudit.Proofs.Lexemes
import RegexAudit.Proofs.Escapes
import RegexAudit.Proofs.Classes
import RegexAudit.Proofs.ParsedClasses
import RegexAudit.Proofs.Parsed
import RegexAudit.Proofs.Walks
import RegexAudit.Proofs.First
import RegexAudit.Proofs.Reach
import RegexAudit.Proofs.Removal
import RegexAudit.Proofs.Assertions
import RegexAudit.Proofs.Captures
import RegexAudit.Proofs.Equality
import RegexAudit.Proofs.Sites
import RegexAudit.Proofs.LexemesAlone
import RegexAudit.Proofs.Fences
import RegexAudit.Proofs.ClassesJoined
import RegexAudit.Proofs.PatternsAlone
import RegexAudit.Proofs.Reread
import RegexAudit.Proofs.Readings
import RegexAudit.Proofs.Groups
import RegexAudit.Proofs.Scans
import RegexAudit.Proofs.Numbering
import RegexAudit.Proofs.Visits
import RegexAudit.Proofs.Duplicates
import RegexAudit.Proofs.Spelling
import RegexAudit.Proofs.Contexts
import RegexAudit.Proofs.LexemesJoined
import RegexAudit.Proofs.Runs
import RegexAudit.Proofs.Seams
import RegexAudit.Proofs.Passages
import RegexAudit.Proofs.Splices
import RegexAudit.Proofs.Fixes
import RegexAudit.Proofs.Participation
import RegexAudit.Proofs.SetAlgebra
import RegexAudit.Proofs.Complements
import RegexAudit.Proofs.RangeOrder
import RegexAudit.Proofs.ClassMembers
import RegexAudit.Proofs.Calls
import RegexAudit.Proofs.Loops
import RegexAudit.Proofs.Numerals
import RegexAudit.Proofs.Faults
import RegexAudit.Proofs.Cursors
import RegexAudit.Proofs.Arenas
import RegexAudit.Proofs.Storing
import RegexAudit.Proofs.StoredClasses
import RegexAudit.Proofs.StoredPatterns
import RegexAudit.Proofs.StoredTrees
import RegexAudit.Proofs.StoredParses
import RegexAudit.Proofs.Lossless
import RegexAudit.Proofs.Safety
import RegexAudit.Proofs.Totals
import RegexAudit.Proofs.Trials
import RegexAudit.Proofs.Merging
import RegexAudit.Proofs.Substitution
import RegexAudit.Proofs.Remains
import RegexAudit.Proofs.EqualTexts
import RegexAudit.Proofs.Partners
import RegexAudit.Proofs.Repetition
import RegexAudit.Proofs.UpperCase
import RegexAudit.Proofs.ExactFirst
import RegexAudit.Proofs.FastPaths
import RegexAudit.Proofs.Budget
import RegexAudit.Proofs.Mirror
import RegexAudit.Proofs.Overlaps
import RegexAudit.Proofs.Languages
import RegexAudit.Proofs.CaseClosure
import RegexAudit.Proofs.Folding
import RegexAudit.Proofs.Abreast
import RegexAudit.Proofs.Exchanges
import RegexAudit.Proofs.Rebuilt
import RegexAudit.Proofs.FixedTrees
import RegexAudit.Proofs.Written
import RegexAudit.Proofs.Sessions
import RegexAudit.Proofs.Counters
import RegexAudit.Proofs.Nesting
import RegexAudit.Proofs.Literals
import RegexAudit.Proofs.FormShapes
import RegexAudit.Proofs.Ceilings
import RegexAudit.Proofs.Jumps
import RegexAudit.Proofs.CountedGroups
import RegexAudit.Proofs.Grouping
