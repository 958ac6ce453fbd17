import DesignTokens.Binary64
import DesignTokens.Binary64.Shortest
import DesignTokens.CommandLine.Grid
import DesignTokens.CommandLine.Markup
import DesignTokens.CommandLine.Options
import DesignTokens.CommandLine.Request
import DesignTokens.CommandLine.Run
import DesignTokens.Configuration
import DesignTokens.Failure
import DesignTokens.FilePath
import DesignTokens.FileSystem
import DesignTokens.FileSystem.Glob
import DesignTokens.Graph.Cycles
import DesignTokens.Main
import DesignTokens.Manifest.Basic
import DesignTokens.Manifest.DtcgResolver
import DesignTokens.Manifest.DtcgThemes
import DesignTokens.Manifest.Fault
import DesignTokens.Manifest.Format
import DesignTokens.Manifest.Loading
import DesignTokens.Manifest.Selection
import DesignTokens.Manifest.Setting
import DesignTokens.Manifest.Upft
import DesignTokens.Merge.Combine
import DesignTokens.Merge.Conflict
import DesignTokens.Merge.Keyed
import DesignTokens.Permutation.Enumeration
import DesignTokens.Permutation.Files
import DesignTokens.Permutation.Resolution
import DesignTokens.Project
import DesignTokens.Reading.Directory
import DesignTokens.Reading.Form
import DesignTokens.Reading.Shelf
import DesignTokens.Reference.Alias
import DesignTokens.Reference.Assembly
import DesignTokens.Reference.Chain
import DesignTokens.Reference.Pointer
import DesignTokens.Reference.Problem
import DesignTokens.Reference.Resolution
import DesignTokens.Reference.Scan
import DesignTokens.Reference.Validation
import DesignTokens.Table
import DesignTokens.Text.Blank
import DesignTokens.Text.Digit
import DesignTokens.Text.Lower
import DesignTokens.Text.Parts
import DesignTokens.Text.Printable
import DesignTokens.Text.Quoted
import DesignTokens.Text.Range
import DesignTokens.Token.Build
import DesignTokens.Token.Dependencies
import DesignTokens.Token.Document
import DesignTokens.Token.Statistics
import DesignTokens.Token.Tree
import DesignTokens.Toml.Draft
import DesignTokens.Toml.Reader
import DesignTokens.Toml.Scalar
import DesignTokens.Value
import DesignTokens.Value.Demand
import DesignTokens.Value.Display
import DesignTokens.Value.Keyed
import DesignTokens.Value.Numeral
import DesignTokens.Value.Reader
import DesignTokens.Value.Writer
import DesignTokens.Yaml.Cursor
import DesignTokens.Yaml.Reader
import DesignTokens.Yaml.Scalar
import DesignTokens.Proofs.Table
import DesignTokens.Proofs.Graph.Reachability
import DesignTokens.Proofs.Graph.WalkInvariant
import DesignTokens.Proofs.Graph.WalkRun
import DesignTokens.Proofs.Graph.Components
import DesignTokens.Proofs.Graph.Extension
import DesignTokens.Proofs.Value.Structure
import DesignTokens.Proofs.Text.Braces
import DesignTokens.Proofs.Reference.Pieces
import DesignTokens.Proofs.Reference.Occurrences
import DesignTokens.Proofs.Reference.Replacement
import DesignTokens.Proofs.Reference.Substitution
import DesignTokens.Proofs.Reference.Results
import DesignTokens.Proofs.Token.Places
import DesignTokens.Proofs.Token.Paths
import DesignTokens.Proofs.Token.Prepared
import DesignTokens.Proofs.Token.Building
import DesignTokens.Proofs.Token.AliasGraph
import DesignTokens.Proofs.Token.DocumentOrder
import DesignTokens.Proofs.Token.Tour
import DesignTokens.Proofs.Token.Lookup
import DesignTokens.Proofs.Resolution.Settling
import DesignTokens.Proofs.Resolution.Check
import DesignTokens.Proofs.Resolution.Turn
import DesignTokens.Proofs.Resolution.Order
import DesignTokens.Proofs.Resolution.Precedence
import DesignTokens.Proofs.Resolution.Outcome
import DesignTokens.Proofs.Assembly.Steps
import DesignTokens.Proofs.Assembly.Trees
import DesignTokens.Proofs.Assembly.Stability
import DesignTokens.Proofs.Assembly.Readiness
import DesignTokens.Proofs.Resolution.Values
import DesignTokens.Proofs.Merge.Members
import DesignTokens.Proofs.Merge.Apart
import DesignTokens.Proofs.Merge.Clashes
import DesignTokens.Proofs.Merge.Entries
import DesignTokens.Proofs.Merge.Keyed
import DesignTokens.Proofs.Merge.TextKeyed
import DesignTokens.Proofs.Merge.Respelled
import DesignTokens.Proofs.Merge.Again
import DesignTokens.Proofs.Merge.Absorption
import DesignTokens.Proofs.Merge.Outcome
import DesignTokens.Proofs.Merge.Walk
import DesignTokens.Proofs.Merge.Mismatches
import DesignTokens.Proofs.Token.Rewriting
import DesignTokens.Proofs.Token.RoundTrip
import DesignTokens.Proofs.Resolution.Clean
import DesignTokens.Proofs.Resolution.Finish
import DesignTokens.Proofs.Resolution.Twice
import DesignTokens.Proofs.Resolution.Findings
import DesignTokens.Proofs.Resolution.Reports
import DesignTokens.Proofs.Resolution.Agreement
import DesignTokens.Proofs.Resolution.Regrouping
import DesignTokens.Proofs.Assembly.Expansion
import DesignTokens.Proofs.Assembly.Completion
import DesignTokens.Proofs.Assembly.Progress
import DesignTokens.Proofs.Assembly.Visit
import DesignTokens.Proofs.Assembly.Coverage
import DesignTokens.Proofs.Assembly.Independence
import DesignTokens.Proofs.Assembly.Documents
import DesignTokens.Proofs.Assembly.Followed
import DesignTokens.Proofs.Assembly.Hops
import DesignTokens.Proofs.Assembly.Limit
import DesignTokens.Proofs.Assembly.LimitedRun
import DesignTokens.Proofs.Reference.Lookups
import DesignTokens.Proofs.Reference.Validation
import DesignTokens.Proofs.Assembly.Untouched
import DesignTokens.Proofs.Assembly.Readable
import DesignTokens.Proofs.Assembly.Unfollowed
import DesignTokens.Proofs.Assembly.Listing
import DesignTokens.Proofs.Assembly.Inclusive
import DesignTokens.Proofs.Resolution.History
import DesignTokens.Proofs.Resolution.Blame
import DesignTokens.Proofs.Resolution.Circular
import DesignTokens.Proofs.Resolution.Navigable
import DesignTokens.Proofs.Resolution.Totality
import DesignTokens.Proofs.Resolution.Entries
import DesignTokens.Proofs.Resolution.Foresight
import DesignTokens.Proofs.Manifest.Choices
import DesignTokens.Proofs.Permutation.Choices
import DesignTokens.Proofs.Permutation.Listing
import DesignTokens.Proofs.Manifest.Rejections
import DesignTokens.Proofs.Manifest.Sound
import DesignTokens.Proofs.Manifest.Plain
import DesignTokens.Proofs.Manifest.Resolver
import DesignTokens.Proofs.Manifest.Themes
import DesignTokens.Proofs.Manifest.Parsing
import DesignTokens.Proofs.Assembly.AddedFile
import DesignTokens.Proofs.Assembly.Mirror
import DesignTokens.Proofs.Assembly.Onward
import DesignTokens.Proofs.Assembly.LastTurn
import DesignTokens.Proofs.Assembly.QuietRun
import DesignTokens.Proofs.Assembly.Undisturbed
import DesignTokens.Proofs.FilePath.Normal
import DesignTokens.Proofs.FilePath
import DesignTokens.Proofs.Text.Joining
import DesignTokens.Proofs.Permutation.FanOut
import DesignTokens.Proofs.Permutation.Names
import DesignTokens.Proofs.Permutation.Targets
import DesignTokens.Proofs.Manifest.Collected
import DesignTokens.Proofs.Manifest.Inline
import DesignTokens.Proofs.Permutation.Accepted
import DesignTokens.Proofs.Permutation.Collecting
import DesignTokens.Proofs.Manifest.Conditions
import DesignTokens.Proofs.Assembly.Tracking
import DesignTokens.Proofs.Assembly.Confined
import DesignTokens.Proofs.Assembly.FileOrder
import DesignTokens.Proofs.Reading.Histories
import DesignTokens.Proofs.Project
import DesignTokens.Proofs.Reference.Chain
import DesignTokens.Proofs.Reference.Pointers
import DesignTokens.Proofs.Graph.Moves
import DesignTokens.Proofs.Graph.Journal
import DesignTokens.Proofs.Graph.Remainder
import DesignTokens.Proofs.Text.Ends
import DesignTokens.Proofs.Reference.Runs
import DesignTokens.Proofs.Reference.Canonical
import DesignTokens.Proofs.Graph.Discovery
import DesignTokens.Proofs.Reference.Wording
import DesignTokens.Proofs.Resolution.Loops
