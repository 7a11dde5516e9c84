import FeatureFlags.CommandLine
import FeatureFlags.Decimal
import FeatureFlags.Description
import FeatureFlags.Disk
import FeatureFlags.Entry
import FeatureFlags.Error
import FeatureFlags.Evaluator
import FeatureFlags.FileSystem.Change
import FeatureFlags.FileSystem.Fault
import FeatureFlags.FileSystem.Tree
import FeatureFlags.FileSystem.Walk
import FeatureFlags.Fragments
import FeatureFlags.Generation
import FeatureFlags.Graph
import FeatureFlags.Line
import FeatureFlags.Log.Event
import FeatureFlags.Log.Filter
import FeatureFlags.Log.Pattern
import FeatureFlags.Main
import FeatureFlags.Overrides
import FeatureFlags.Path
import FeatureFlags.Program
import FeatureFlags.Proofs.Batches
import FeatureFlags.Proofs.ByteOrder
import FeatureFlags.Proofs.Contents
import FeatureFlags.Proofs.Cycles
import FeatureFlags.Proofs.Directories
import FeatureFlags.Proofs.Entries
import FeatureFlags.Proofs.Equations
import FeatureFlags.Proofs.Expansions
import FeatureFlags.Proofs.Failures
import FeatureFlags.Proofs.Histories
import FeatureFlags.Proofs.Linking
import FeatureFlags.Proofs.Numbering
import FeatureFlags.Proofs.Outcomes
import FeatureFlags.Proofs.Overriding
import FeatureFlags.Proofs.Pairs
import FeatureFlags.Proofs.Paths
import FeatureFlags.Proofs.ReadingBack
import FeatureFlags.Proofs.Reference
import FeatureFlags.Proofs.Replacing
import FeatureFlags.Proofs.Rotations
import FeatureFlags.Proofs.Settling
import FeatureFlags.Proofs.Trees
import FeatureFlags.Proofs.Visiting
import FeatureFlags.Proofs.Walking
import FeatureFlags.Proofs.Words
import FeatureFlags.Resolution
import FeatureFlags.Settings
import FeatureFlags.SettingsFile
import FeatureFlags.Staging
import FeatureFlags.Table
import FeatureFlags.Text
import FeatureFlags.Text.Alphanumeric
import FeatureFlags.Text.Digits
import FeatureFlags.Yaml.Block
import FeatureFlags.Yaml.Character
import FeatureFlags.Yaml.Cursor
import FeatureFlags.Yaml.Folding
import FeatureFlags.Yaml.Lexer
import FeatureFlags.Yaml.Node
import FeatureFlags.Yaml.Number
import FeatureFlags.Yaml.Plain
import FeatureFlags.Yaml.Quoted
import FeatureFlags.Yaml.Scalar
import FeatureFlags.Yaml.Tag
import FeatureFlags.Yaml.Token
import FeatureFlags.Yaml.Writer
import FeatureFlags.Proofs.Locality
import FeatureFlags.Proofs.LiveText
import FeatureFlags.Proofs.Declarations
import FeatureFlags.Proofs.Layouts
import FeatureFlags.Proofs.Headings
import FeatureFlags.Proofs.Bystanders
import FeatureFlags.Proofs.Sessions
import FeatureFlags.Proofs.Repetitions
import FeatureFlags.Proofs.Quoting
import FeatureFlags.Proofs.Literals
import FeatureFlags.Proofs.PlainTexts
import FeatureFlags.Proofs.Scanning
import FeatureFlags.Proofs.Mappings
import FeatureFlags.Proofs.SettingsFiles
import FeatureFlags.Proofs.OpenFiles
import FeatureFlags.Proofs.Causes
import FeatureFlags.Proofs.OverrideTexts
import FeatureFlags.Proofs.Listings
import FeatureFlags.Proofs.Lookups
import FeatureFlags.Proofs.OverrideLines
import FeatureFlags.Proofs.MacroNames
import FeatureFlags.Proofs.Columns
import FeatureFlags.Proofs.Components
import FeatureFlags.Proofs.Traversals
import FeatureFlags.Proofs.Ledgers
