import ContextFree.Analysis
import ContextFree.Arrangement
import ContextFree.Chains
import ContextFree.Command.Argument
import ContextFree.Command.Host
import ContextFree.Command.Options
import ContextFree.Command.Run
import ContextFree.Command.Usage
import ContextFree.Command.Workspace
import ContextFree.Decimal.Double
import ContextFree.Decimal.Notation
import ContextFree.Decimal.Shortest
import ContextFree.Event.Record
import ContextFree.Event.Sink
import ContextFree.Event.Stamp
import ContextFree.Event.Value
import ContextFree.Fault
import ContextFree.Fixpoint
import ContextFree.Grammar.Basic
import ContextFree.Grammar.Draft
import ContextFree.Grammar.Edit
import ContextFree.Grammar.Layout
import ContextFree.Grammar.Revision
import ContextFree.Grammar.Spelling
import ContextFree.Graph
import ContextFree.Grouping
import ContextFree.Isolation
import ContextFree.Language
import ContextFree.Listing.Line
import ContextFree.Listing.Reader
import ContextFree.Listing.Writer
import ContextFree.Main
import ContextFree.NameSupply
import ContextFree.NormalForm
import ContextFree.Normalization.Run
import ContextFree.Normalization.Stage
import ContextFree.Omission
import ContextFree.Raw
import ContextFree.Raw.Order
import ContextFree.Rule
import ContextFree.Sample
import ContextFree.Symbol
import ContextFree.Text.Blank
import ContextFree.Text.Digit
import ContextFree.Text.Lines
import ContextFree.Text.Printable
import ContextFree.Text.Quoted
import ContextFree.Trim
import ContextFree.UnitRules
import ContextFree.Proofs.Derivation
import ContextFree.Proofs.Edits
import ContextFree.Proofs.Fixpoint
import ContextFree.Proofs.Search
import ContextFree.Proofs.Analysis
import ContextFree.Proofs.Shape
import ContextFree.Proofs.Omission
import ContextFree.Proofs.UnitRules
import ContextFree.Proofs.Trim
import ContextFree.Proofs.FreshNames
import ContextFree.Proofs.Abbreviation
import ContextFree.Proofs.Isolation
import ContextFree.Proofs.Chains
import ContextFree.Proofs.Normalization
import ContextFree.Proofs.ParseTree
import ContextFree.Proofs.Usefulness
import ContextFree.Proofs.Operations
import ContextFree.Proofs.Building
import ContextFree.Proofs.Spelling
import ContextFree.Proofs.Command
import ContextFree.Proofs.Texts
import ContextFree.Proofs.Lines
import ContextFree.Proofs.Writing
import ContextFree.Proofs.RoundTrip
import ContextFree.Proofs.Output
import ContextFree.Proofs.Iteration
import ContextFree.Proofs.Schedules
import ContextFree.Proofs.Faults
import ContextFree.Proofs.Ledger
import ContextFree.Proofs.Copying
import ContextFree.Proofs.History
import ContextFree.Proofs.Elimination
import ContextFree.Proofs.Stability
import ContextFree.Proofs.Accounts
import ContextFree.Proofs.Arguments
import ContextFree.Proofs.Storage
import ContextFree.Proofs.Execution
import ContextFree.Proofs.Conduct
import ContextFree.Proofs.Binarization
import ContextFree.Proofs.Exactness
import ContextFree.Proofs.Pruning
import ContextFree.Proofs.Recasting
import ContextFree.Proofs.Refusals
import ContextFree.Proofs.Confluence
import ContextFree.Proofs.Repetition
import ContextFree.Proofs.Supplies
import ContextFree.Proofs.RuleLists
import ContextFree.Proofs.Values
import ContextFree.Proofs.EventFile
import ContextFree.Proofs.Worklists
