import RoundRobin.CommandLine.Answer
import RoundRobin.CommandLine.Argument
import RoundRobin.CommandLine.Request
import RoundRobin.Failure
import RoundRobin.Formulation.Breaks
import RoundRobin.Formulation.Caps
import RoundRobin.Formulation.Formulate
import RoundRobin.Formulation.Fragment
import RoundRobin.Formulation.Frame
import RoundRobin.Formulation.Goal
import RoundRobin.Formulation.Meetings
import RoundRobin.Formulation.Numbering
import RoundRobin.Formulation.Options
import RoundRobin.Formulation.Pairs
import RoundRobin.Formulation.Rules
import RoundRobin.Formulation.Symbols
import RoundRobin.Gzip.Bits
import RoundRobin.Gzip.Code
import RoundRobin.Gzip.Inflate
import RoundRobin.Gzip.Member
import RoundRobin.Gzip.Symbol
import RoundRobin.IdSet
import RoundRobin.Loader
import RoundRobin.Main
import RoundRobin.Markup.Char
import RoundRobin.Markup.Document
import RoundRobin.Markup.Name
import RoundRobin.Markup.Namespace
import RoundRobin.Markup.Prolog
import RoundRobin.Markup.Reference
import RoundRobin.Markup.Remark
import RoundRobin.Markup.Scan
import RoundRobin.Markup.Tag
import RoundRobin.Markup.Token
import RoundRobin.Markup.Tree
import RoundRobin.Note
import RoundRobin.Rule.Basic
import RoundRobin.Rule.Description
import RoundRobin.Rule.Entry
import RoundRobin.Rule.Kind
import RoundRobin.Rule.Reader
import RoundRobin.Text.Blank
import RoundRobin.Text.Numeral
import RoundRobin.Text.Split
import RoundRobin.Tournament
import RoundRobin.Zimpl.Linear
import RoundRobin.Zimpl.Meaning
import RoundRobin.Zimpl.Printer
import RoundRobin.Zimpl.Program
import RoundRobin.Zimpl.Term
import RoundRobin.Proofs.Numbering.Run
import RoundRobin.Proofs.Meaning.Names
import RoundRobin.Proofs.Season.Timetable
import RoundRobin.Proofs.Zimpl.Declaration
import RoundRobin.Proofs.Meaning.Breaks
import RoundRobin.Proofs.Meaning.Caps
import RoundRobin.Proofs.Meaning.Charges
import RoundRobin.Proofs.Meaning.Frame
import RoundRobin.Proofs.Meaning.Hard
import RoundRobin.Proofs.Meaning.Least
import RoundRobin.Proofs.Meaning.Soft
import RoundRobin.Proofs.Scoping.Frame
import RoundRobin.Proofs.Scoping.Program
import RoundRobin.Proofs.Charging.Strict
import RoundRobin.Proofs.Range.Program
import RoundRobin.Proofs.Written.Formulated
import RoundRobin.Proofs.Written.Renaming
import RoundRobin.Proofs.Format.Line
import RoundRobin.Proofs.Markup.Closing
import RoundRobin.Proofs.Loading
import RoundRobin.Proofs.Pruning
import RoundRobin.Proofs.Reframing
import RoundRobin.Proofs.Relisting
import RoundRobin.Proofs.Numbering.Locality
import RoundRobin.Proofs.Naming.Program
import RoundRobin.Proofs.Charging.Shared
import RoundRobin.Proofs.Meaning.Halves
import RoundRobin.Proofs.Meaning.Balances
import RoundRobin.Proofs.Meaning.Distances
import RoundRobin.Proofs.Meaning.Indicators
import RoundRobin.Proofs.Meaning.Windows
import RoundRobin.Proofs.Meaning.Capacities
import RoundRobin.Proofs.Meaning.Deviations
import RoundRobin.Proofs.Meaning.OddSets
import RoundRobin.Proofs.Meaning.Redundant
import RoundRobin.Proofs.Meaning.Blocks
import RoundRobin.Proofs.Refusing
import RoundRobin.Proofs.Charging.Cutoff
import RoundRobin.Proofs.Written.Evaluation
import RoundRobin.Proofs.Written.Terms
import RoundRobin.Proofs.Written.Variables
import RoundRobin.Proofs.Meaning.Enumeration
import RoundRobin.Proofs.Zimpl.Sums
import RoundRobin.Proofs.Range.Mirrors
import RoundRobin.Proofs.Meaning.Completions
