import RegexAutomata.Collection.Ascending
import RegexAutomata.Collection.Numbering
import RegexAutomata.Collection.Place
import RegexAutomata.Collection.Table
import RegexAutomata.Dfa.Basic
import RegexAutomata.Dfa.Compare
import RegexAutomata.Dfa.Determinization
import RegexAutomata.Dfa.Direct
import RegexAutomata.Dfa.Run
import RegexAutomata.Dfa.Trace
import RegexAutomata.Exploration
import RegexAutomata.Failure
import RegexAutomata.Graph.Digraph
import RegexAutomata.Graph.Drawing
import RegexAutomata.Json.Basic
import RegexAutomata.Json.Reader
import RegexAutomata.Json.Report
import RegexAutomata.Nfa.Basic
import RegexAutomata.Nfa.Fragment
import RegexAutomata.Nfa.Reach
import RegexAutomata.Position.AnnotatedRegex
import RegexAutomata.Position.FollowTable
import RegexAutomata.Position.MarkedRegex
import RegexAutomata.Regex.Basic
import RegexAutomata.Regex.PostOrder
import RegexAutomata.Regex.SyntaxError
import RegexAutomata.Regex.Token
import RegexAutomata.Service.Address
import RegexAutomata.Service.Analysis
import RegexAutomata.Service.Client
import RegexAutomata.Service.Headers
import RegexAutomata.Service.Host
import RegexAutomata.Service.Message
import RegexAutomata.Service.Rate
import RegexAutomata.Service.Route
import RegexAutomata.Service.Session
import RegexAutomata.Service.Settings
import RegexAutomata.Text.Blank
import RegexAutomata.Text.LetterCase
import RegexAutomata.Text.Numeral
import RegexAutomata.Text.Octets
import RegexAutomata.Text.Printable
import RegexAutomata.Text.Quoted
import RegexAutomata.Proofs.Nfa.Layout
import RegexAutomata.Proofs.Nfa.Path
import RegexAutomata.Proofs.Nfa.FragmentEdges
import RegexAutomata.Proofs.Nfa.FragmentLanguage
import RegexAutomata.Proofs.Nfa.Reachability
import RegexAutomata.Proofs.Exploration
import RegexAutomata.Proofs.Dfa.Walk
import RegexAutomata.Proofs.Position.MarkedLanguage
import RegexAutomata.Proofs.Collection.Traversal
import RegexAutomata.Proofs.Position.Marking
import RegexAutomata.Proofs.Position.FollowTable
import RegexAutomata.Proofs.Exploration.Fresh
import RegexAutomata.Proofs.Dfa.Log
import RegexAutomata.Proofs.Dfa.Direct
import RegexAutomata.Proofs.Dfa.Draft
import RegexAutomata.Proofs.Exploration.Sets
import RegexAutomata.Proofs.Nfa.Reading
import RegexAutomata.Proofs.Dfa.Determinization
import RegexAutomata.Proofs.Regex.Grammar
import RegexAutomata.Proofs.Regex.Shunting
import RegexAutomata.Proofs.Regex.PostOrder
import RegexAutomata.Proofs.Regex.Counting
import RegexAutomata.Proofs.Regex.Parse
import RegexAutomata.Proofs.Position.Neighbours
import RegexAutomata.Proofs.Dfa.Agreement
import RegexAutomata.Proofs.Nfa.Stations
import RegexAutomata.Proofs.Position.Rows
import RegexAutomata.Proofs.Exploration.Limit
import RegexAutomata.Proofs.Exploration.Queue
import RegexAutomata.Proofs.Dfa.Limit
import RegexAutomata.Proofs.Nfa.Assembled
import RegexAutomata.Proofs.Dfa.Homomorphism
import RegexAutomata.Proofs.Dfa.DirectImage
import RegexAutomata.Proofs.Dfa.Run
import RegexAutomata.Proofs.Regex.Literals
import RegexAutomata.Proofs.Dfa.Constructed
import RegexAutomata.Proofs.Service.Analysis
import RegexAutomata.Proofs.Service.Session
import RegexAutomata.Proofs.Dfa.BreakOff
import RegexAutomata.Proofs.Service.Conditions
import RegexAutomata.Proofs.Service.History
import RegexAutomata.Proofs.Service.Reuse
import RegexAutomata.Proofs.Service.Host
import RegexAutomata.Proofs.Dfa.Trim
import RegexAutomata.Proofs.Dfa.Isomorphism
import RegexAutomata.Proofs.Regex.Parentheses
import RegexAutomata.Proofs.Regex.Placement
import RegexAutomata.Proofs.Regex.Diagnosis
import RegexAutomata.Proofs.Service.Refusals
import RegexAutomata.Proofs.Service.Independence
import RegexAutomata.Proofs.Dfa.Representation
import RegexAutomata.Proofs.Dfa.Account
import RegexAutomata.Proofs.Nfa.Crossing
import RegexAutomata.Proofs.Nfa.Shape
import RegexAutomata.Proofs.Dfa.Alphabet
import RegexAutomata.Proofs.Dfa.EqualSize
import RegexAutomata.Proofs.Service.Rate
import RegexAutomata.Proofs.Service.Isolation
import RegexAutomata.Proofs.Nfa.Relocation
import RegexAutomata.Proofs.Exploration.Discovery
import RegexAutomata.Proofs.Dfa.AccessWord
import RegexAutomata.Proofs.Regex.Concatenation
import RegexAutomata.Proofs.Dfa.StrayEdges
import RegexAutomata.Proofs.Dfa.RunRecord
import RegexAutomata.Proofs.Nfa.Closure
import RegexAutomata.Proofs.Dfa.ConversionTable
import RegexAutomata.Proofs.Regex.UnknownNodes
import RegexAutomata.Proofs.Service.Client
import RegexAutomata.Proofs.Exploration.Worklist
import RegexAutomata.Proofs.Dfa.PowersetBound
import RegexAutomata.Proofs.Dfa.IsomorphicLanguages
import RegexAutomata.Proofs.Dfa.Chain
import RegexAutomata.Proofs.Regex.Listing
import RegexAutomata.Proofs.Regex.StandIn
import RegexAutomata.Proofs.Regex.Arrangement
import RegexAutomata.Proofs.Regex.Blame
import RegexAutomata.Proofs.Graph.Source
import RegexAutomata.Proofs.Graph.AutomatonPicture
import RegexAutomata.Proofs.Graph.Sketch
import RegexAutomata.Proofs.Graph.TreePicture
import RegexAutomata.Proofs.Regex.Completion
import RegexAutomata.Proofs.Position.TwoPasses
import RegexAutomata.Proofs.Position.AnnotatedTree
import RegexAutomata.Proofs.Dfa.DeadEnds
