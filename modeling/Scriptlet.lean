import Scriptlet.Main
import Scriptlet.Proofs.Evaluation.Concatenation
import Scriptlet.Proofs.Evaluation.Entries
import Scriptlet.Proofs.Evaluation.Operands
import Scriptlet.Proofs.Evaluation.Operators
import Scriptlet.Proofs.Evaluation.Reachability
import Scriptlet.Proofs.Evaluation.Renaming
import Scriptlet.Proofs.Grammar.Preference
import Scriptlet.Proofs.Parsing.Insertion
import Scriptlet.Proofs.Parsing.Rejection
import Scriptlet.Proofs.Session.Completeness
import Scriptlet.Proofs.Session.Faults
import Scriptlet.Proofs.Session.Reset
import Scriptlet.Session.Completion
import Scriptlet.Session.Highlight
import Scriptlet.Proofs.Evaluation.Tracing
import Scriptlet.Proofs.Session.Tracing
import Scriptlet.Proofs.Evaluation.Arithmetic
import Scriptlet.Proofs.Session.Arithmetic
import Scriptlet.Proofs.Lexical.Indentation
import Scriptlet.Proofs.Session.Typing
import Scriptlet.Proofs.Session.Entries
import Scriptlet.Proofs.Script.DumpReading
import Scriptlet.Proofs.Parsing.OpenComment
import Scriptlet.Proofs.Parsing.Reserved
import Scriptlet.Proofs.Session.Persistence
import Scriptlet.Proofs.Evaluation.Endings
import Scriptlet.Proofs.Evaluation.Unreached
import Scriptlet.Proofs.Store.Cycles
import Scriptlet.Proofs.Parsing.Literals
import Scriptlet.Proofs.Parsing.Ordering
import Scriptlet.Proofs.Store.Trees
import Scriptlet.Proofs.Grammar.Keys
import Scriptlet.Proofs.Parsing.Keys
import Scriptlet.Proofs.Parsing.Trees
import Scriptlet.Proofs.Evaluation.Trees
import Scriptlet.Proofs.Parsing.Words
import Scriptlet.Proofs.Session.Highlight
import Scriptlet.Proofs.Evaluation.Comparison
import Scriptlet.Proofs.Evaluation.Division
import Scriptlet.Proofs.CommandLine.Arguments
import Scriptlet.Proofs.Evaluation.Declaring
