import LoxLang.Main
import LoxLang.Scoping.Occurrence
import LoxLang.Proofs.Addressing.Lawful
import LoxLang.Proofs.Running.Calls
import LoxLang.Proofs.Grammar.Exact.Statements
import LoxLang.Proofs.Grammar.Branches
import LoxLang.Proofs.Sessions.Outcomes
import LoxLang.Proofs.Sessions.Lexical
import LoxLang.Proofs.Lexical.Steps
import LoxLang.Proofs.Lexical.Objects
import LoxLang.Proofs.Running.Restoring
import LoxLang.Proofs.Sessions.Restoring
import LoxLang.Proofs.Sessions.Rejection
import LoxLang.Proofs.Relining
import LoxLang.Proofs.Relining.Phrases
import LoxLang.Proofs.Relining.Running
import LoxLang.Proofs.Relining.Scanning
import LoxLang.Proofs.Relining.Walking
import LoxLang.Proofs.Sessions.Joining
import LoxLang.Proofs.Sessions.Receivers
import LoxLang.Proofs.Scanning.Division
import LoxLang.Proofs.Scanning.Positions
import LoxLang.Proofs.Scanning.Separators
import LoxLang.Proofs.Heap.Traces
import LoxLang.Proofs.FrontEnd
import LoxLang.Proofs.Sessions.Renaming
import LoxLang.Proofs.Sessions.Scripts
import LoxLang.Proofs.Mentions.Resolution
import LoxLang.Proofs.Writing.Parsing
import LoxLang.Proofs.Recovery
import LoxLang.Proofs.Sessions.Loops
import LoxLang.Proofs.Sessions.Inheritance
import LoxLang.Proofs.Sessions.Calls
import LoxLang.Proofs.Sessions.Activations
import LoxLang.Proofs.Sessions.Properties
import LoxLang.Proofs.Sessions.Blame
import LoxLang.Proofs.Printing.Programs
import LoxLang.Proofs.Addressing.Declaring
import LoxLang.Proofs.Heap.Accesses
import LoxLang.Proofs.Sessions.Equality
import LoxLang.Proofs.Sessions.Growth
