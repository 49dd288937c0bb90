import Lox.Main
import Lox.Host
import Lox.Proofs.Run.Keeping
import Lox.Proofs.Tree.Form
import Lox.Proofs.Store.Search
import Lox.Proofs.Token.Lexeme
import Lox.Proofs.Token.Lines
import Lox.Proofs.Token.Rescanning
import Lox.Proofs.Token.Tiling
import Lox.Proofs.Evaluation.CallLimit
import Lox.Proofs.Evaluation.Keeping
import Lox.Proofs.Evaluation.Scopes
import Lox.Proofs.Alignment.Agreement
import Lox.Proofs.Alignment.Call
import Lox.Proofs.Alignment.Evaluation
import Lox.Proofs.Alignment.Watch
import Lox.Proofs.Binding.Lexical
import Lox.Proofs.Binding.Occurrence
import Lox.Proofs.Binding.Unread
import Lox.Proofs.Grammar.Breaks
import Lox.Proofs.Grammar.Equivariance
import Lox.Proofs.Grammar.Expression
import Lox.Proofs.Grammar.Program
import Lox.Proofs.Grammar.Progress
import Lox.Proofs.Grammar.Recovery
import Lox.Proofs.Grammar.Rereading
import Lox.Proofs.Grammar.RoundTrip
import Lox.Proofs.Renaming.Session
import Lox.Proofs.Session.Construction
import Lox.Proofs.Session.ControlFlow
import Lox.Proofs.Session.Depths
import Lox.Proofs.Session.Dispatch
import Lox.Proofs.Session.Frames
import Lox.Proofs.Session.Joining
import Lox.Proofs.Session.Locals
import Lox.Proofs.Session.Loops
import Lox.Proofs.Session.Output
import Lox.Proofs.Session.Receivers
import Lox.Proofs.Session.Refusal
import Lox.Proofs.Session.Status
