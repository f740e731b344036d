import TreeWalk.Main
import TreeWalk.Proofs.Evaluation.Echo
import TreeWalk.Proofs.Evaluation.Sink
import TreeWalk.Proofs.Evaluation.Slots
import TreeWalk.Proofs.Parser.Order
import TreeWalk.Proofs.Parser.Printing
import TreeWalk.Proofs.Parser.Recovery
import TreeWalk.Proofs.Parser.Restoring
import TreeWalk.Proofs.Parser.Totality
import TreeWalk.Proofs.Scan.Lines
import TreeWalk.Proofs.Scan.Rescanning
import TreeWalk.Proofs.Scan.Trivia
import TreeWalk.Proofs.Scope.Lexical
import TreeWalk.Proofs.Scope.Silencing
import TreeWalk.Proofs.Session.Agreement
import TreeWalk.Proofs.Session.Arguments
import TreeWalk.Proofs.Session.Comparing
import TreeWalk.Proofs.Session.Conversation
import TreeWalk.Proofs.Session.Depth
import TreeWalk.Proofs.Session.Desugaring
import TreeWalk.Proofs.Session.Dispatch
import TreeWalk.Proofs.Session.Globals
import TreeWalk.Proofs.Session.Identities
import TreeWalk.Proofs.Session.Pieces
import TreeWalk.Proofs.Session.Pruning
import TreeWalk.Proofs.Session.Receivers
import TreeWalk.Proofs.Session.Robustness
