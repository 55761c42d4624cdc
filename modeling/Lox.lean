import Lox.Main
import Lox.Service
import Lox.Proofs.Answers.Plain
import Lox.Proofs.Syntax.RoundTrip.Program
import Lox.Proofs.Syntax.Totality
import Lox.Proofs.Scoping.Addresses
import Lox.Proofs.Lexing.Spelling
import Lox.Proofs.Recovery.Semicolon
import Lox.Proofs.Recovery.Missing
import Lox.Proofs.Lexical.Calls
import Lox.Proofs.Environments.Discipline
import Lox.Proofs.Environments.Graph
import Lox.Proofs.Frames.Reachable
import Lox.Proofs.Loops.ForWhile
import Lox.Proofs.Methods.Receivers
import Lox.Proofs.Outlines.Truncation
import Lox.Proofs.Prompt.Silence
import Lox.Proofs.Sessions.Echo
import Lox.Proofs.Sessions.Idle
import Lox.Proofs.Sessions.Nesting
import Lox.Proofs.Sessions.Outputs
import Lox.Proofs.Tasks.Termination
