import BoardGame.Board
import BoardGame.BuiltIn
import BoardGame.Chess.Attack
import BoardGame.Chess.Fen
import BoardGame.Chess.Moves
import BoardGame.CommandLine
import BoardGame.Decimal.Double
import BoardGame.Decimal.Shortest
import BoardGame.Diagram
import BoardGame.Encoding.Frame
import BoardGame.Encoding.MoveIndex
import BoardGame.Encoding.Record
import BoardGame.Error
import BoardGame.Evaluator
import BoardGame.Game
import BoardGame.GameTree
import BoardGame.Main
import BoardGame.Moves.Effect
import BoardGame.Moves.Geometry
import BoardGame.Moves.Successors
import BoardGame.Occupant
import BoardGame.Outcome
import BoardGame.Player
import BoardGame.Position
import BoardGame.Proofs.Board
import BoardGame.Proofs.Moves.Candidates
import BoardGame.Proofs.Moves.Effect
import BoardGame.Proofs.Othello.Outflanking
import BoardGame.Proofs.Ray
import BoardGame.Random
import BoardGame.Registry
import BoardGame.Rules.Basic
import BoardGame.Rules.Construction
import BoardGame.Rules.Template
import BoardGame.Rules.Validation
import BoardGame.Search.MeanValue
import BoardGame.Search.Monad
import BoardGame.Search.MonteCarlo
import BoardGame.Search.Params
import BoardGame.Search.Rollout
import BoardGame.Search.Sampling
import BoardGame.Search.Statistics
import BoardGame.Search.Strategy
import BoardGame.Search.Tally
import BoardGame.SelfPlay
import BoardGame.Session
import BoardGame.Side
import BoardGame.Square
import BoardGame.Text.Blank
import BoardGame.Text.CaseTable
import BoardGame.Text.Integer
import BoardGame.Text.Lowercase
import BoardGame.Proofs.Othello.Moves
import BoardGame.Proofs.Othello.Placement
import BoardGame.Proofs.Othello.Turn
import BoardGame.Proofs.GameTree.Arena
import BoardGame.Proofs.GameTree.Eviction
import BoardGame.Proofs.Succession
import BoardGame.Proofs.GameTree.Coherence
import BoardGame.Proofs.GameTree.Memo
import BoardGame.Proofs.GameTree.History
import BoardGame.Proofs.Chess.Board
import BoardGame.Proofs.Chess.Lines
import BoardGame.Proofs.Chess.Attack
import BoardGame.Proofs.Chess.Invariants
import BoardGame.Proofs.Chess.Agreement
import BoardGame.Proofs.Chess.Effect
import BoardGame.Proofs.Chess.Targets
import BoardGame.Proofs.Chess.Check
import BoardGame.Proofs.Chess.Castling.Engine
import BoardGame.Proofs.Chess.Generator
import BoardGame.Proofs.Chess.Games
import BoardGame.Proofs.Failure
import BoardGame.Proofs.Rules.Validity
import BoardGame.Proofs.Moves.Totality
import BoardGame.Proofs.Moves.Targets
import BoardGame.Proofs.Moves.Generation
import BoardGame.Proofs.Chess.Names
import BoardGame.Proofs.Games
import BoardGame.Proofs.Search.Safety
import BoardGame.Proofs.Search.Players
import BoardGame.Proofs.Session.Line
import BoardGame.Proofs.Session.Settled
import BoardGame.Proofs.Session.Resumption
import BoardGame.Proofs.Session.Commands
import BoardGame.Proofs.Chess.Castling.Rights
import BoardGame.Proofs.Text.Reading
import BoardGame.Proofs.Chess.Fen.Ranks
import BoardGame.Proofs.Chess.Fen.Rights
import BoardGame.Proofs.Chess.Fen.Record
import BoardGame.Proofs.Encoding.Frame
import BoardGame.Proofs.Moves.Reflection
import BoardGame.Proofs.Encoding.Observation
import BoardGame.Proofs.Chess.Templates
import BoardGame.Proofs.Chess.Engines
import BoardGame.Proofs.Ending.Drops
import BoardGame.Proofs.Ending.Games
import BoardGame.Proofs.Encoding.Evaluation
import BoardGame.Proofs.GameTree.Development
import BoardGame.Proofs.Search.Choice
import BoardGame.Proofs.Search.Decision
import BoardGame.Proofs.Chess.Fen.Continuation
import BoardGame.Proofs.GameTree.Sparing
import BoardGame.Proofs.Search.Balance
import BoardGame.Proofs.Search.Conservation
import BoardGame.Proofs.ConnectFour
import BoardGame.Proofs.Encoding.Identity
import BoardGame.Proofs.Audit
import BoardGame.Proofs.GameTree.Questions
import BoardGame.Proofs.GameTree.Ledger
import BoardGame.Proofs.Search.Accounts
import BoardGame.Proofs.Search.Audits
import BoardGame.Proofs.SelfPlay.Accounts
import BoardGame.Proofs.Session.Accounts
import BoardGame.Proofs.SelfPlay.Completion
import BoardGame.Proofs.SelfPlay.Record
import BoardGame.Proofs.GameTree.Bookkeeping
import BoardGame.Proofs.Session.Failures
import BoardGame.Proofs.GameTree.Constancy
import BoardGame.Proofs.Search.EvaluatorFailure
import BoardGame.Proofs.Ending.Lines
import BoardGame.Proofs.Ending.Winners
import BoardGame.Proofs.Chess.Strikes
import BoardGame.Proofs.Ending.Rows
import BoardGame.Proofs.Encoding.Group
import BoardGame.Proofs.Encoding.Policy
import BoardGame.Proofs.Encoding.Symmetry
import BoardGame.Proofs.Repetition
import BoardGame.Proofs.Search.Shares
import BoardGame.Proofs.Chess.Fen.EnPassant
import BoardGame.Proofs.Moves.Accounting
import BoardGame.Proofs.Session.Naming
import BoardGame.Proofs.Search.Selection
import BoardGame.Proofs.Moves.Patterns
