import Scriptlet.Token.Lexer
import Scriptlet.Scope.Forest
import Scriptlet.Workspace
import Scriptlet.Main
import Scriptlet.Proofs.WrittenForm
import Scriptlet.Proofs.ExpressionReading
import Scriptlet.Proofs.CursorReading
import Scriptlet.Proofs.AmpleRoom
import Scriptlet.Proofs.ProgramReading
import Scriptlet.Proofs.LexemeShape
import Scriptlet.Proofs.TokenLayout
import Scriptlet.Proofs.AdmittedCharacters
import Scriptlet.Proofs.PrintedLexemes
import Scriptlet.Proofs.PrintedLine
import Scriptlet.Proofs.EffectOrder
import Scriptlet.Proofs.BoundedRun
import Scriptlet.Proofs.NestedEvaluation
import Scriptlet.Proofs.Isolation
import Scriptlet.Proofs.Coordinates
import Scriptlet.Proofs.Relocation
import Scriptlet.Proofs.ProgramText
import Scriptlet.Proofs.ProgramConcatenation
import Scriptlet.Proofs.DiagnosticPlace
import Scriptlet.Proofs.EarliestFault
import Scriptlet.Proofs.RecursiveDescent
import Scriptlet.Proofs.CursorWalk
import Scriptlet.Proofs.CursorPace
import Scriptlet.Proofs.DeepNesting
import Scriptlet.Proofs.NestingGuard
import Scriptlet.Proofs.NumberRoundTrip
import Scriptlet.Proofs.PlainText
import Scriptlet.Proofs.ShownNumber
import Scriptlet.Proofs.CharacterBytes
import Scriptlet.Proofs.TextEncoding
import Scriptlet.Proofs.ReadingElsewhere
import Scriptlet.Proofs.LexerSteps
import Scriptlet.Proofs.LexerHistory
import Scriptlet.Proofs.LexerResumption
import Scriptlet.Proofs.SessionStages
import Scriptlet.Proofs.Respacing
import Scriptlet.Proofs.ProgramLiterals
import Scriptlet.Proofs.Complaints
import Scriptlet.Proofs.NumberLiterals
import Scriptlet.Proofs.LineEndings
import Scriptlet.Proofs.FileRun
import Scriptlet.Proofs.Coincidence
import Scriptlet.Proofs.Renaming
import Scriptlet.Proofs.DataIndependence
import Scriptlet.Proofs.DoubleDivision
import Scriptlet.Proofs.ChainKind
import Scriptlet.Proofs.ScopeHistory
import Scriptlet.Proofs.NumberOrder
import Scriptlet.Proofs.ValueOrder
import Scriptlet.Proofs.NumberHash
import Scriptlet.Proofs.DistinctValues
import Scriptlet.Proofs.TreeEquality
import Scriptlet.Proofs.TreeListing
