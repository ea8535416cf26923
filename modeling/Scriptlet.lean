import Scriptlet.Bytes
import Scriptlet.Command.Arguments
import Scriptlet.Command.Folder
import Scriptlet.Command.Quoted
import Scriptlet.Command.Report
import Scriptlet.Evaluation
import Scriptlet.Grammar.Level
import Scriptlet.Grammar.Rule
import Scriptlet.Json
import Scriptlet.Main
import Scriptlet.Numeral
import Scriptlet.Proofs.Agreement
import Scriptlet.Proofs.BufferBounds
import Scriptlet.Proofs.ByteCursor
import Scriptlet.Proofs.ByteCursorSteps
import Scriptlet.Proofs.Canonical
import Scriptlet.Proofs.Completeness
import Scriptlet.Proofs.Containment
import Scriptlet.Proofs.Cursor
import Scriptlet.Proofs.CursorReading
import Scriptlet.Proofs.CursorSteps
import Scriptlet.Proofs.DeclareBeforeUse
import Scriptlet.Proofs.Delivery
import Scriptlet.Proofs.Depth
import Scriptlet.Proofs.DepthBalance
import Scriptlet.Proofs.EarliestFault
import Scriptlet.Proofs.FaultPositions
import Scriptlet.Proofs.FirstFault
import Scriptlet.Proofs.FrameChain
import Scriptlet.Proofs.FrameWalks
import Scriptlet.Proofs.JoinedItems
import Scriptlet.Proofs.Joining
import Scriptlet.Proofs.Layout
import Scriptlet.Proofs.LevelInduction
import Scriptlet.Proofs.Lexeme
import Scriptlet.Proofs.LineNumbers
import Scriptlet.Proofs.LocalUpdates
import Scriptlet.Proofs.LongestMatch
import Scriptlet.Proofs.Lookahead
import Scriptlet.Proofs.MovedText
import Scriptlet.Proofs.NumeralTexts
import Scriptlet.Proofs.Octets
import Scriptlet.Proofs.OperatorArms
import Scriptlet.Proofs.Outlines
import Scriptlet.Proofs.Payloads
import Scriptlet.Proofs.Phrases
import Scriptlet.Proofs.Pieces
import Scriptlet.Proofs.Postcondition
import Scriptlet.Proofs.PrefixForms
import Scriptlet.Proofs.PrintedStrings
import Scriptlet.Proofs.Reading
import Scriptlet.Proofs.Recovery
import Scriptlet.Proofs.Refinement
import Scriptlet.Proofs.Relayout
import Scriptlet.Proofs.Respacing
import Scriptlet.Proofs.ScopeDiscipline
import Scriptlet.Proofs.ScopeStack
import Scriptlet.Proofs.SharedFrames
import Scriptlet.Proofs.ShortestDecimals
import Scriptlet.Proofs.SilentPrefix
import Scriptlet.Proofs.Soundness
import Scriptlet.Proofs.SourceOrder
import Scriptlet.Proofs.Spelling
import Scriptlet.Proofs.Transcript
import Scriptlet.Proofs.TransparentBlocks
import Scriptlet.Proofs.TreeHeight
import Scriptlet.Proofs.Truncation
import Scriptlet.Proofs.Viability
import Scriptlet.Scope
import Scriptlet.Session
import Scriptlet.Token
import Scriptlet.Token.Segment
import Scriptlet.Token.Stream
import Scriptlet.Tree
import Scriptlet.Value
import Scriptlet.Workbench
