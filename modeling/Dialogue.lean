import Dialogue.Criterion
import Dialogue.Database
import Dialogue.Decimal.Numeral
import Dialogue.Decimal.Style
import Dialogue.Facts.Basic
import Dialogue.Files.Basic
import Dialogue.Group.Selection
import Dialogue.Main
import Dialogue.Proofs.Act
import Dialogue.Proofs.AtWork
import Dialogue.Proofs.BestRule
import Dialogue.Proofs.Database
import Dialogue.Proofs.Decimal.Numeral
import Dialogue.Proofs.Decimal.Order
import Dialogue.Proofs.Decimal.Sum
import Dialogue.Proofs.Decimal.Whole
import Dialogue.Proofs.Diagnostics
import Dialogue.Proofs.Equality
import Dialogue.Proofs.FactStore
import Dialogue.Proofs.Group.Draw
import Dialogue.Proofs.Group.Faults
import Dialogue.Proofs.Group.Histories
import Dialogue.Proofs.Group.Lending
import Dialogue.Proofs.Group.NoRepeat
import Dialogue.Proofs.Group.Rejected
import Dialogue.Proofs.Group.Reservoir
import Dialogue.Proofs.Group.Round
import Dialogue.Proofs.Group.Run
import Dialogue.Proofs.Group.Sequential
import Dialogue.Proofs.Group.Step
import Dialogue.Proofs.Group.Success
import Dialogue.Proofs.Group.Without
import Dialogue.Proofs.History
import Dialogue.Proofs.MatchOnce
import Dialogue.Proofs.Matcher
import Dialogue.Proofs.Overlay
import Dialogue.Proofs.Query
import Dialogue.Proofs.QueryFaults
import Dialogue.Proofs.Redirects
import Dialogue.Proofs.Reference
import Dialogue.Proofs.Relevance
import Dialogue.Proofs.Reset
import Dialogue.Proofs.Responder.Derivation
import Dialogue.Proofs.Responder.Reload
import Dialogue.Proofs.Scoring
import Dialogue.Proofs.Script.Bodies
import Dialogue.Proofs.Script.Compile
import Dialogue.Proofs.Script.CriterionText
import Dialogue.Proofs.Script.Ending
import Dialogue.Proofs.Script.Faults
import Dialogue.Proofs.Script.Frame
import Dialogue.Proofs.Script.GroupText
import Dialogue.Proofs.Script.History
import Dialogue.Proofs.Script.Inclusion
import Dialogue.Proofs.Script.InlineLayout
import Dialogue.Proofs.Script.InlineNames
import Dialogue.Proofs.Script.Load
import Dialogue.Proofs.Script.Lookahead
import Dialogue.Proofs.Script.Reading
import Dialogue.Proofs.Script.Rendering
import Dialogue.Proofs.Script.RuleMeaning
import Dialogue.Proofs.Script.Seams
import Dialogue.Proofs.Script.Stack
import Dialogue.Proofs.Settings
import Dialogue.Proofs.Statement
import Dialogue.Proofs.Text.Fold
import Dialogue.Proofs.Vetoes
import Dialogue.Query
import Dialogue.Responder.Master
import Dialogue.Script.Compile
import Dialogue.Script.Keyword
import Dialogue.Script.Load
import Dialogue.Script.Reading
import Dialogue.Settings.Value
import Dialogue.Source
import Dialogue.Table
import Dialogue.Text.Character
import Dialogue.Text.Fold
import Dialogue.Text.Layout
