import Outline.Config.Environment
import Outline.Node.Json
import Outline.Service.Faults
import Outline.Service.Request
import Outline.Store.Database
import Outline.Store.Indexed
import Outline.Proofs.Placement.Order
import Outline.Proofs.Placement.CarriedOut
import Outline.Proofs.Forest.Basic
import Outline.Proofs.Forest.Change
import Outline.Proofs.Forest.Branch
import Outline.Proofs.Indexed.Commit
import Outline.Proofs.Indexed.View
import Outline.Proofs.Indexed.Place
import Outline.Proofs.Indexed.Moves
import Outline.Proofs.Indexed.Edits
import Outline.Proofs.Indexed.Runs
import Outline.Proofs.Table.View
import Outline.Proofs.Table.FreeRun
import Outline.Proofs.Table.Write
import Outline.Proofs.Table.Moves
import Outline.Proofs.Table.Edits
import Outline.Proofs.Table.Remove
import Outline.Proofs.Table.Runs
import Outline.Proofs.Forest.Position
import Outline.Proofs.Invariants
import Outline.Proofs.Json.Text
import Outline.Proofs.Timestamp.Text
import Outline.Proofs.Agreement.Mirror
import Outline.Proofs.Indexed.Answers
import Outline.Proofs.Table.Answers
import Outline.Proofs.Table.Statements
import Outline.Proofs.Table.Twin
import Outline.Proofs.Agreement.Stores
import Outline.Proofs.Agreement.Programs
import Outline.Proofs.Agreement.Requests
import Outline.Proofs.Agreement.Runs
import Outline.Proofs.Agreement.Calls
import Outline.Proofs.Service.Reading
import Outline.Proofs.Service.AllOrNothing
import Outline.Store.InPlace
import Outline.Store.Indexed.InPlace
import Outline.Proofs.InPlace.Indexed
import Outline.Store.Database.Connection
import Outline.Proofs.InPlace.Refusals
import Outline.Proofs.Arrangement.Basic
import Outline.Proofs.Stored
import Outline.Proofs.Arrangement.Indexed
import Outline.Proofs.Arrangement.Table
import Outline.Proofs.Arrangement.Runs
import Outline.Proofs.Decimal.Ratio
import Outline.Proofs.Decimal.ReadBack
import Outline.Proofs.Json.Numeral
import Outline.Proofs.Exhaustion
import Outline.Proofs.Alone.Calls
import Outline.Proofs.Alone.Programs
import Outline.Proofs.Alone.History
import Outline.Proofs.Alone.Runs
import Outline.Proofs.Alone.Reuse
import Outline.Proofs.ReadBack
import Outline.Proofs.Undated
import Outline.Proofs.Excerpt.Basic
import Outline.Proofs.Excerpt.Indexed
import Outline.Proofs.Excerpt.Rows
import Outline.Proofs.Excerpt.Table
import Outline.Proofs.Excerpt.Linked
import Outline.Proofs.Excerpt.Places
import Outline.Proofs.Excerpt.Spaces
import Outline.Proofs.Json.Nodes
import Outline.Proofs.Placement.Words
import Outline.Proofs.Placement.Room
import Outline.Proofs.Removal
import Outline.Proofs.Branch.Grown
import Outline.Proofs.Branch.Trees
import Outline.Proofs.Branch.Reading
import Outline.Proofs.Branch.Rows
import Outline.Proofs.Branch.Live
import Outline.Proofs.Branch.Runs
import Outline.Proofs.Service.Checks
import Outline.Proofs.Service.Retries
import Outline.Proofs.Placement.Again
import Outline.Proofs.Reorder
import Outline.Proofs.Legible
import Outline.Proofs.Climbing
import Outline.Proofs.Renumbering
import Outline.Proofs.Refreshed
import Outline.Proofs.Appending
import Outline.Proofs.Table.Room
import Outline.Proofs.InPlace.Commit
import Outline.Proofs.Environment
import Outline.Proofs.Json.Patches
import Outline.Proofs.Table.RecursiveQuery
import Outline.Proofs.Table.ReadAhead
