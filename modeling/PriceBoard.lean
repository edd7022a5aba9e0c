import PriceBoard.Board.ChangeLog
import PriceBoard.Board.Layout
import PriceBoard.Desk
import PriceBoard.Feed.Rehearsal
import PriceBoard.Feed.Survey
import PriceBoard.Hub.Locks
import PriceBoard.Hub.Machine
import PriceBoard.Rate.Wire
import PriceBoard.Screen.Observer
import PriceBoard.Task.Workload
import PriceBoard.Proofs.Hub.Trace
import PriceBoard.Proofs.Hub.Sections
import PriceBoard.Proofs.Subscription.Handles
import PriceBoard.Proofs.Hub.Delivery
import PriceBoard.Proofs.Hub.Order
import PriceBoard.Proofs.Hub.Window
import PriceBoard.Proofs.Rate.Latest
import PriceBoard.Proofs.Hub.Replay
import PriceBoard.Proofs.Board.Rows
import PriceBoard.Proofs.Screen.Turns
import PriceBoard.Proofs.Screen.Pulses
import PriceBoard.Proofs.Screen.InFlight
import PriceBoard.Proofs.Screen.Highlights
import PriceBoard.Proofs.Board.Agreement
import PriceBoard.Proofs.Screen.Agreement
import PriceBoard.Proofs.Hub.Forwarding
import PriceBoard.Proofs.Hub.Alone
import PriceBoard.Proofs.Desk.Session
import PriceBoard.Proofs.Desk.Runs
import PriceBoard.Proofs.Desk.Closing
import PriceBoard.Proofs.Desk.Order
import PriceBoard.Proofs.Desk.Convergence
import PriceBoard.Proofs.Hub.Table
import PriceBoard.Proofs.Board.Product
import PriceBoard.Proofs.Screen.Handling
import PriceBoard.Proofs.Decimal.Doubles
import PriceBoard.Proofs.Decimal.Nearest
import PriceBoard.Proofs.Decimal.Scientific
import PriceBoard.Proofs.Decimal.ReadBack
import PriceBoard.Proofs.Decimal.Digits
import PriceBoard.Proofs.Json.Numbers
import PriceBoard.Proofs.Json.Strings
import PriceBoard.Proofs.Time.Calendar
import PriceBoard.Proofs.Time.Rfc3339
import PriceBoard.Proofs.Rate.Draft
import PriceBoard.Proofs.Rate.Wire
import PriceBoard.Proofs.Hub.Locking
import PriceBoard.Proofs.Hub.Gauge
import PriceBoard.Proofs.Hub.Accounts
import PriceBoard.Proofs.Desk.Clock
import PriceBoard.Proofs.Decimal.Equality
import PriceBoard.Proofs.Row.Highlight
import PriceBoard.Proofs.Row.Notices
import PriceBoard.Proofs.Board.Mirror
import PriceBoard.Proofs.Row.Steps
import PriceBoard.Proofs.Subscription.History
import PriceBoard.Proofs.Feed.Ticks
import PriceBoard.Proofs.Settings.Loading
import PriceBoard.Proofs.Screen.Counting
import PriceBoard.Proofs.Rate.Upserts
import PriceBoard.Proofs.Screen.Schedule
import PriceBoard.Proofs.Row.Fade
import PriceBoard.Proofs.Rate.Quotes
import PriceBoard.Proofs.Notifier.Windows
