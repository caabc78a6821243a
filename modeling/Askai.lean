import Askai.Ledger.Tell
import Askai.Ledger.Handshake
import Askai.Loop.Wakeup
import Askai.Httpd.Bodies
import Askai.Sse.Reading
import Askai.Journal.Cache
import Askai.Httpd.Framing
import Askai.Home.Breaker
import Askai.Home.Reassembly
import Askai.Jb.Cost
import Askai.Notes.Revision
import Askai.Notes.Writes
import Askai.Notes.View
import Askai.Notes.History
import Askai.Plugin.Uses
import Askai.Policy.Grants
import Askai.Policy.Ranges
import Askai.Git.Admitted
import Askai.Calls.Order
import Askai.Calls.Windows
import Askai.Door.Balance
import Askai.Lanes.Words
import Askai.Log.Lines
import Askai.Relief.Trim
import Askai.Httpd.Overrun
import Askai.Httpd.Delivery
import Askai.Util.Strings
import Askai.Util.Queue
import Askai.Util.Release
import Askai.Loop.Handles
import Askai.Loop.Firing
import Askai.Review.Windows
import Askai.Autocomplete.Sorted
import Askai.Web.Bounds
import Askai.Loop.Served
import Askai.Util.DataUri
import Askai.Sse.Feed
import Askai.Notes.Notice
import Askai.Roster.Cancels
import Askai.Godbolt.Grammar
import Askai.Util.DstrRuns
import Askai.Cli.Writers
import Askai.Util.Hist
import Askai.Cli.Terminal
import Askai.Plugin.File
import Askai.Plugin.Manifest
import Askai.Godbolt.Block
import Askai.Cli.Discovery
import Askai.Cli.Repaint
import Askai.Home.Heard
