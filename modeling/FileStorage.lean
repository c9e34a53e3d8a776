import FileStorage.Lib.Run
import FileStorage.Lib.Chain
import FileStorage.Storage.Model
import FileStorage.Storage.Store
import FileStorage.Storage.Total
import FileStorage.Storage.Links
import FileStorage.Storage.Rep
import FileStorage.Worker.Model
import FileStorage.Worker.Steps
import FileStorage.Worker.Cases
import FileStorage.Worker.Sequential
import FileStorage.Worker.Retained
import FileStorage.Worker.Alone
import FileStorage.Worker.Lookup
import FileStorage.Worker.Insertion
import FileStorage.Worker.Scan
import FileStorage.Worker.Room
import FileStorage.Worker.ReadN
import FileStorage.Worker.Holding
import FileStorage.System.Model
import FileStorage.System.Base
import FileStorage.System.Ownership
import FileStorage.System.Pointers
import FileStorage.System.Ledger
import FileStorage.System.Content
import FileStorage.System.Capacity
import FileStorage.System.Connection
import FileStorage.System.Names
import FileStorage.System.Statistics
import FileStorage.System.Atomic
import FileStorage.System.Protocol
import FileStorage.System.Reports
import FileStorage.System.Bounded
import FileStorage.Service.Shutdown
import FileStorage.Service.Holding
import FileStorage.Dispatcher.Steps
import FileStorage.Dispatcher.Tokens
import FileStorage.Dispatcher.Clients
import FileStorage.Dispatcher.Pass
import FileStorage.Dispatcher.Stop
import FileStorage.RequestQueue.Model
import FileStorage.RequestQueue.Refines
import FileStorage.Shutdown.Model
import FileStorage.Shutdown.Steps
import FileStorage.Shutdown.Wakeup
import FileStorage.Shutdown.Drain
import FileStorage.Wire.Requests
import FileStorage.Wire.Answers
import FileStorage.Wire.Truncated
import FileStorage.Wire.Fields
import FileStorage.Wire.Partial
import FileStorage.Wire.Buffers
import FileStorage.Configuration.Limits
import FileStorage.Configuration.Format
import FileStorage.Configuration.Lines
import FileStorage.Client.Connect
import FileStorage.Client.Model
import FileStorage.Client.Directory
import FileStorage.Client.Connection
import FileStorage.Client.Session
import FileStorage.Client.CommandLine
import FileStorage.Client.Saving
import FileStorage.Service.Backup
import FileStorage.Service.Copies
