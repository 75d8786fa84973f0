import SysProg.Lib.Runs
import SysProg.Lib.ByteFile
import SysProg.Lib.CString
import SysProg.Lib.Packed
import SysProg.Lib.PriorityQueue
import SysProg.Lib.FirstFit
import SysProg.Lib.Listings
import SysProg.MufaFs.Format
import SysProg.MufaFs.Instance
import SysProg.MufaFs.Layout
import SysProg.MufaFs.Directory
import SysProg.MufaFs.WriteFile
import SysProg.MufaFs.Invariant
import SysProg.MufaFs.Steps
import SysProg.MufaFs.Session
import SysProg.MufaFs.Mount
import SysProg.MufaFs.Reachable
import SysProg.MufaFs.Creation
import SysProg.MufaFs.Ownership
import SysProg.MufaFs.RoundTrip
import SysProg.MufaFs.Sync
import SysProg.MufaFs.Exhaustion
import SysProg.MufaFs.Effects
import SysProg.MufaFs.CurrentDirectory
import SysProg.MufaFs.Tree
import SysProg.Lib.CInt
import SysProg.Lib.Tokens
import SysProg.Simulation.PQueue
import SysProg.Simulation.Model
import SysProg.Simulation.Invariant
import SysProg.Simulation.Moves
import SysProg.Simulation.Ticks
import SysProg.Simulation.Conservation
import SysProg.Simulation.Safety
import SysProg.Simulation.Deadlock
import SysProg.Simulation.Fifo
import SysProg.Simulation.Capacity
import SysProg.Simulation.Accounting
import SysProg.Lib.Monitor
import SysProg.Spellchecker.Queue
import SysProg.Spellchecker.Respond
import SysProg.Mufash.Lexer
import SysProg.Mufash.Batch
import SysProg.Mufash.Escape
import SysProg.Mufash.Grammar
import SysProg.MufaFs.Regions
import SysProg.MufaFs.Names
import SysProg.MufaFs.Removal
import SysProg.MufaFs.Reclaim
import SysProg.MufaFs.Load
import SysProg.MufaFs.Remount
import SysProg.MufaFs.AllOrNothing
import SysProg.Mufash.Executor
import SysProg.Mufash.Pipeline
import SysProg.Simulation.PriorityList
import SysProg.Simulation.LogBuffer
import SysProg.MufaFs.InodeQueue
import SysProg.Mufash.Quoting
import SysProg.Lib.Fields
import SysProg.Mufash.Stream
import SysProg.Mufash.Segments
import SysProg.Simulation.ReadConf
import SysProg.Simulation.Draws
import SysProg.Simulation.ServiceTimes
import SysProg.Lib.Sojourn
import SysProg.Simulation.Network
import SysProg.Simulation.Telemetry
import SysProg.Lib.Paths
import SysProg.MufaFs.FileSystem
import SysProg.MufaFs.Items
import SysProg.MufaFs.Refinement
import SysProg.Mufash.Letters
import SysProg.MufaFs.Shell
import SysProg.MufaFs.OnDrive
import SysProg.MufaFs.Durability
import SysProg.Simulation.Progress
import SysProg.Lib.Clients
import SysProg.Spellchecker.Sockets
import SysProg.Spellchecker.Server
import SysProg.Spellchecker.Sessions
import SysProg.Lib.Work
import SysProg.Spellchecker.Rest
import SysProg.Mufash.Returns
