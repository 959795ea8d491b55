import SocketTrail.Foundation.KeyedMap
import SocketTrail.Foundation.Grouping
import SocketTrail.Foundation.Permute
import SocketTrail.Foundation.Execution
import SocketTrail.Net.Address
import SocketTrail.Net.Process
import SocketTrail.Net.Reach
import SocketTrail.Net.SocketOwners
import SocketTrail.Net.ProcStat
import SocketTrail.Recording.Group
import SocketTrail.State.Versions
import SocketTrail.State.EvictOrder
import SocketTrail.State.Store
import SocketTrail.State.Enrich
import SocketTrail.State.Rows
import SocketTrail.State.UdpTable
import SocketTrail.Attribution.Counted
import SocketTrail.Attribution.Udp
import SocketTrail.Attribution.Tcp
import SocketTrail.Attribution.Shared
import SocketTrail.Foundation.Json
import SocketTrail.Recording.Meta
import SocketTrail.Recording.Plan
import SocketTrail.Recording.Dates
import SocketTrail.Recording.Session
import SocketTrail.Recording.Survival
import SocketTrail.Recording.Foreign
import SocketTrail.Foundation.Bytes
import SocketTrail.Foundation.Text
import SocketTrail.Foundation.Unicode
import SocketTrail.Foundation.Reassembly
import SocketTrail.Pcap.Frame
import SocketTrail.Pcap.Hello
import SocketTrail.Pcap.Dns
import SocketTrail.Pcap.Tls
import SocketTrail.Pcap.TlsHello
import SocketTrail.Pcap.Quic
import SocketTrail.Pcap.QuicFrames
import SocketTrail.Pcap.QuicHello
import SocketTrail.Pcap.QuicSeal
import SocketTrail.Pcap.Bounds
import SocketTrail.Foundation.Exec
import SocketTrail.Pcap.HelloExec
import SocketTrail.Pcap.PacketExec
import SocketTrail.Pcap.QuicExec
import SocketTrail.Pcap.TlsExec
import SocketTrail.Pcap.LinkExec
import SocketTrail.Pcap.Contradiction
import SocketTrail.Pcap.LinkHeader
import SocketTrail.Pcap.IpHeader
import SocketTrail.Pcap.Encapsulation
import SocketTrail.Pcap.DnsName
import SocketTrail.Pcap.DnsExact
import SocketTrail.Pcap.DnsExec
import SocketTrail.Pcap.DnsRecords
import SocketTrail.Pcap.DnsMessage
import SocketTrail.Pcap.DnsChains
import SocketTrail.Pcap.DnsOrder
import SocketTrail.Pcap.DnsUnused
import SocketTrail.Pcap.HelloSyntax
import SocketTrail.Pcap.Padding
import SocketTrail.Pcap.Finished
import SocketTrail.Pcap.Live
import SocketTrail.Pcap.Reader
import SocketTrail.Annotate.Block
import SocketTrail.Annotate.Apply
import SocketTrail.Annotate.Filter
import SocketTrail.Annotate.Rewrite
import SocketTrail.Recording.Dump
import SocketTrail.Recording.Finish
import SocketTrail.Program.App
import SocketTrail.Program.Operations
import SocketTrail.Program.Accounting
import SocketTrail.Program.World
import SocketTrail.Program.Exclusion
import SocketTrail.Program.Shutdown
import SocketTrail.State.Eviction
import SocketTrail.State.Independence
import SocketTrail.State.RowRule
import SocketTrail.History.Counters
import SocketTrail.History.Consistency
import SocketTrail.History.Naming
import SocketTrail.History.PtrNames
import SocketTrail.History.DnsNames
import SocketTrail.State.Cache
import SocketTrail.History.Restart
import SocketTrail.History.NameBounds
import SocketTrail.State.Owners
import SocketTrail.State.Ceiling
import SocketTrail.History.Sni
import SocketTrail.Net.Sockets
import SocketTrail.State.Generations
import SocketTrail.State.Matching
import SocketTrail.State.PollRow
import SocketTrail.State.RowOrder
import SocketTrail.History.Reread
import SocketTrail.Program.View
import SocketTrail.Pcap.Desync
import SocketTrail.Program.Summary
import SocketTrail.Program.SummaryOrder
import SocketTrail.Program.Selection
import SocketTrail.Program.Instances
import SocketTrail.Annotate.Agreement
import SocketTrail.Annotate.Interfaces
import SocketTrail.Foundation.Buffered
import SocketTrail.Foundation.Directory
import SocketTrail.Etw.Format
import SocketTrail.Etw.Worker
import SocketTrail.Foundation.Numerals
import SocketTrail.State.CacheFile
import SocketTrail.Foundation.Progress
import SocketTrail.Program.Progress
import SocketTrail.Foundation.Climb
import SocketTrail.Net.Passes
import SocketTrail.Net.WinPasses
import SocketTrail.Program.ProcessTree
import SocketTrail.Foundation.Lines
import SocketTrail.Resolve.Answers
import SocketTrail.Resolve.Loop
import SocketTrail.Resolve.Shown
import SocketTrail.Program.Window
import SocketTrail.Foundation.Markup
import SocketTrail.Report.Render
import SocketTrail.Report.Reading
import SocketTrail.Foundation.Fields
import SocketTrail.Net.AddressText
import SocketTrail.Program.Interface
