import Hack.Machine
import Hack.Custody
import Hack.Xsk.Pool
import Hack.Xsk.Slabs
import Hack.Xsk.SlabSteps
import Hack.Xsk.Conservation
import Hack.Epoll.Events
import Hack.Epoll.Stall
import Hack.GoJson
import Hack.Tls.Channels
import Hack.Tls.Registry
import Hack.Webrtc.Join
import Hack.Webrtc.Round
import Hack.Webrtc.Tracks
import Hack.Dummeth.Driver
import Hack.Dummeth.Ownership
import Hack.Dummeth.OwnershipSteps
import Hack.Dummeth.Wakeup
import Hack.Xdp.BlockPort
import Hack.Xsk.ForwardOrder
import Hack.Blocks
import Hack.CString
import Hack.EchoResponse
import Hack.Dummeth.Delivery
import Hack.Dummeth.PoolBound
import Hack.Dummeth.RxOrder
import Hack.Dummeth.SkbFree
import Hack.Dummeth.TxQueue
import Hack.Grep.Input
import Hack.Grep.Search
import Hack.InternetChecksum
import Hack.MmapRing.ScanOrder
import Hack.MmapRing.Server
import Hack.NatServer.Slots
import Hack.Ncat.Framing
import Hack.NetBytes
import Hack.PollTcp.Server
import Hack.SelectTcp.Server
import Hack.Tls.Releases
import Hack.Uring.Server
import Hack.Hashmap.Map
import Hack.Hashmap.Hash
import Hack.Uring.Requests
import Hack.WorkItem
import Hack.Wlan.Scan
import Hack.Wlan.Connect
import Hack.Cbc
import Hack.Hex
import Hack.GoSym.Cbc
import Hack.GoSym.Gcm
import Hack.CFile
import Hack.CryptSym.HexText
import Hack.CryptSym.Sym
import Hack.CryptSym.RoundTrip
import Hack.CryptSym.Mac
import Hack.Strtok
import Hack.NatServer.Request
import Hack.NatServer.RequestBounds
import Hack.NatServer.RequestHeaders
import Hack.SpinAtomic.Lock
import Hack.Xdp.MapAllow
import Hack.Xdp.BlockFrame
import Hack.EchoReply
import Hack.Chat.Server
import Hack.Chat.Identities
import Hack.Dtls.Cookie
import Hack.KeyedRows
import Hack.MysqlQuery.Users
import Hack.Webrtc.Signal
import Hack.BlockHeap
import Hack.Refinement
import Hack.CVector.Ints
import Hack.CVector.Strings
import Hack.GoSlice
import Hack.Webrtc.Rtmp
import Hack.NatServer.Unescape
import Hack.HexTool
import Hack.Xdp.Redirect
import Hack.Xdp.RedirectXsk
import Hack.Xdp.UdpChecksum
import Hack.Xsk.Sizes
import Hack.Dummeth.Mtu
import Hack.Loop
import Hack.Cpp
import Hack.DistinctWindow
import Hack.LongestSubstring
import Hack.Zigzag
import Hack.Wc
import Hack.Stream
import Hack.Wlan.Ssid
import Hack.MmapRing.Client
import Hack.ConnectTimeout
import Hack.CurlRequest
import Hack.Chat.History
import Hack.SplitStrict
import Hack.ShortestWindow
import Hack.MinSubArray
import Hack.MaxArea
import Hack.TwoSum
import Hack.RansomNote
import Hack.Palindrome
import Hack.Decides
import Hack.Sudoku
import Hack.Zigzag.Permutation
import Hack.HexTool.Pairs
import Hack.AddTwoNumbers
import Hack.RcuList
import Hack.ListRcu.Books
import Hack.ListRcu.Shelf
import Hack.ListRcu.Threads
import Hack.ListRcu.Safety
import Hack.ListRcu.Lending
import Hack.Xdp.Vlan
import Hack.Xsk.Wiring
import Hack.Xsk.ThreadFunc
import Hack.StatusRing
import Hack.MmapRing.TxRing
import Hack.Webrtc.Retries
import Hack.Coroutine.Contexts
import Hack.Coroutine.Generators
