import MarketWire.Library.SortedMap
import MarketWire.Library.LinkedList
import MarketWire.Library.LinearProbe
import MarketWire.Types
import MarketWire.FlatOrderIndex
import MarketWire.OrderIndexRuns
import MarketWire.OrderBook
import MarketWire.Ledger
import MarketWire.BookStore
import MarketWire.BookLinks
import MarketWire.BookRep
import MarketWire.BookStep
import MarketWire.BookAdd
import MarketWire.BookReplace
import MarketWire.BookRun
import MarketWire.BookChecks
import MarketWire.BookAtomicity
import MarketWire.BookView
import MarketWire.BookEquations
import MarketWire.ReferenceBook
import MarketWire.BookRefinement
import MarketWire.Library.PrefixCode
import MarketWire.StateHash
import MarketWire.BookCommute
import MarketWire.Library.Fifo
import MarketWire.BookHistory
import MarketWire.BookShards
import MarketWire.BookSnapshot
import MarketWire.Library.BigEndian
import MarketWire.Library.Outcome
import MarketWire.ByteReader
import MarketWire.MoldUdp64
import MarketWire.MoldFraming
import MarketWire.MoldPacket
import MarketWire.Recovery
import MarketWire.RecoveryOrder
import MarketWire.RecoveryFailure
import MarketWire.RecoveryErase
import MarketWire.RecoverySession
import MarketWire.RecoveryRequests
import MarketWire.RecoveryRepeats
import MarketWire.RecoveryProgress
import MarketWire.Protocolc
import MarketWire.SchemaGrammar
import MarketWire.SchemaLexer
import MarketWire.SchemaParse
import MarketWire.GeneratedViews
import MarketWire.Library.Tiling
import MarketWire.ViewLayout
import MarketWire.Library.Transducer
import MarketWire.Library.CppText
import MarketWire.EmittedHeader
import MarketWire.HeaderReader
import MarketWire.HeaderText
import MarketWire.HeaderDispatch
import MarketWire.EmittedViews
import MarketWire.ItchSchema
import MarketWire.ItchDecoder
import MarketWire.ItchAgreement
import MarketWire.SampleMessages
import MarketWire.Pipeline
import MarketWire.Capture
import MarketWire.CaptureFile
import MarketWire.Codecs
import MarketWire.Replay
import MarketWire.ReplayModes
import MarketWire.ReplayPaces
import MarketWire.Listen
import MarketWire.Library.Transition
import MarketWire.UdpReceiver
import MarketWire.SessionEnd
import MarketWire.ListenCalls
import MarketWire.Feed
import MarketWire.Publisher
import MarketWire.BookCapacity
import MarketWire.LiveReplay
import MarketWire.PostMortem
import MarketWire.AnyDatagrams
