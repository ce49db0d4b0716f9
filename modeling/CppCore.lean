import CppCore.Lib.Words
import CppCore.Lib.Machine
import CppCore.Lib.PrefixCodec
import CppCore.Lib.OrderedMultiset
import CppCore.Lib.Multimap
import CppCore.Lib.Records
import CppCore.Lib.Keystream
import CppCore.Lib.Crc
import CppCore.Lib.Run
import CppCore.Lib.Guarded
import CppCore.Lib.Heap
import CppCore.Lib.Objects
import CppCore.Lib.SetTraversal
import CppCore.Lib.Inheritance
import CppCore.Pal.RWMutex
import CppCore.Pal.RecursiveMutex
import CppCore.Pal.ThreadLifetime
import CppCore.Utils.Buffer
import CppCore.Utils.BufferBounds
import CppCore.Utils.BufferAtomic
import CppCore.Utils.BufferRoundTrip
import CppCore.Utils.BufferGrowth
import CppCore.Utils.BufferStrings
import CppCore.Utils.BufferOwnership
import CppCore.Utils.WFString
import CppCore.Utils.Crc32
import CppCore.Utils.ConcurrentQueue
import CppCore.Ngp.NParam
import CppCore.Ngp.NParamAccess
import CppCore.Ngp.NParamBlock
import CppCore.Ngp.OversizedParam
import CppCore.Ngp.BlockGrammar
import CppCore.Ngp.FlagsChain
import CppCore.Ngp.Zlib
import CppCore.Ngp.GzipHeader
import CppCore.Ngp.GunzipRest
import CppCore.Ngp.GzipRoundTrip
import CppCore.Ngp.NavPacket
import CppCore.Ngp.BurstErrors
import CppCore.Ngp.BlockCopy
import CppCore.Ngp.BlockMultimap
import CppCore.Ngp.NavReplyPacket
import CppCore.Ngp.PacketFactory
import CppCore.Lib.Printf
import CppCore.Ngp.TextParams
import CppCore.Ngp.TextScan
import CppCore.Ngp.TextDump
import CppCore.Ngp.TextRoundTrip
import CppCore.Generator.Struct
import CppCore.Generator.StructReading
import CppCore.Generator.Packet
import CppCore.Generator.PacketRoundTrip
import CppCore.Generator.PacketTotality
import CppCore.Generator.ReplyPacket
import CppCore.Generator.ArrayReadBack
import CppCore.Generator.PacketMerge
import CppCore.Generator.PacketResolution
import CppCore.ServerCom.ServerHandler
import CppCore.ServerCom.SendQueue
import CppCore.ServerCom.Resend
import CppCore.ServerCom.StrayReplies
import CppCore.ServerCom.BlockingSend
import CppCore.ConnectionManager.ConnectionReader
import CppCore.MessageRouter.RouterThread
import CppCore.MessageRouter.RouterLifecycle
import CppCore.MessageRouter.RouterDispatch
import CppCore.CoreMain.Delivery
