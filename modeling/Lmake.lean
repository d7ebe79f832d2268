import Lmake.BasicUtils
import Lmake.Lib.LowBits
import Lmake.Hash.Crc
import Lmake.Cache.CrcOk
import Lmake.Cache.Engine
import Lmake.Autodep.Gather
import Lmake.Backends.Generic
import Lmake.Backends.Local
import Lmake.Lib.AList
import Lmake.Backends.Queues
import Lmake.Cache.Store
import Lmake.Server.RuleIndex
import Lmake.Store.Alloc
import Lmake.Store.Blocks
import Lmake.Store.Prefix.Item
import Lmake.Store.Prefix.File
import Lmake.Store.Prefix.Sizes
import Lmake.Store.Prefix.Recovery
import Lmake.Store.Prefix.Key
import Lmake.Lib.LeadBits
import Lmake.Store.Prefix.Trie
import Lmake.Store.Prefix.Search
import Lmake.Store.Vector
import Lmake.Store.Crunch
import Lmake.Disk
import Lmake.Autodep.Reorder
import Lmake.RealPath
import Lmake.Re
import Lmake.Lib.Serdes
import Lmake.Serialize
import Lmake.Time
import Lmake.Lib.Escape
import Lmake.Printable
import Lmake.Lib.PyLiteral
import Lmake.Lib.ShellWord
import Lmake.Quote
import Lmake.Server.ReqInfo
import Lmake.Server.RuleMatch
import Lmake.Hash.Base64
import Lmake.Codec
