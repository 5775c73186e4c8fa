import DingoKv.Basic
import DingoKv.SortedMap
import DingoKv.Encoding
import DingoKv.Control
import DingoKv.Apply
import DingoKv.Range
import DingoKv.Index
import DingoKv.Compact
import DingoKv.Invariant
import DingoKv.Read
import DingoKv.History
import DingoKv.Propose
import DingoKv.Protocol
import DingoKv.Persist
import DingoKv.Compaction
import DingoKv.Scan
import DingoKv.Watch
import DingoKv.DeleteRange
import DingoKv.SubRevision
import DingoKv.MonoStore
import DingoKv.AbstractStore
import DingoKv.Interleaving
import DingoKv.WatchReplay
