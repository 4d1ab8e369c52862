import PostgreSieve.Eviction.LfuVictim
import PostgreSieve.Eviction.Layout
import PostgreSieve.Pool.Exclusive
import PostgreSieve.Pool.Conservation
import PostgreSieve.Pool.LockOrder
import PostgreSieve.Pool.Mapping
import PostgreSieve.Pool.SieveTrace
import PostgreSieve.Pool.BgWriter
import PostgreSieve.Wal.Insert
import PostgreSieve.Wal.Inverse
import PostgreSieve.Sinval.Delivery
import PostgreSieve.IntegerSet.Iterate
import PostgreSieve.Pglz.Plain
import PostgreSieve.Pglz.RoundTrip
import PostgreSieve.ProcArray.Visibility
import PostgreSieve.ProcArray.KnownSet
import PostgreSieve.Utf8.Verify
import PostgreSieve.Ranges.Algebra
import PostgreSieve.Heap.Vacuum
import PostgreSieve.Numeric.SumExact
import PostgreSieve.Numeric.MulLong
import PostgreSieve.HashIndex.Addressing
import PostgreSieve.BlockRef.Entry
import PostgreSieve.BlockRef.Reader
import PostgreSieve.LockMgr.Safety
import PostgreSieve.FastPath.Safety
import PostgreSieve.BtDedup.Contents
import PostgreSieve.BtDedup.Replay
import PostgreSieve.SyncRep.Release
import PostgreSieve.BtPivot.Separates
import PostgreSieve.WalRecord.Safety
import PostgreSieve.Eviction.LruVictim
import PostgreSieve.DateTime.Interval
