import RocketDb.Compaction.Grandparents
import RocketDb.Compaction.ManualRounds
import RocketDb.Compaction.SeekTrigger
import RocketDb.Engine.PerfCounters
import RocketDb.Engine.Store
import RocketDb.Files.Fresh
import RocketDb.Iterator.MergingCursor
import RocketDb.MemTable.ConcurrentReads
import RocketDb.MemTable.MemTable
import RocketDb.Repair.Reads
import RocketDb.Table.BlockReader
import RocketDb.Table.Checksums
import RocketDb.Table.FilterBlock
import RocketDb.Util.PosixWritableFile
import RocketDb.Version.LevelIterator
import RocketDb.Version.ManifestRuns
import RocketDb.Wal.Damage
import RocketDb.Write.BatchBytes
import RocketDb.Write.Completion
