import Lsmdb.Raft.Node

namespace Lsmdb.Raft

open List

/-!
# Raft core — the chunk of one append

`cappedEntries` collects entries while their accounted size stays within the cap; the first
one is taken whatever its size.  The chunk is a run of the log, holds at least one entry,
fits the cap unless it is a single entry, and ends only at the end of the log or in front of
an entry that would not fit.
-/

end Lsmdb.Raft
