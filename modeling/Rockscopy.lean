import Rockscopy.Coding.Varint
import Rockscopy.Coding.VarintReading
import Rockscopy.Coding.LengthPrefixed
import Rockscopy.Coding.BitStream
import Rockscopy.Coding.BitStreamString
import Rockscopy.Coding.Records
import Rockscopy.Coding.Hash
import Rockscopy.Coding.Fixed
import Rockscopy.Arena.Basic
import Rockscopy.Arena.Run
import Rockscopy.Arena.Accounting
import Rockscopy.Arena.Aligned
import Rockscopy.SkipList.Basic
import Rockscopy.SkipList.RandomHeight
import Rockscopy.SkipList.SortedKeys
import Rockscopy.SkipList.Chain
import Rockscopy.SkipList.Search
import Rockscopy.SkipList.Insert
import Rockscopy.SkipList.Reachable
import Rockscopy.SkipList.Trace
import Rockscopy.SkipList.Bounds
import Rockscopy.SkipList.Storage
import Rockscopy.SkipList.Levels
import Rockscopy.SkipList.Concurrent.Steps
import Rockscopy.SkipList.Concurrent.Writer
import Rockscopy.SkipList.Concurrent.Readers
import Rockscopy.SkipList.Concurrent.Refinement
import Rockscopy.SkipList.Concurrent.Progress
import Rockscopy.SkipList.Concurrent.Linearizable
import Rockscopy.SkipList.Weak.Steps
import Rockscopy.SkipList.Weak.History
import Rockscopy.SkipList.Weak.Readers
import Rockscopy.SkipList.Weak.Progress
import Rockscopy.SkipList.Weak.Linearizable
