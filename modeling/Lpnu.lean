import Lpnu.Dyld.Lifetime
import Lpnu.Dyld.Symbols
import Lpnu.IOKit.CommandPool
import Lpnu.IOKit.DataQueue.Fifo
import Lpnu.IOKit.DataQueue.Index
import Lpnu.IOKit.DataQueue.Occupancy
import Lpnu.IOKit.DataQueue.Ring
import Lpnu.IOKit.Dictionary.Allocation
import Lpnu.IOKit.Dictionary.KeyStore
import Lpnu.IOKit.Lock
import Lpnu.IOKit.LockProgress
import Lpnu.IOKit.MemoryDescriptor
import Lpnu.IOKit.ReadBack
import Lpnu.IOKit.Service.ChildOrder
import Lpnu.IOKit.Service.Component
import Lpnu.IOKit.Service.Walks
import Lpnu.Kext.Accounts
import Lpnu.Kext.Gate
import Lpnu.Kext.Handles
import Lpnu.Kext.Listing
import Lpnu.Kext.Lookup
import Lpnu.Kext.Rollback
import Lpnu.MachO.Buffers
import Lpnu.MachO.Dispatch
import Lpnu.MachO.Headers
import Lpnu.MachO.Recognisers
import Lpnu.Metal.Contents
import Lpnu.Metal.Lifetime
import Lpnu.Objects.Answers
import Lpnu.Objects.Ownership
import Lpnu.Stores
