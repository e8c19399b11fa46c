import Takibi.Types.Pointee
import Takibi.Range.Subtyping
import Takibi.Range.ValueFactsJoin
import Takibi.Range.ExprFactsSound
import Takibi.Init.LinearSound
import Takibi.Flow.Run
import Takibi.Calls.LockOrder
import Takibi.Irq.MaskSettle
import Takibi.Boot.MemoryRegions
import Takibi.Page.Reservations
import Takibi.Page.HandoverSound
import Takibi.Printk.ConsoleOwnerSound
import Takibi.Lz4.RoundTrip
import Takibi.WorldStop.Sound
import Takibi.Mm.AsidSound
import Takibi.Block.LayerSound
import Takibi.Tcp.StreamSound
import Takibi.Process.SignalSound
import Takibi.Fd.References
import Takibi.Fd.BlocksSound
import Takibi.Order.WhereClause
import Takibi.Layout.Agree
import Takibi.Freelist.RefcountSlotMap
import Takibi.Lz4.Image
import Takibi.Lz4.Memory
import Takibi.Use.Resolver
import Takibi.Fifo.Pipe
import Takibi.Printk.Staging
import Takibi.Net.Checksum
import Takibi.Ext2.MutationLock
import Takibi.Ext2.Path
import Takibi.Range.Obligation
import Takibi.Smt.Name
import Takibi.Process.Itimer
