import Barebox.State.CircularSession
import Barebox.Bootchooser.Attempts
import Barebox.Block.Refinement
import Barebox.Block.Discard
import Barebox.Tftp.FlowControl
import Barebox.Ratp.Transparency
import Barebox.Devfs.Regions
import Barebox.Efi.MemoryMap
import Barebox.Envfs.Validation
import Barebox.Sparse.Expansion
import Barebox.Mtd.BadBlockRead
import Barebox.Mtd.Erase
import Barebox.Of.FlattenLimits
import Barebox.Fs.RamfsRefinement
import Barebox.Lib.LoadableContract
import Barebox.Mtd.BadBlockWrite
import Barebox.Arm.Mmu64Pointwise
import Barebox.Dm.VerityExact
import Barebox.Dm.VerityIntegrity
import Barebox.Partitions.Create
import Barebox.Partitions.DosSlots
import Barebox.Ratp.Completion
import Barebox.Ratp.Records
import Barebox.State.BucketCopies
import Barebox.State.LayoutSoundness
import Barebox.Ratp.PassiveOpen
import Barebox.Resource.Lookup
import Barebox.Resource.ReleaseRange
import Barebox.Resource.FindSpace
import Barebox.Blspec.Order
import Barebox.Lib.Strsep
import Barebox.Arm.EarlyTables
import Barebox.Slice
