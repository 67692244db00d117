import AndroidSystem.ImportFaults
import AndroidSystem.RawImage
import AndroidSystem.ResparseLength
import AndroidSystem.Camera.Refinement
import AndroidSystem.Camera.Validation
import AndroidSystem.RefBaseLifetime
import AndroidSystem.VectorRefinement
import AndroidSystem.StringValues
import AndroidSystem.Unicode16
import AndroidSystem.HashtableLookup
import AndroidSystem.Keystore.LockOut
import AndroidSystem.Ext4.FixupRestart
import AndroidSystem.Ext4.IndirectBlocks
import AndroidSystem.Adb.Transports
import AndroidSystem.Adb.StreamFlow
import AndroidSystem.Sdcard.Positions
import AndroidSystem.Sdcard.Entries
import AndroidSystem.FrameworkListener
import AndroidSystem.RecordStream
import AndroidSystem.Init.Properties
import AndroidSystem.Init.ServiceOptions
