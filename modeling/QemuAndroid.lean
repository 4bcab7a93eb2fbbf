import QemuAndroid.GoldfishPipe.Irq
import QemuAndroid.HwPipeNet.Connect
import QemuAndroid.Exec.Dispatch
import QemuAndroid.Migration.Coherence
import QemuAndroid.Memory.Flatten
import QemuAndroid.Memory.Int128
import QemuAndroid.Memory.Topology
import QemuAndroid.Migration.DirtyPages
import QemuAndroid.Virtio.AvailBytes
import QemuAndroid.Block.ByteArray
import QemuAndroid.Block.Exclusion
import QemuAndroid.Qcow2.InFlight
import QemuAndroid.Qcow2.Ranges
import QemuAndroid.Render.Handles
import QemuAndroid.Virtio.Notify
import QemuAndroid.Render.Chunks
import QemuAndroid.Looper.Pending
import QemuAndroid.Coroutine.Wakeups
import QemuAndroid.GoldfishPipe.Batch
import QemuAndroid.Json.Resync
import QemuAndroid.Json.FromJson
import QemuAndroid.Gic.Groups
import QemuAndroid.Util.Timer
import QemuAndroid.Util.AioNotify
import QemuAndroid.Hbitmap.Iterate
import QemuAndroid.Migration.Grammar
import QemuAndroid.HwPipeNet.Transfer
import QemuAndroid.GoldfishPipe.ReadWrite
import QemuAndroid.Block.Pieces
