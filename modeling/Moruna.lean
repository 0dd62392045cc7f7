import Moruna.Storage.Put
import Moruna.StorageFormat.TornRoot
import Moruna.Kernel.ChannelRun
import Moruna.Kernel.Account
import Moruna.Kernel.Slot
import Moruna.Kernel.SpaceRun
import Moruna.Plane.Owned
import Moruna.Sinks.ReorderRun
import Moruna.Sources.Pruning
import Moruna.Graph.SinkGaps
import Moruna.RecordRing.RingExact
import Moruna.Scheduler.BarrierRun
import Moruna.Scheduler.Watermark
import Moruna.Scheduler.Ports
import Moruna.Ipc.InflateRun
import Moruna.ImageFs.OverlayList
import Moruna.ImageFs.CacheRun
import Moruna.ImageFs.Resolve
import Moruna.Tensor.Bounds
import Moruna.Virtio.Run
import Moruna.Svc.Wire
import Moruna.Net.Stack
import Moruna.Host.JsonLines
