import Lnx.Broker.Activity
import Lnx.Broker.Allowlist
import Lnx.Broker.Barrier
import Lnx.Broker.Dispatch
import Lnx.Broker.Entries
import Lnx.Broker.Forward
import Lnx.Broker.Idle
import Lnx.Broker.Isolation
import Lnx.Broker.PortForwards
import Lnx.Client.Stdin
import Lnx.Deterministic.TimerJumps
import Lnx.Fork.Independent
import Lnx.Guest.ExecEnv
import Lnx.Guest.Output
import Lnx.Guest.Pipe
import Lnx.HostShare.Restore
import Lnx.Ingress.Dns
import Lnx.Ingress.ForkTarget
import Lnx.Ingress.HostHeader
import Lnx.Initramfs
import Lnx.Launch.Specs
import Lnx.Locks.Inspect
import Lnx.Locks.Ownership
import Lnx.Locks.Replace
import Lnx.Overlay.Effects
import Lnx.Server.Upload
import Lnx.Snapshot.Layout
import Lnx.Store.Confine
import Lnx.Store.Copies
import Lnx.Store.CrashReport
import Lnx.Store.Pin
import Lnx.Store.PowerLoss
import Lnx.Store.Strays
