import KickOS.Word.Pool
import KickOS.Mutex.Exclusion
import KickOS.Mutex.Inheritance
import KickOS.Sem.Run
import KickOS.Cond.Wakeup
import KickOS.Hold.Exact
import KickOS.Cap.Confined
import KickOS.Smp.Handoff
import KickOS.Mpu.Deputy
import KickOS.Life.Lifetime
import KickOS.Console.Device
import KickOS.Console.Lines
import KickOS.Irq.Rearm
import KickOS.Irq.Grace
import KickOS.Spawn.Refusal
import KickOS.Time.Wall
import KickOS.Death.Reported
import KickOS.Walk.Transaction
import KickOS.Mpu.Pair
import KickOS.Held.Refine
import KickOS.Klock.Due
import KickOS.Doorbell.Routed
import KickOS.Presync.Repeat
import KickOS.Gthr.Records
import KickOS.Ramown.Owners
import KickOS.Once.Calls
import KickOS.Realtime.Agree
import KickOS.Range.Place
import KickOS.Frame.Frames
import KickOS.Grant.Reserved
import KickOS.Compose.Gate
import KickOS.ByteRing.Stream
import KickOS.ConsoleRing.Write
import KickOS.InitStatus.Seqlock
import KickOS.Clock.Anchor
import KickOS.SemWait.Timeout
import KickOS.Fmt.Format
import KickOS.Atomic.Linear
import KickOS.Usb.Transfers
import KickOS.Usb.Transmit
import KickOS.Timed.Deadline
import KickOS.Keys.Run
import KickOS.Argv.Confined
import KickOS.Trace.Loss
import KickOS.Driver.BringUp
import KickOS.Tls.Address
import KickOS.Image.Sound
import KickOS.Amp.Hostile
import KickOS.Tx.Stream
import KickOS.Notify.Asleep
