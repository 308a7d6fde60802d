import PiWxRx.General.Mealy
import PiWxRx.General.DelayLine
import PiWxRx.General.Spacing
import PiWxRx.General.Blocks
import PiWxRx.General.Runs
import PiWxRx.General.Circular
import PiWxRx.General.Overwrite
import PiWxRx.General.Arith
import PiWxRx.General.BigEndian
import PiWxRx.General.Quadrature
import PiWxRx.General.CosineEnclosure
import PiWxRx.General.Descriptors
import PiWxRx.Rtl
import PiWxRx.Rings.Protocol
import PiWxRx.Rings.DataBuffer
import PiWxRx.Rings.SampleRing
import PiWxRx.Rings.Fifo
import PiWxRx.Rings.Wakeup
import PiWxRx.FileReader
import PiWxRx.FSK.SyncCorrelator
import PiWxRx.FSK.BitClock
import PiWxRx.FSK.Receiver
import PiWxRx.FSK.Framing
import PiWxRx.FSK.Preamble
import PiWxRx.FSK.SyncPattern
import PiWxRx.FSK.Decoding
import PiWxRx.FSK.ByteRate
import PiWxRx.FSK.ClearSync
import PiWxRx.FSK.ClockRate
import PiWxRx.FSK.Debounce
import PiWxRx.FSK.FrontEnd
import PiWxRx.FSK.Demodulator
import PiWxRx.FSK.DspThread
import PiWxRx.FSK.Restart
import PiWxRx.Audio.G711
import PiWxRx.Audio.Codecs
import PiWxRx.Audio.LinearSignal
import PiWxRx.Audio.Udp
import PiWxRx.Audio.RtpHeader
import PiWxRx.Audio.Packetisation
import PiWxRx.Audio.Deemphasis
import PiWxRx.Audio.Session
import PiWxRx.Audio.FailedStart
import PiWxRx.Threads.Shutdown
import PiWxRx.Threads.Ticks
import PiWxRx.Threads.PipeDecimation
import PiWxRx.Threads.PipeReads
import PiWxRx.Threads.SamplePath
import PiWxRx.Threads.ReceiveNetwork
import PiWxRx.Threads.ByteBacklog
import PiWxRx.Threads.Draining
import PiWxRx.Threads.ChildProcess
import PiWxRx.FSK.Bursts
import PiWxRx.Audio.Companding
import PiWxRx.FSK.BitDecision
import PiWxRx.FSK.Tones
import PiWxRx.FSK.EyeDiagram
import PiWxRx.Threads.Delivery
