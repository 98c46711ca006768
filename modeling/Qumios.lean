import Qumios.Lib.Run
import Qumios.Lib.Buffer
import Qumios.Ble.Reassembly
import Qumios.Ble.Packet
import Qumios.Ble.Sending
import Qumios.Ble.RoundTrip
import Qumios.Ble.SessionKey
import Qumios.Ble.OtaImage
import Qumios.Tlv.Capacity
import Qumios.Tlv.Transfer
import Qumios.Tlv.Value
import Qumios.Kv.Memory
import Qumios.Kv.Reserve
import Qumios.MultiTimer.Stopping
import Qumios.MultiTimer.Returning
import Qumios.MultiTimer.Order
import Qumios.Hashtable.Map
import Qumios.Comm.Chunking
import Qumios.Comm.Retries
import Qumios.Spec.HexFrame
import Qumios.EventBus.Delivery
import Qumios.EventBus.Fifo
import Qumios.Noos.Queue
import Qumios.ThreadPool.Tasks
import Qumios.Work.Delayed
import Qumios.Mqtt.Subscribe
import Qumios.Pub.Value
import Qumios.Remoter.Dispatch
import Qumios.VirtualChannel.Pairing
import Qumios.Cloud.Completion
import Qumios.Dns.Reply
import Qumios.Noos.RingFifo
import Qumios.UtilsList.Deque
import Qumios.Ble.Termination
import Qumios.Ble.OtaVerify
import Qumios.Ble.OtaStaging
import Qumios.Ble.Apinfo
import Qumios.Ble.ApinfoEvent
import Qumios.Ble.Rejection
import Qumios.Ble.Posting
import Qumios.Ble.OtaProgress
import Qumios.WeeklyTimer.Punctual
import Qumios.Time.Gregorian
import Qumios.Subdev.Delivered
import Qumios.Subdev.StateReport
import Qumios.Spec.Response
import Qumios.Spec.Representation
import Qumios.Spec.Merge
import Qumios.At.Within
import Qumios.Kv.Search
import Qumios.Mqtt.PublishQueue
import Qumios.Remoter.PairedList
import Qumios.At.Register
import Qumios.StepDelta
import Qumios.Noos.RingFull
import Qumios.Buzzer
import Qumios.SoftDimming
import Qumios.Mqtt.Backoff
