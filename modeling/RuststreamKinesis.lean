import RuststreamKinesis.Advance
import RuststreamKinesis.Agreement
import RuststreamKinesis.Backlog
import RuststreamKinesis.Broker
import RuststreamKinesis.Catchup
import RuststreamKinesis.Commands
import RuststreamKinesis.Counter
import RuststreamKinesis.Creation
import RuststreamKinesis.Descent
import RuststreamKinesis.FirstPass
import RuststreamKinesis.FramedBinary
import RuststreamKinesis.Freshness
import RuststreamKinesis.Gates
import RuststreamKinesis.Handover
import RuststreamKinesis.InProcess.Closing
import RuststreamKinesis.InProcess.Harness
import RuststreamKinesis.InProcess.Quiescence
import RuststreamKinesis.InProcess.Sequence
import RuststreamKinesis.InProcess.Stamps
import RuststreamKinesis.Inbox
import RuststreamKinesis.Isolation
import RuststreamKinesis.Leaving
import RuststreamKinesis.Message
import RuststreamKinesis.Progress
import RuststreamKinesis.Recovery
import RuststreamKinesis.Resume
import RuststreamKinesis.Seeking
import RuststreamKinesis.Shardwise
import RuststreamKinesis.Shutdown
import RuststreamKinesis.Slots
import RuststreamKinesis.Successor
import RuststreamKinesis.Takeover
import RuststreamKinesis.Tip
import RuststreamKinesis.Tracker
