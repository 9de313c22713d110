import Kickmsg.Lib.Transition
import Kickmsg.Lib.Count
import Kickmsg.Lib.Chain
import Kickmsg.Lib.Actors
import Kickmsg.Lib.Bytes
import Kickmsg.System
import Kickmsg.FreeStack
import Kickmsg.Wrap
import Kickmsg.Admission
import Kickmsg.WaitAny
import Kickmsg.Schema
import Kickmsg.Registry.Snapshot
import Kickmsg.Layout
import Kickmsg.Blackboard.Listing
import Kickmsg.Blackboard.Declare
import Kickmsg.Quiescent
import Kickmsg.Handles.Validity
import Kickmsg.Words
import Kickmsg.Identity
import Kickmsg.Blackboard.Paths
import Kickmsg.Blackboard.Wait
import Kickmsg.Blackboard.Bounds
import Kickmsg.Takeover
import Kickmsg.Staleness
import Kickmsg.Bounds
import Kickmsg.Integrity
import Kickmsg.Teardown
import Kickmsg.Recovered
import Kickmsg.Blackboard.Latest
