import MinaVerify.Account.Keys
import MinaVerify.Account.Membership
import MinaVerify.Account.Remote
import MinaVerify.Capture.Subscribe
import MinaVerify.Cli
import MinaVerify.FrontEnds
import MinaVerify.Monitor.Agreement
import MinaVerify.Monitor.Capacity
import MinaVerify.Monitor.EvictionOrder
import MinaVerify.Monitor.Indexer
import MinaVerify.Monitor.Live
import MinaVerify.Monitor.Symmetry
import MinaVerify.Monitor.Unlinked
import MinaVerify.Process.PanicHook
import MinaVerify.Rpc.Lengths
import MinaVerify.Server.Serve
