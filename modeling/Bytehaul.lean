import Bytehaul.Storage.Completion
import Bytehaul.Storage.Direct
import Bytehaul.Storage.Isolation
import Bytehaul.Scheduler.Atomic
import Bytehaul.Scheduler.Balance
import Bytehaul.Scheduler.DynamicArithmetic
import Bytehaul.Scheduler.Fixed
import Bytehaul.Scheduler.Identity
import Bytehaul.Scheduler.Progress
import Bytehaul.Session.Flow
import Bytehaul.Session.Multi.Extra
import Bytehaul.Session.Multi.Objects
import Bytehaul.Session.Multi.Prefixes
import Bytehaul.Session.Multi.Probe
import Bytehaul.Session.Multi.Request
import Bytehaul.Session.Multi.Tally
import Bytehaul.Session.Terminal
import Bytehaul.Network.Accounting
import Bytehaul.Network.Attempts
import Bytehaul.Network.Release
import Bytehaul.Network.Retries
import Bytehaul.Network.Waiters
import Bytehaul.Naming.Sanitize
