/-!
# Phases of a channel

A connected channel is in one of four phases, by what it waits for:

```text
uninitialized --connect--> allAcked --send--> waitingAck
waitingAck --all acked--> allAcked
waitingAck --failure--> delayResync
delayResync --all acked while waiting--> allAcked
delayResync --backoff elapsed--> waitingSync
waitingSync --synced, clean--> allAcked
waitingSync --synced, dirty--> waitingAck
waitingSync --failure--> delayResync
any --disconnect--> uninitialized
```
-/

namespace Coedit

inductive Phase where
  /-- Not connected. -/
  | uninitialized
  /-- Connected with nothing in flight. -/
  | allAcked
  /-- A batch was submitted and awaits acknowledgement. -/
  | waitingAck
  /-- A request failed, and the backoff before the next attempt runs. -/
  | delayResync
  /-- Catching up with the server after a failure. -/
  | waitingSync
  deriving DecidableEq

namespace Phase

def name : Phase → String
  | .uninitialized => "uninitialized"
  | .allAcked => "all-acked"
  | .waitingAck => "waiting-ack"
  | .delayResync => "delay-resync"
  | .waitingSync => "waiting-sync"

end Phase
end Coedit
