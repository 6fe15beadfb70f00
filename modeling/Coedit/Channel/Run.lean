import Coedit.Channel.Calls

/-!
# Runs of a channel

All calls of a channel as one type, so that runs are lists.  What a run has listed as commands and events
stays listed until it is taken out.
-/

namespace Coedit

inductive Call where
  | connect (revision : Nat)
  | disconnect
  | submit (op : Composite)
  | beginCompound
  | endCompound
  | flush
  | submitAcked (version head : Nat)
  | submitFailed (version : Nat) (fault : Fault)
  | delta (message : DeltaMessage)
  | resyncTimer (version : Nat)
  | revisionReply (version : Nat) (message : DeltaMessage)
  | revisionFailed (version : Nat) (fault : Fault)
  | receive

inductive Reply where
  /-- The call cannot be refused and has no result. -/
  | done
  /-- The call could be refused and was not. -/
  | accepted
  /-- The call was refused and changed nothing. -/
  | refused (fault : ChannelFault)
  /-- The operation taken for delivery, if there was one. -/
  | received (op : Option Composite)

namespace Channel

/-- The reply to a call that may be refused, and the channel after it. -/
def settled (c : Channel) : Except ChannelFault Channel → Reply × Channel
  | .ok c => (.accepted, c)
  | .error e => (.refused e, c)

variable [L : Lengths] [R : Revisions]

def perform (c : Channel) : Call → Reply × Channel
  | .connect revision => c.settled (c.connect revision)
  | .disconnect => (.done, c.disconnect)
  | .submit op => c.settled (c.submit op)
  | .beginCompound => (.done, c.beginCompound)
  | .endCompound => c.settled c.endCompound
  | .flush => (.done, c.flush)
  | .submitAcked version head => (.done, c.submitAcked version head)
  | .submitFailed version fault => (.done, c.submitFailed version fault)
  | .delta message => (.done, c.delta message)
  | .resyncTimer version => (.done, c.resyncTimer version)
  | .revisionReply version message => (.done, c.revisionReply version message)
  | .revisionFailed version fault => (.done, c.revisionFailed version fault)
  | .receive =>
    let (op, c) := c.receive
    (.received op, c)

def run (c : Channel) (calls : List Call) : Channel := calls.foldl (fun c x => (c.perform x).2) c

def drained (c : Channel) : Channel := { c with commands := [], events := [] }

end Channel
end Coedit
