import Coedit.Channel.Calls

/-!
# Sessions

A session keeps one target, such as a document, in step with the server through one channel.  It carries
out the channel's commands: requests go to the transport, and delays become deadlines of two timers, one
for sending and one for catching up.  It delivers the channel's events to the target.
-/

namespace Coedit

/-- What a session keeps in step with the server. -/
class Target (τ : Type) where
  /-- Applies an operation. Whether it fails or not, the target goes on as given. -/
  consume : τ → Composite → Except Fault Unit × τ
  /-- One operation that builds the present state from nothing. -/
  initialization : τ → Composite
  /-- The target learns whether a batch is in flight and whether anything is unacknowledged. -/
  saveStateChanged : τ → Bool → Bool → τ := fun t _ _ => t
  /-- The target learns of a fault. After a fatal one the session is over. -/
  faultRaised : τ → Fault → Bool → τ := fun t _ _ => t

/-- A document takes an operation as a whole or not at all. -/
instance [L : Lengths] : Target Document where
  consume d op :=
    match op.apply d with
    | .ok d => (.ok (), d)
    | .error e => (.error (.apply e), d)
  initialization := Document.toInitialization

inductive Outbound where
  | subscribe (document : DocumentId)
  | unsubscribe (document : DocumentId)
  | submit (version : Nat) (request : DeltaRequest)
  | requestRevision (version : Nat) (document : DocumentId) (since : Nat)

/-- What may come in while a session runs. -/
inductive Inbound where
  /-- A local edit, not yet applied to the target. -/
  | edit (op : Composite)
  | beginCompound
  | endCompound
  /-- Deltas on the subscription. -/
  | delta (message : DeltaMessage)
  | submitAcked (version head : Nat)
  | submitFailed (version : Nat) (fault : Fault)
  | revisionReply (version : Nat) (message : DeltaMessage)
  | revisionFailed (version : Nat) (fault : Fault)
  | disconnect

/-- One target kept in step over one channel. Times are in milliseconds. -/
structure Session (τ : Type) where
  channel : Channel
  target : τ
  /-- Requests handed to the transport, the oldest first. -/
  outbound : List Outbound
  /-- Whether the transport still takes requests. -/
  transportOpen : Bool
  /-- When queued edits are to be sent. -/
  sendDeadline : Option Nat
  /-- When to catch up, and the retry version that the timer was set under. -/
  resyncDeadline : Option (Nat × Nat)
  now : Nat

namespace Session

variable {τ : Type}

/-- A session at time zero over a channel that was just made. -/
def new (channel : Channel) (target : τ) : Session τ := ⟨channel, target, [], true, none, none, 0⟩

/-- Hands a request to the transport, which drops it once it is closed. -/
def request (s : Session τ) (x : Outbound) : Session τ :=
  if s.transportOpen then { s with outbound := s.outbound ++ [x] } else s

/-- Carries out one command. Unsubscribing stops both timers. -/
def execute (s : Session τ) : Command → Session τ
  | .subscribe d => s.request (.subscribe d)
  | .unsubscribe d => { s with sendDeadline := none, resyncDeadline := none }.request (.unsubscribe d)
  | .submit v r => s.request (.submit v r)
  | .requestRevision v since => s.request (.requestRevision v s.channel.document since)
  | .scheduleSend delay => { s with sendDeadline := some (s.now + delay) }
  | .scheduleResync v delay => { s with resyncDeadline := some (v, s.now + delay) }

/-- Carries out all commands that the channel has listed. -/
def runCommands (s : Session τ) : Session τ :=
  s.channel.commands.foldl execute { s with channel := { s.channel with commands := [] } }

variable [Target τ]

/-- Delivers one event. A remote operation that the target refuses is fatal. -/
def dispatch (s : Session τ) : Event → Session τ
  | .remoteOp _ =>
    match s.channel.receive with
    | (none, channel) => { s with channel }
    | (some op, channel) =>
      match Target.consume s.target op with
      | (.ok (), target) => { s with channel, target }
      | (.error e, target) =>
        { s with channel := channel.disconnect, target := Target.faultRaised target e true }
  | .ack _ _ => s
  | .saveState saving pending => { s with target := Target.saveStateChanged s.target saving pending }
  | .error e fatal => { s with target := Target.faultRaised s.target e fatal }

/-- Carries out the channel's commands and delivers its events, commands first at every turn. -/
def pump (s : Session τ) : Session τ :=
  let s := s.runCommands
  s.channel.events.foldl (fun s e => (s.dispatch e).runCommands)
    { s with channel := { s.channel with events := [] } }

/-- The session after a call that left its channel as `channel`. -/
def after (s : Session τ) (channel : Channel) : Session τ := { s with channel }.pump

variable [L : Lengths] [R : Revisions]

/-- The answer to a call of the channel, and the session after it. A refused call leaves the channel as it
was. -/
def called (s : Session τ) : Except ChannelFault Channel → Except Fault Unit × Session τ
  | .ok channel => (.ok (), s.after channel)
  | .error e => (.error (.channel e), s)

/-- Connects to the target as loaded at `revision`. -/
def connect (s : Session τ) (revision : Nat) : Except Fault Unit × Session τ :=
  s.called (s.channel.connect revision)

/-- Applies a local edit to the target and hands it to the channel. -/
def edit (s : Session τ) (op : Composite) : Except Fault Unit × Session τ :=
  if !s.channel.isConnected then (.error (.channel .editDisconnected), s)
  else
    match Target.consume s.target op with
    | (.error e, target) => (.error e, { s with target })
    | (.ok (), target) => { s with target }.called (s.channel.submit op)

def handle (s : Session τ) : Inbound → Except Fault Unit × Session τ
  | .edit op => s.edit op
  | .beginCompound => (.ok (), s.after s.channel.beginCompound)
  | .endCompound => s.called s.channel.endCompound
  | .delta m => (.ok (), s.after (s.channel.delta m))
  | .submitAcked v head => (.ok (), s.after (s.channel.submitAcked v head))
  | .submitFailed v e => (.ok (), s.after (s.channel.submitFailed v e))
  | .revisionReply v m => (.ok (), s.after (s.channel.revisionReply v m))
  | .revisionFailed v e => (.ok (), s.after (s.channel.revisionFailed v e))
  | .disconnect => (.ok (), s.after s.channel.disconnect)

end Session
end Coedit
