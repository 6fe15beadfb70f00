import Coedit.Session.Basic

/-!
# Running a session

A running session waits for what comes in and for its timers.  It ends when its channel is disconnected.
-/

namespace Coedit.Session

variable {τ : Type} [Target τ] [L : Lengths] [R : Revisions]

def hasEnded (s : Session τ) : Bool := !s.channel.isConnected

def fireSend (s : Session τ) : Session τ := { s with sendDeadline := none }.after s.channel.flush

def fireResync (s : Session τ) : Session τ :=
  match s.resyncDeadline with
  | none => s
  | some (version, _) => { s with resyncDeadline := none }.after (s.channel.resyncTimer version)

/-- When the timer for catching up is due. -/
def resyncAt (s : Session τ) : Option Nat := s.resyncDeadline.map (·.2)

def isDue (s : Session τ) (deadline : Option Nat) : Bool := deadline.any (· ≤ s.now)

def fireSendIfDue (s : Session τ) : Session τ := if s.isDue s.sendDeadline then s.fireSend else s

def fireResyncIfDue (s : Session τ) : Session τ := if s.isDue s.resyncAt then s.fireResync else s

/-- Whether the timer for catching up is due before the send timer. -/
def resyncFirst (s : Session τ) : Bool :=
  match s.sendDeadline, s.resyncAt with
  | some send, some resync => resync < send
  | _, _ => false

/-- Fires the timers that are due, the earlier one first. Neither sets a timer when it goes off. -/
def fireTimers (s : Session τ) : Session τ :=
  if s.resyncFirst then s.fireResyncIfDue.fireSendIfDue else s.fireSendIfDue.fireResyncIfDue

def wait (s : Session τ) (delay : Nat) : Session τ := { s with now := s.now + delay }.fireTimers

/-- Takes in an event while the session runs, whether it is rejected or not. -/
def deliver (s : Session τ) (x : Inbound) : Session τ :=
  if s.hasEnded then s else (s.handle x).2

/-- The transport goes away; later requests are dropped. -/
def closeTransport (s : Session τ) : Session τ := { s with transportOpen := false }

/-- Nothing more comes in, which disconnects a running session. -/
def finish (s : Session τ) : Session τ := s.after s.channel.disconnect

end Coedit.Session
