import Nachos.Lib.Run
import Nachos.Network.Mail
import Nachos.Threads.Synch

/-!
# Post offices on a network, `network.cc` and `post.cc`

A machine is its post office with the network device below it. A thread in `PostOffice::Send` hands
its packet to the device and waits in `P` for the interrupt; the poll interrupt takes a packet from
the socket into the inbox, if that is free; the postal worker waits for it, takes it and puts the
mail in its box. `sendLock` and the locks of the mailboxes do nothing. None of these pieces of code
enables interrupts in between, so that each is one step.

The socket keeps the packets from each machine in their order. Which of the machines is heard next,
what a network of `reliability` below 1 drops, and what else is lost on the way is free, and so is
the memory that `new` returns. A failed assertion stops the machine.
-/

namespace Nachos

/-- The machine's number is its index in `Net`. -/
structure PostOffice where
  numBoxes : ℤ
  /-- A length of 0 stands for no packet. -/
  inHdr : PacketHeader
  inbox : ℕ → Byte
  sendBusy : Bool
  /-- The scheduled `NetworkSendDone` interrupts. -/
  sendsDue : ℕ
  messageAvailable : Semaphore
  messageSent : Semaphore
  /-- The postal worker is past `messageAvailable->P()`. -/
  signalled : Bool
  /-- The buffer of the postal worker. -/
  buffer : ℕ → Byte
  boxes : ℤ → List Mail
  /-- The threads that are waiting in `Send`. -/
  sending : ℕ → Bool
  stopped : Bool
  /-- The mails given to the network so far. -/
  sent : List Mail
  /-- The mails that `PostalDelivery` has put in mailboxes so far, with the box. -/
  put : List (ℤ × Mail)

/-- What becomes of a packet in `Network::Send`. -/
inductive Fate where
  | lost
  /-- `sendto` fails. -/
  | refused
  | onWay
  deriving DecidableEq, Repr

/-- The arguments of `PostOffice::Send`, with what its buffer and that of `Network::Send` held. -/
structure SendCall where
  pktHdr : PacketHeader
  mailHdr : MailHeader
  data : ℕ → Byte
  buffer : ℕ → Byte
  wire : ℕ → Byte
  fate : Fate

/-- The postal worker's thread, the only one that waits for `messageAvailable`. -/
def postalWorker : ℕ := 0

namespace SendCall

/-- `pktHdr`, filled in for the network. -/
def header (c : SendCall) (netAddr : Word) : PacketHeader :=
  { c.pktHdr with from' := netAddr, length := c.mailHdr.length + BitVec.ofNat 32 headerSize }

def packet (c : SendCall) (netAddr : Word) : ℕ → Byte :=
  packetBytes (c.header netAddr) (mailBytes c.mailHdr c.data c.buffer) c.wire

def mail (c : SendCall) (netAddr : Word) : Mail := Mail.new (c.header netAddr) c.mailHdr c.data

end SendCall

namespace PostOffice

/-- An assertion has failed. -/
def stop (p : PostOffice) : PostOffice := { p with stopped := true }

/-- The assertions of `PostOffice::Send` and `Network::Send`. -/
def CanSend (p : PostOffice) (netAddr : Word) (c : SendCall) : Prop :=
  (c.mailHdr.length.toNat ≤ maxMailSize ∧
      0 ≤ c.mailHdr.to'.toInt ∧ c.mailHdr.to'.toInt < p.numBoxes) ∧
    p.sendBusy = false ∧ 0 < (c.header netAddr).length.toNat ∧
      (c.header netAddr).length.toNat ≤ maxPacketSize ∧ (c.header netAddr).from' = netAddr

instance (p : PostOffice) (netAddr : Word) (c : SendCall) : Decidable (p.CanSend netAddr c) :=
  inferInstanceAs (Decidable (_ ∧ _))

/-- `PostOffice::Send` by thread `t` up to its `P`. The packet goes on its way unless it is lost. -/
def send (p : PostOffice) (netAddr : Word) (t : ℕ) (c : SendCall) : PostOffice :=
  if p.CanSend netAddr c ∧ c.fate ≠ .refused then
    { p with
      sendsDue := p.sendsDue + 1
      sending := Function.update p.sending t true
      sent := p.sent ++ [c.mail netAddr] }
  else p.stop

/-- A round of `messageSent->P()` by thread `t`, with the rest of `Send` if it gets through. -/
def waitSent (p : PostOffice) (t : ℕ) : PostOffice :=
  { p with
    messageSent := (p.messageSent.P t).1
    sending := Function.update p.sending t (!(p.messageSent.P t).2) }

/-- `Network::SendDone` with `PacketSent`. -/
def sendDone (p : PostOffice) : PostOffice :=
  { p with
    sendsDue := p.sendsDue - 1
    sendBusy := false
    messageSent := p.messageSent.V }

/-- The end of `Network::CheckPktAvail` with `IncomingPacket`, for a packet that is in `buffer`. -/
def readPacket (p : PostOffice) (ident : Word) (buffer : ℕ → Byte) : PostOffice :=
  if (PacketHeader.ofBytes buffer).to' = ident ∧
      (PacketHeader.ofBytes buffer).length.toNat ≤ maxPacketSize then
    { p with
      inHdr := PacketHeader.ofBytes buffer
      inbox := Buffer.splice p.inbox 0 (PacketHeader.ofBytes buffer).length.toNat
        (bytesAt buffer headerSize)
      messageAvailable := p.messageAvailable.V }
  else p.stop

/-- A round of `messageAvailable->P()` in `PostalDelivery`. -/
def waitAvailable (p : PostOffice) : PostOffice :=
  { p with
    messageAvailable := (p.messageAvailable.P postalWorker).1
    signalled := (p.messageAvailable.P postalWorker).2 }

/-- `Network::Receive`, which also sets `inHdr.length` to 0: the buffer afterwards. -/
def received (p : PostOffice) : ℕ → Byte :=
  if p.inHdr.length = 0 then p.buffer
  else Buffer.splice p.buffer 0 p.inHdr.length.toNat p.inbox

/-- The mail `PostalDelivery` makes of what it has received. -/
def delivered (p : PostOffice) : Mail := mailOf p.inHdr p.received

/-- The box of that mail. -/
def target (p : PostOffice) : ℤ := (MailHeader.ofBytes p.received).to'.toInt

/-- A round of `PostalDelivery` after its `P`. -/
def deliver (p : PostOffice) : PostOffice :=
  if (0 ≤ p.target ∧ p.target < p.numBoxes) ∧
      (MailHeader.ofBytes p.received).length.toNat ≤ maxMailSize then
    { p with
      inHdr := { p.inHdr with length := 0 }
      signalled := false
      buffer := p.received
      boxes := Function.update p.boxes p.target (p.boxes p.target ++ [p.delivered])
      put := p.put ++ [(p.target, p.delivered)] }
  else p.stop

/-- `PostOffice::Receive`. The list of a mailbox does not wait: `Condition::Wait` only asserts that
it is not called. -/
def receive (p : PostOffice) (box : ℤ) : PostOffice :=
  if 0 ≤ box ∧ box < p.numBoxes then
    match p.boxes box with
    | [] => p.stop
    | mail :: rest =>
      if mail.mailHdr.length.toNat ≤ maxMailSize then
        { p with boxes := Function.update p.boxes box rest }
      else p.stop
  else p.stop

end PostOffice

/-- The machines, and for each of them the packets on the way to it from each other one. -/
structure Net where
  post : Word → PostOffice
  sock : Word → Word → List (ℕ → Byte)

inductive Label where
  /-- Thread `t` of machine `a` calls `Send`. -/
  | send (a : Word) (t : ℕ) (c : SendCall)
  | waitSent (a : Word) (t : ℕ)
  | sendDone (a : Word)
  /-- The poll interrupt, with the machine that is heard, if one is, and what the new buffer has. -/
  | poll (b : Word) (a : Option Word) (buffer : ℕ → Byte)
  | waitAvailable (b : Word)
  | deliver (b : Word)
  | receive (b : Word) (box : ℤ)
  /-- The packet with that index is lost on the way from `a` to `b`. -/
  | lose (b a : Word) (i : ℕ)

namespace Net

def setPost (s : Net) (a : Word) (p : PostOffice) : Net :=
  { s with post := Function.update s.post a p }

def setSock (s : Net) (b a : Word) (ps : List (ℕ → Byte)) : Net :=
  { s with sock := Function.update s.sock b (Function.update (s.sock b) a ps) }

/-- The packet of a call of `Send` goes into the socket of the machine it is for. -/
def dispatch (s : Net) (a : Word) (c : SendCall) : Net :=
  if (s.post a).CanSend a c ∧ c.fate = .onWay then
    s.setSock c.pktHdr.to' a (s.sock c.pktHdr.to' a ++ [c.packet a])
  else s

/-- `Network::CheckPktAvail` of machine `b`. -/
def checkPktAvail (s : Net) (b : Word) (a : Option Word) (buffer : ℕ → Byte) : Net :=
  if (s.post b).inHdr.length = 0 then
    match a with
    | none => s
    | some a =>
      match s.sock b a with
      | [] => s
      | packet :: rest =>
        (s.setSock b a rest).setPost b
          ((s.post b).readPacket b (Buffer.splice buffer 0 maxWireSize packet))
  else s

/-- The machine that makes the step. -/
def actor : Label → Option Word
  | .send a _ _ | .waitSent a _ | .sendDone a => some a
  | .poll b _ _ | .waitAvailable b | .deliver b | .receive b _ => some b
  | .lose _ _ _ => none

/-- A thread takes a step only where it is, and the interrupt of a send only comes when it is due. A
thread that is on the queue of a semaphore sleeps. -/
def Enabled (s : Net) : Label → Prop
  | .send a t _ => (s.post a).sending t = false
  | .waitSent a t => (s.post a).sending t = true ∧ t ∉ (s.post a).messageSent.queue
  | .sendDone a => 0 < (s.post a).sendsDue
  | .waitAvailable b =>
    (s.post b).signalled = false ∧ postalWorker ∉ (s.post b).messageAvailable.queue
  | .deliver b => (s.post b).signalled = true
  | .poll _ _ _ | .receive _ _ | .lose _ _ _ => True

instance (s : Net) : (l : Label) → Decidable (s.Enabled l)
  | .send a t _ => inferInstanceAs (Decidable ((s.post a).sending t = false))
  | .waitSent a t =>
    inferInstanceAs (Decidable ((s.post a).sending t = true ∧ t ∉ (s.post a).messageSent.queue))
  | .sendDone a => inferInstanceAs (Decidable (0 < (s.post a).sendsDue))
  | .waitAvailable b =>
    inferInstanceAs (Decidable ((s.post b).signalled = false ∧
      postalWorker ∉ (s.post b).messageAvailable.queue))
  | .deliver b => inferInstanceAs (Decidable ((s.post b).signalled = true))
  | .poll _ _ _ | .receive _ _ | .lose _ _ _ => inferInstanceAs (Decidable True)

/-- The machine is running. -/
def Runs (s : Net) (l : Label) : Prop := ∀ a ∈ actor l, (s.post a).stopped = false

instance (s : Net) (l : Label) : Decidable (s.Runs l) :=
  inferInstanceAs (Decidable (∀ a ∈ actor l, (s.post a).stopped = false))

def act (s : Net) : Label → Net
  | .send a t c => (s.dispatch a c).setPost a ((s.post a).send a t c)
  | .waitSent a t => s.setPost a ((s.post a).waitSent t)
  | .sendDone a => s.setPost a (s.post a).sendDone
  | .poll b a buffer => s.checkPktAvail b a buffer
  | .waitAvailable b => s.setPost b (s.post b).waitAvailable
  | .deliver b => s.setPost b (s.post b).deliver
  | .receive b box => s.setPost b ((s.post b).receive box)
  | .lose b a i => s.setSock b a ((s.sock b a).eraseIdx i)

def step (s : Net) (l : Label) : Option Net :=
  if s.Runs l ∧ s.Enabled l then some (s.act l) else none

/-- A post office as its constructor leaves it, the rest of `inHdr` and the buffers as they were. -/
structure Fresh (p : PostOffice) : Prop where
  inHdr : p.inHdr.length = 0
  sendBusy : p.sendBusy = false
  sendsDue : p.sendsDue = 0
  messageAvailable : p.messageAvailable = Semaphore.new 0
  messageSent : p.messageSent = Semaphore.new 0
  signalled : p.signalled = false
  boxes : ∀ box, p.boxes box = []
  sending : ∀ t, p.sending t = false
  running : p.stopped = false
  sent : p.sent = []
  put : p.put = []

def Init (s : Net) : Prop := (∀ a, Fresh (s.post a)) ∧ ∀ b a, s.sock b a = []

end Net

end Nachos
