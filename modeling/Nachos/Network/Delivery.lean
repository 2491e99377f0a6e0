import Nachos.Network.Post

/-!
# What the post office delivers

For each pair of machines the mails put in boxes, then the one in the inbox, then those on the way
are a sublist of those sent (`Inv.order`). A step moves a mail from one stage to the next, adds one
that has just been sent at the end, or drops one.
-/

namespace Nachos

namespace PostOffice

/-- The mails from machine `a` that have been put in mailboxes. -/
def putFrom (p : PostOffice) (a : Word) : List Mail :=
  (p.put.map Prod.snd).filter fun m => m.pktHdr.from' = a

/-- The mails sent to machine `b`. -/
def sentTo (p : PostOffice) (b : Word) : List Mail := p.sent.filter fun m => m.pktHdr.to' = b

/-- The mail in the inbox. -/
def held (p : PostOffice) : List Mail :=
  if p.inHdr.length = 0 then [] else [mailOf p.inHdr p.inbox]

/-- The mails from machine `a` that have left the socket. -/
def arrived (p : PostOffice) (a : Word) : List Mail :=
  p.putFrom a ++ p.held.filter fun m => m.pktHdr.from' = a

/-- What holds of one machine. -/
structure Inv (b : Word) (p : PostOffice) : Prop where
  inbox : p.inHdr.length ≠ 0 → p.inHdr.to' = b ∧ Sound p.inHdr p.inbox
  available : p.stopped = false →
    (p.signalled = true → p.inHdr.length ≠ 0) ∧
      p.messageAvailable.value = if p.inHdr.length ≠ 0 ∧ p.signalled = false then 1 else 0
  put : ∀ e ∈ p.put, e.2.mailHdr.to'.toInt = e.1 ∧ e.2.pktHdr.to' = b
  boxes : ∀ box, p.boxes box <:+ (p.put.filter fun e => e.1 = box).map Prod.snd

variable {b : Word} {p p' : PostOffice}

theorem Inv.stop (hi : Inv b p) : Inv b p.stop :=
  ⟨hi.inbox, fun h => Bool.noConfusion h, hi.put, hi.boxes⟩

theorem Inv.of_fresh (h : Net.Fresh p) : Inv b p := by
  refine ⟨fun hl => absurd h.inHdr hl, fun _ => ⟨fun hs => ?_, ?_⟩, fun e he => ?_, fun box => ?_⟩
  · rw [h.signalled] at hs
    cases hs
  · rw [h.messageAvailable, if_neg fun hc => hc.1 h.inHdr]
    rfl
  · rw [h.put] at he
    cases he
  · rw [h.boxes]
    exact List.nil_suffix

theorem Inv.send (hi : Inv b p) (t : ℕ) (c : SendCall) : Inv b (p.send b t c) := by
  unfold PostOffice.send
  split_ifs
  · exact ⟨hi.inbox, hi.available, hi.put, hi.boxes⟩
  · exact hi.stop

theorem Inv.waitSent (hi : Inv b p) (t : ℕ) : Inv b (p.waitSent t) :=
  ⟨hi.inbox, hi.available, hi.put, hi.boxes⟩

theorem Inv.sendDone (hi : Inv b p) : Inv b p.sendDone :=
  ⟨hi.inbox, hi.available, hi.put, hi.boxes⟩

theorem Inv.waitAvailable (hi : Inv b p) (hs : p.signalled = false) (hr : p.stopped = false) :
    Inv b p.waitAvailable := by
  obtain ⟨-, hv⟩ := hi.available hr
  refine ⟨hi.inbox, fun _ => ?_, hi.put, hi.boxes⟩
  show ((p.messageAvailable.P postalWorker).2 = true → p.inHdr.length ≠ 0) ∧
    (p.messageAvailable.P postalWorker).1.value =
      if p.inHdr.length ≠ 0 ∧ (p.messageAvailable.P postalWorker).2 = false then 1 else 0
  by_cases hl : p.inHdr.length = 0
  · rw [if_neg fun hc => hc.1 hl] at hv
    rw [Semaphore.P_zero hv, if_neg fun hc => hc.1 hl]
    exact ⟨fun h => Bool.noConfusion h, hv⟩
  · rw [if_pos ⟨hl, hs⟩] at hv
    rw [Semaphore.P_pos (by rw [hv]; decide), if_neg fun hc => Bool.noConfusion hc.2]
    refine ⟨fun _ => hl, ?_⟩
    show intPred p.messageAvailable.value = 0
    rw [hv]
    rfl

/-- The worker takes the mail that is in the inbox. -/
theorem Inv.delivered (hi : Inv b p) (hl : p.inHdr.length ≠ 0) :
    p.delivered = mailOf p.inHdr p.inbox := by
  refine (mailOf_congr (hi.inbox hl).2 fun k hk => ?_).1
  rw [received, if_neg hl, Buffer.splice_inside (Nat.zero_le k) (by omega), Nat.sub_zero]

theorem Inv.deliver (hi : Inv b p) (hs : p.signalled = true) (hr : p.stopped = false) :
    Inv b p.deliver := by
  obtain ⟨hl, hv⟩ := hi.available hr
  unfold PostOffice.deliver
  split_ifs with hc
  · refine ⟨fun h => absurd rfl h, fun _ => ⟨fun h => Bool.noConfusion h, ?_⟩, fun e he => ?_,
      fun box => ?_⟩
    · show p.messageAvailable.value = _
      rw [hv, if_neg fun h => Bool.noConfusion (hs.symm.trans h.2), if_neg fun h => h.1 rfl]
    · rcases List.mem_append.mp he with he | he
      · exact hi.put e he
      · rw [List.mem_singleton.mp he]
        exact ⟨rfl, (hi.inbox (hl hs)).1⟩
    · show Function.update p.boxes p.target (p.boxes p.target ++ [p.delivered]) box <:+
        ((p.put ++ [(p.target, p.delivered)]).filter fun e => e.1 = box).map Prod.snd
      rw [List.filter_append, List.map_append]
      rcases eq_or_ne box p.target with rfl | hne
      · obtain ⟨pre, hpre⟩ := hi.boxes p.target
        have hone : [(p.target, p.delivered)].filter (fun e => e.1 = p.target) =
            [(p.target, p.delivered)] := List.filter_eq_self.mpr (by simp)
        rw [Function.update_self, hone, ← hpre, List.append_assoc]
        exact List.suffix_append ..
      · have hone : [(p.target, p.delivered)].filter (fun e => e.1 = box) = [] :=
          List.filter_eq_nil_iff.mpr (by simpa using hne.symm)
        rw [Function.update_of_ne hne, hone, List.map_nil, List.append_nil]
        exact hi.boxes box
  · exact hi.stop

theorem Inv.receive (hi : Inv b p) (box : ℤ) : Inv b (p.receive box) := by
  unfold PostOffice.receive
  split_ifs
  · cases hb : p.boxes box with
    | nil => exact hi.stop
    | cons mail rest =>
      show Inv b (if mail.mailHdr.length.toNat ≤ maxMailSize then _ else _)
      split_ifs
      · refine ⟨hi.inbox, hi.available, hi.put, fun box' => ?_⟩
        show Function.update p.boxes box rest box' <:+ _
        rcases eq_or_ne box' box with rfl | hne
        · rw [Function.update_self]
          exact ((hb ▸ List.suffix_cons mail rest :) : rest <:+ p.boxes box').trans (hi.boxes box')
        · rw [Function.update_of_ne hne]
          exact hi.boxes box'
      · exact hi.stop
  · exact hi.stop

/-- A packet is read whole. -/
theorem readPacket_eq {packet : ℕ → Byte} (hto : (PacketHeader.ofBytes packet).to' = b)
    (hs : Sound (PacketHeader.ofBytes packet) (bytesAt packet headerSize)) (buffer : ℕ → Byte) :
    ∃ inbox : ℕ → Byte,
      (∀ k < (PacketHeader.ofBytes packet).length.toNat, inbox k = packet (headerSize + k)) ∧
        p.readPacket b (Buffer.splice buffer 0 maxWireSize packet) =
          { p with
            inHdr := PacketHeader.ofBytes packet
            inbox
            messageAvailable := p.messageAvailable.V } := by
  have hwire : ∀ k < maxWireSize, Buffer.splice buffer 0 maxWireSize packet k = packet k :=
    fun k hk => by rw [Buffer.splice_inside (Nat.zero_le k) (by omega), Nat.sub_zero]
  have hhdr : PacketHeader.ofBytes (Buffer.splice buffer 0 maxWireSize packet) =
      PacketHeader.ofBytes packet :=
    PacketHeader.ofBytes_congr fun k hk => hwire k (hk.trans (by decide))
  have hmax : (PacketHeader.ofBytes packet).length.toNat ≤ maxPacketSize := by
    have hw : maxPacketSize = headerSize + maxMailSize := rfl
    rw [hs.1, hw]
    exact Nat.add_le_add_left hs.2 _
  rw [readPacket, hhdr, if_pos ⟨hto, hmax⟩]
  refine ⟨_, fun k hk => ?_, rfl⟩
  rw [Buffer.splice_inside (Nat.zero_le k) (by omega), Nat.sub_zero]
  refine hwire (headerSize + k) ?_
  have hw : maxWireSize = headerSize + maxPacketSize := rfl
  omega

theorem Inv.readPacket (hi : Inv b p) (he : p.inHdr.length = 0) (hr : p.stopped = false)
    {packet : ℕ → Byte} (hto : (PacketHeader.ofBytes packet).to' = b)
    (hs : Sound (PacketHeader.ofBytes packet) (bytesAt packet headerSize)) (buffer : ℕ → Byte) :
    Inv b (p.readPacket b (Buffer.splice buffer 0 maxWireSize packet)) := by
  obtain ⟨inbox, hbody, heq⟩ := readPacket_eq (p := p) hto hs buffer
  obtain ⟨hsig, hv⟩ := hi.available hr
  have hns : p.signalled = false := by
    by_contra h
    exact hsig (by simpa using h) he
  have hne := hs.length_ne_zero
  rw [heq]
  refine ⟨fun _ => ⟨hto, (mailOf_congr hs fun k hk => hbody k hk).2⟩, fun _ => ⟨fun _ => hne, ?_⟩,
    hi.put, hi.boxes⟩
  rw [if_neg fun h => h.1 he] at hv
  rw [if_pos ⟨hne, hns⟩]
  exact Semaphore.V_zero hv

/-- The mail in the packet is the one in the inbox then. -/
theorem readPacket_arrived (he : p.inHdr.length = 0) {packet : ℕ → Byte}
    (hto : (PacketHeader.ofBytes packet).to' = b)
    (hs : Sound (PacketHeader.ofBytes packet) (bytesAt packet headerSize)) (buffer : ℕ → Byte)
    (a : Word) :
    (p.readPacket b (Buffer.splice buffer 0 maxWireSize packet)).arrived a =
      p.arrived a ++ [packetMail packet].filter fun m => m.pktHdr.from' = a := by
  obtain ⟨inbox, hbody, heq⟩ := readPacket_eq (p := p) hto hs buffer
  rw [heq, arrived, arrived, held, held, if_pos he, if_neg hs.length_ne_zero, List.filter_nil,
    List.append_nil, (mailOf_congr hs fun k hk => hbody k hk).1]
  rfl

/-- The mail in the inbox becomes one in a mailbox. -/
theorem Inv.deliver_arrived (hi : Inv b p) (hs : p.signalled = true) (hr : p.stopped = false)
    (a : Word) : p.deliver.arrived a = p.arrived a := by
  have hl := (hi.available hr).1 hs
  unfold PostOffice.deliver
  split_ifs
  · show ((p.put ++ [(p.target, p.delivered)]).map Prod.snd).filter _ ++ _ = _
    rw [List.map_append, List.filter_append, hi.delivered hl, held, if_pos rfl, List.filter_nil,
      List.append_nil, arrived, held, if_neg hl]
    rfl
  · rfl

theorem receive_arrived (box : ℤ) (a : Word) :
    (p.receive box).arrived a = p.arrived a ∧ (p.receive box).sent = p.sent := by
  unfold PostOffice.receive
  split_ifs
  · cases hb : p.boxes box with
    | nil => exact ⟨rfl, rfl⟩
    | cons mail rest =>
      show (if mail.mailHdr.length.toNat ≤ maxMailSize then _ else _ : PostOffice).arrived a = _ ∧
        (if mail.mailHdr.length.toNat ≤ maxMailSize then _ else _ : PostOffice).sent = _
      split_ifs <;> exact ⟨rfl, rfl⟩
  · exact ⟨rfl, rfl⟩

end PostOffice

namespace Net

/-- The packet is for machine `b`, from machine `a`, and well formed. -/
structure Addressed (b a : Word) (packet : ℕ → Byte) : Prop where
  to' : (PacketHeader.ofBytes packet).to' = b
  from' : (PacketHeader.ofBytes packet).from' = a
  sound : Sound (PacketHeader.ofBytes packet) (bytesAt packet headerSize)

structure Inv (s : Net) : Prop where
  post : ∀ b, (s.post b).Inv b
  sock : ∀ b a, ∀ packet ∈ s.sock b a, Addressed b a packet
  order : ∀ b a,
    ((s.post b).arrived a ++ (s.sock b a).map packetMail).Sublist ((s.post a).sentTo b)

variable {s s' : Net} {a b : Word} {p : PostOffice} {l : Label}

theorem filter_one_pos {q : Mail → Prop} [DecidablePred q] {m : Mail} (h : q m) :
    [m].filter (fun x => q x) = [m] :=
  List.filter_cons_of_pos (p := fun x => decide (q x)) (decide_eq_true h)

theorem filter_one_neg {q : Mail → Prop} [DecidablePred q] {m : Mail} (h : ¬ q m) :
    [m].filter (fun x => q x) = [] :=
  List.filter_cons_of_neg (p := fun x => decide (q x)) (by simpa using h)

@[simp] theorem setPost_self (s : Net) (a : Word) (p : PostOffice) : (s.setPost a p).post a = p :=
  Function.update_self ..

theorem setPost_of_ne (s : Net) {a b : Word} (h : b ≠ a) (p : PostOffice) :
    (s.setPost a p).post b = s.post b := Function.update_of_ne h ..

@[simp] theorem setSock_self (s : Net) (b a : Word) (ps : List (ℕ → Byte)) :
    (s.setSock b a ps).sock b a = ps := by
  show Function.update s.sock b (Function.update (s.sock b) a ps) b a = ps
  rw [Function.update_self, Function.update_self]

theorem setSock_of_ne (s : Net) {b a b' a' : Word} (h : b' ≠ b ∨ a' ≠ a)
    (ps : List (ℕ → Byte)) : (s.setSock b a ps).sock b' a' = s.sock b' a' := by
  show Function.update s.sock b _ b' a' = _
  rcases eq_or_ne b' b with rfl | hb
  · rw [Function.update_self, Function.update_of_ne (h.resolve_left fun h => h rfl)]
  · rw [Function.update_of_ne hb]

/-- A step of one machine, after which it still has all that is on the way to it before it. -/
theorem Inv.setPost_of_order (hi : s.Inv) (hp : p.Inv a)
    (horder : ∀ c, (p.arrived c ++ (s.sock a c).map packetMail).Sublist ((s.post c).sentTo a))
    (hsent : (s.post a).sent.Sublist p.sent) : (s.setPost a p).Inv := by
  have hsub : ∀ c, (s.post c).sent.Sublist ((s.setPost a p).post c).sent := fun c => by
    rcases eq_or_ne c a with rfl | hc
    · rwa [setPost_self]
    · rw [setPost_of_ne s hc]
  refine ⟨fun b => ?_, hi.sock, fun b c => List.Sublist.trans ?_ ((hsub c).filter _)⟩
  · rcases eq_or_ne b a with rfl | hb
    · rwa [setPost_self]
    · rw [setPost_of_ne s hb]
      exact hi.post b
  · rcases eq_or_ne b a with rfl | hb
    · rw [setPost_self]
      exact horder c
    · rw [setPost_of_ne s hb]
      exact hi.order b c

/-- A step of one machine that neither takes a packet from its socket nor sends one. -/
theorem Inv.setPost (hi : s.Inv) (hp : p.Inv a) (harr : ∀ c, p.arrived c = (s.post a).arrived c)
    (hsent : (s.post a).sent.Sublist p.sent) : (s.setPost a p).Inv :=
  hi.setPost_of_order hp (fun c => by rw [harr]; exact hi.order a c) hsent

/-- Some packets on the way are lost. -/
theorem Inv.setSock (hi : s.Inv) {ps : List (ℕ → Byte)} (hps : ps.Sublist (s.sock b a)) :
    (s.setSock b a ps).Inv := by
  have hsock : ∀ b' a', ((s.setSock b a ps).sock b' a').Sublist (s.sock b' a') := fun b' a' => by
    by_cases h : b' = b ∧ a' = a
    · obtain ⟨rfl, rfl⟩ := h
      rwa [setSock_self]
    · rw [setSock_of_ne s (not_and_or.mp h)]
  exact ⟨hi.post, fun b' a' packet hp => hi.sock b' a' packet ((hsock b' a').subset hp),
    fun b' a' => ((List.Sublist.refl _).append ((hsock b' a').map _)).trans (hi.order b' a')⟩

/-- The packet of a call of `Send`, and the mail in it. -/
theorem addressed_packet {c : SendCall} (hc : c.mailHdr.length.toNat ≤ maxMailSize) (a : Word) :
    Addressed c.pktHdr.to' a (c.packet a) ∧ packetMail (c.packet a) = c.mail a := by
  have hlen : (c.header a).length.toNat = headerSize + c.mailHdr.length.toNat := by
    have hw : maxMailSize = 40 := rfl
    have hh : headerSize = 12 := rfl
    show (c.mailHdr.length + BitVec.ofNat 32 headerSize).toNat = _
    rw [BitVec.toNat_add, BitVec.toNat_ofNat]
    omega
  have hbytes := ofBytes_packetBytes (c.header a) (mailBytes c.mailHdr c.data c.buffer) c.wire
  obtain ⟨hmail, hsound⟩ := packetMail_packetBytes hlen hc c.data c.buffer c.wire
  refine ⟨⟨?_, ?_, ?_⟩, hmail⟩
  · rw [SendCall.packet, hbytes]
    rfl
  · rw [SendCall.packet, hbytes]
    rfl
  · rw [SendCall.packet, hbytes]
    exact hsound

theorem send_arrived (p : PostOffice) (a : Word) (t : ℕ) (c : SendCall) (d : Word) :
    (p.send a t c).arrived d = p.arrived d := by
  unfold PostOffice.send
  split_ifs <;> rfl

/-- A packet goes into the socket behind the others. -/
theorem Inv.enqueue (hi : s.Inv) {packet : ℕ → Byte} (haddr : Addressed b a packet)
    (h : ((s.post b).arrived a ++ (s.sock b a).map packetMail ++ [packetMail packet]).Sublist
      ((s.post a).sentTo b)) : (s.setSock b a (s.sock b a ++ [packet])).Inv := by
  refine ⟨hi.post, fun b' a' q hq => ?_, fun b' a' => ?_⟩
  · by_cases hba : b' = b ∧ a' = a
    · obtain ⟨rfl, rfl⟩ := hba
      rw [setSock_self] at hq
      rcases List.mem_append.mp hq with hq | hq
      · exact hi.sock b' a' q hq
      · exact List.mem_singleton.mp hq ▸ haddr
    · rw [setSock_of_ne s (not_and_or.mp hba)] at hq
      exact hi.sock b' a' q hq
  · by_cases hba : b' = b ∧ a' = a
    · obtain ⟨rfl, rfl⟩ := hba
      rw [setSock_self, List.map_append, ← List.append_assoc]
      exact h
    · rw [setSock_of_ne s (not_and_or.mp hba)]
      exact hi.order b' a'

theorem Inv.send (hi : s.Inv) (t : ℕ) (c : SendCall) :
    ((s.dispatch a c).setPost a ((s.post a).send a t c)).Inv := by
  have hsub : (s.post a).sent.Sublist ((s.post a).send a t c).sent := by
    unfold PostOffice.send
    split_ifs
    · exact List.sublist_append_left ..
    · exact List.Sublist.refl _
  have hi₁ : (s.setPost a ((s.post a).send a t c)).Inv :=
    hi.setPost ((hi.post a).send t c) (send_arrived _ a t c) hsub
  unfold dispatch
  split_ifs with hc
  · obtain ⟨haddr, hmail⟩ := addressed_packet hc.1.1.1 a
    refine hi₁.enqueue haddr ?_
    -- the mail is the last one sent, and for that machine
    have harr : ((s.setPost a ((s.post a).send a t c)).post c.pktHdr.to').arrived a =
        (s.post c.pktHdr.to').arrived a := by
      rcases eq_or_ne c.pktHdr.to' a with hca | hca
      · rw [hca, setPost_self, send_arrived]
      · rw [setPost_of_ne s hca]
    have hsent : ((s.post a).send a t c).sentTo c.pktHdr.to' =
        (s.post a).sentTo c.pktHdr.to' ++ [c.mail a] := by
      rw [PostOffice.send, if_pos ⟨hc.1, by rw [hc.2]; decide⟩]
      show ((s.post a).sent ++ [c.mail a]).filter _ = _
      rw [List.filter_append, filter_one_pos (q := fun m => m.pktHdr.to' = c.pktHdr.to') rfl]
      rfl
    rw [harr, setPost_self, hsent, hmail]
    exact (hi.order _ a).append (List.Sublist.refl _)
  · exact hi₁

theorem Inv.poll (hi : s.Inv) (hr : (s.post b).stopped = false) (heard : Option Word)
    (buffer : ℕ → Byte) : (s.checkPktAvail b heard buffer).Inv := by
  unfold checkPktAvail
  split_ifs with he
  · cases heard with
    | none => exact hi
    | some a =>
      cases hs : s.sock b a with
      | nil => simpa only [hs] using hi
      | cons packet rest =>
        simp only [hs]
        have haddr : Addressed b a packet := hi.sock b a packet (hs ▸ List.mem_cons_self)
        refine (hi.setSock (hs ▸ List.sublist_cons_self packet rest :)).setPost_of_order
          ((hi.post b).readPacket he hr haddr.to' haddr.sound buffer) (fun c => ?_) ?_
        · show ((PostOffice.readPacket _ _ _).arrived c ++ _).Sublist ((s.post c).sentTo b)
          rw [PostOffice.readPacket_arrived he haddr.to' haddr.sound]
          rcases eq_or_ne c a with rfl | hc
          · rw [setSock_self, filter_one_pos haddr.from', List.append_assoc]
            have horder := hi.order b c
            rwa [hs] at horder
          · rw [setSock_of_ne s (.inr hc), filter_one_neg, List.append_nil]
            · exact hi.order b c
            · exact fun h => hc (h.symm.trans haddr.from')
        · unfold PostOffice.readPacket
          split_ifs <;> exact List.Sublist.refl _
  · exact hi

theorem Inv.act (hi : s.Inv) (hr : s.Runs l) (he : s.Enabled l) : (s.act l).Inv := by
  have hrun : ∀ a, actor l = some a → (s.post a).stopped = false := fun a ha => hr a ha
  cases l with
  | send a t c => exact hi.send t c
  | waitSent a t => exact hi.setPost ((hi.post a).waitSent t) (fun _ => rfl) (List.Sublist.refl _)
  | sendDone a => exact hi.setPost (hi.post a).sendDone (fun _ => rfl) (List.Sublist.refl _)
  | poll b heard buffer => exact hi.poll (hrun b rfl) heard buffer
  | waitAvailable b =>
    exact hi.setPost ((hi.post b).waitAvailable he.1 (hrun b rfl)) (fun _ => rfl)
      (List.Sublist.refl _)
  | deliver b =>
    refine hi.setPost ((hi.post b).deliver he (hrun b rfl))
      (fun c => (hi.post b).deliver_arrived he (hrun b rfl) c) ?_
    unfold PostOffice.deliver
    split_ifs <;> exact List.Sublist.refl _
  | receive b box =>
    exact hi.setPost ((hi.post b).receive box) (fun c => (PostOffice.receive_arrived box c).1)
      ((PostOffice.receive_arrived box 0).2 ▸ List.Sublist.refl _)
  | lose b a i => exact hi.setSock (List.eraseIdx_sublist ..)

theorem step_eq_some (h : s.step l = some s') : s.Runs l ∧ s.Enabled l ∧ s' = s.act l := by
  unfold step at h
  split_ifs at h with hc
  exact ⟨hc.1, hc.2, (Option.some.inj h).symm⟩

theorem Inv.step (hi : s.Inv) (h : s.step l = some s') : s'.Inv := by
  obtain ⟨hr, he, rfl⟩ := step_eq_some h
  exact hi.act hr he

theorem Inv.of_init (h : Init s) : s.Inv := by
  refine ⟨fun b => PostOffice.Inv.of_fresh (h.1 b), fun b a packet hp => ?_, fun b a => ?_⟩
  · rw [h.2] at hp
    cases hp
  · rw [h.2, PostOffice.arrived, PostOffice.putFrom, PostOffice.held, (h.1 b).put,
      if_pos (h.1 b).inHdr]
    exact List.nil_sublist _

theorem inv_of_reach (h : Run.Reach step Init s) : s.Inv :=
  h.inv Inv (fun _ => Inv.of_init) fun _ _ _ hi => hi.step

/-! ## The inbox -/

/-- Only the postal worker frees an inbox that is taken. -/
theorem act_keeps_inbox (hne : (s.post b).inHdr.length ≠ 0) (hl : l ≠ .deliver b) :
    ((s.act l).post b).inHdr = (s.post b).inHdr ∧ ((s.act l).post b).inbox = (s.post b).inbox := by
  have hset : ∀ (u : Net) (a : Word) (p : PostOffice), u.post = s.post →
      (p.inHdr = (s.post a).inHdr ∧ p.inbox = (s.post a).inbox ∨ a ≠ b) →
      ((u.setPost a p).post b).inHdr = (s.post b).inHdr ∧
        ((u.setPost a p).post b).inbox = (s.post b).inbox := fun u a p hu hp => by
    rcases eq_or_ne b a with rfl | hb
    · rw [setPost_self]
      exact hp.resolve_right fun h => h rfl
    · rw [setPost_of_ne u hb, hu]
      exact ⟨rfl, rfl⟩
  cases l with
  | send a t c =>
    refine hset _ a _ ?_ (.inl ?_)
    · unfold dispatch
      split_ifs <;> rfl
    · unfold PostOffice.send
      split_ifs <;> exact ⟨rfl, rfl⟩
  | waitSent a t => exact hset s a _ rfl (.inl ⟨rfl, rfl⟩)
  | sendDone a => exact hset s a _ rfl (.inl ⟨rfl, rfl⟩)
  | poll b' heard buffer =>
    show ((s.checkPktAvail b' heard buffer).post b).inHdr = _ ∧
      ((s.checkPktAvail b' heard buffer).post b).inbox = _
    unfold checkPktAvail
    split_ifs with he
    · have hb : b' ≠ b := fun h => hne (h ▸ he)
      cases heard with
      | none => exact ⟨rfl, rfl⟩
      | some a =>
        cases hs : s.sock b' a with
        | nil => simp only [hs, and_self]
        | cons packet rest =>
          simp only [hs]
          exact hset (s.setSock b' a rest) b' _ rfl (.inr hb)
    · exact ⟨rfl, rfl⟩
  | waitAvailable b' => exact hset s b' _ rfl (.inl ⟨rfl, rfl⟩)
  | deliver b' => exact hset s b' _ rfl (.inr fun h => hl (h ▸ rfl))
  | receive b' box =>
    refine hset s b' _ rfl (.inl ?_)
    unfold PostOffice.receive
    split_ifs
    · split
      · exact ⟨rfl, rfl⟩
      · split_ifs <;> exact ⟨rfl, rfl⟩
    · exact ⟨rfl, rfl⟩
  | lose b' a i => exact ⟨rfl, rfl⟩

theorem exec_keeps_inbox {hdr : PacketHeader} {inbox : ℕ → Byte} {ls : List Label}
    (hne : hdr.length ≠ 0) (hs : (s.post b).inHdr = hdr ∧ (s.post b).inbox = inbox)
    (ha : Run.Admits step (fun _ l => l ≠ .deliver b) s ls) (he : Run.exec step s ls = some s') :
    (s'.post b).inHdr = hdr ∧ (s'.post b).inbox = inbox := by
  have hstep : ∀ u l u', (u.post b).inHdr = hdr ∧ (u.post b).inbox = inbox → l ≠ .deliver b →
      step u l = some u' → (u'.post b).inHdr = hdr ∧ (u'.post b).inbox = inbox :=
    fun u l u' hu hl h => by
      obtain ⟨-, -, rfl⟩ := step_eq_some h
      obtain ⟨hhdr, hinbox⟩ := act_keeps_inbox (s := u) (by rw [hu.1]; exact hne) hl
      exact ⟨hhdr.trans hu.1, hinbox.trans hu.2⟩
  exact Run.exec_inv hstep ls s s' hs ha he

/-- The poll that takes a packet out of the socket puts it in the inbox. -/
theorem Inv.poll_inbox (hi : s.Inv) {packet : ℕ → Byte} {rest : List (ℕ → Byte)}
    {buffer : ℕ → Byte} (hs : s.sock b a = packet :: rest)
    (hrest : (s.checkPktAvail b (some a) buffer).sock b a = rest) :
    ∃ inbox : ℕ → Byte,
      (∀ k < (PacketHeader.ofBytes packet).length.toNat, inbox k = packet (headerSize + k)) ∧
        ((s.checkPktAvail b (some a) buffer).post b).inHdr = PacketHeader.ofBytes packet ∧
        ((s.checkPktAvail b (some a) buffer).post b).inbox = inbox := by
  have haddr : Addressed b a packet := hi.sock b a packet (hs ▸ List.mem_cons_self)
  obtain ⟨inbox, hbody, heq⟩ :=
    PostOffice.readPacket_eq (p := s.post b) haddr.to' haddr.sound buffer
  unfold checkPktAvail at hrest ⊢
  split_ifs at hrest ⊢ with he
  · refine ⟨inbox, hbody, ?_⟩
    simp only [hs, setPost_self, heq, and_self]
  · exact absurd (hs.symm.trans hrest) (List.cons_ne_self packet rest)

/-- A machine whose inbox is free and whose worker waits delivers the next packet. -/
theorem Inv.delivers (hi : s.Inv) (hr : (s.post b).stopped = false)
    (hsig : (s.post b).signalled = false) (he : (s.post b).inHdr.length = 0)
    (hq : postalWorker ∉ (s.post b).messageAvailable.queue.tail) {packet : ℕ → Byte}
    {rest : List (ℕ → Byte)} (hs : s.sock b a = packet :: rest)
    (hbox : 0 ≤ (packetMail packet).mailHdr.to'.toInt ∧
      (packetMail packet).mailHdr.to'.toInt < (s.post b).numBoxes) (buffer : ℕ → Byte) :
    ∃ s', Run.exec Net.step s [.poll b (some a) buffer, .waitAvailable b, .deliver b] = some s' ∧
      (s'.post b).put =
        (s.post b).put ++ [((packetMail packet).mailHdr.to'.toInt, packetMail packet)] := by
  have haddr : Addressed b a packet := hi.sock b a packet (hs ▸ List.mem_cons_self)
  obtain ⟨inbox, hbody, hread⟩ :=
    PostOffice.readPacket_eq (p := s.post b) haddr.to' haddr.sound buffer
  have hruns : ∀ (u : Net) (l : Label), actor l = some b → (u.post b).stopped = false →
      u.Runs l := fun u l hl hu c hc => by
    obtain rfl : b = c := Option.some.inj (hl.symm.trans hc)
    exact hu
  obtain ⟨s₁, h₁, hpost₁⟩ : ∃ s₁, s.step (.poll b (some a) buffer) = some s₁ ∧
      s₁.post b = { s.post b with
        inHdr := PacketHeader.ofBytes packet
        inbox
        messageAvailable := (s.post b).messageAvailable.V } := by
    refine ⟨_, if_pos ⟨hruns s _ rfl hr, trivial⟩, ?_⟩
    show (checkPktAvail s b (some a) buffer).post b = _
    simp only [checkPktAvail, if_pos he, hs, setPost_self, hread]
  have hv : (s₁.post b).messageAvailable.value = 1 := by
    rw [hpost₁]
    refine Semaphore.V_zero ?_
    rw [((hi.post b).available hr).2, if_neg fun h => h.1 he]
  obtain ⟨s₂, h₂, hpost₂⟩ : ∃ s₂, s₁.step (.waitAvailable b) = some s₂ ∧
      s₂.post b = (s₁.post b).waitAvailable := by
    have he₁ : s₁.Enabled (.waitAvailable b) := by
      show (s₁.post b).signalled = false ∧ _ ∉ (s₁.post b).messageAvailable.queue
      rw [hpost₁]
      exact ⟨hsig, hq⟩
    exact ⟨_, if_pos ⟨hruns s₁ _ rfl (by rw [hpost₁]; exact hr), he₁⟩, setPost_self ..⟩
  have hi₂ : s₂.Inv := (hi.step h₁).step h₂
  have hhdr₂ : (s₂.post b).inHdr = PacketHeader.ofBytes packet := by rw [hpost₂, hpost₁]; rfl
  have hinbox₂ : (s₂.post b).inbox = inbox := by rw [hpost₂, hpost₁]; rfl
  have hmail₂ : (s₂.post b).delivered = packetMail packet := by
    rw [(hi₂.post b).delivered (hhdr₂ ▸ haddr.sound.length_ne_zero), hhdr₂, hinbox₂]
    exact (mailOf_congr haddr.sound fun k hk => hbody k hk).1
  have hmh₂ : MailHeader.ofBytes (s₂.post b).received = (packetMail packet).mailHdr :=
    congrArg Mail.mailHdr hmail₂
  have hr₂ : (s₂.post b).stopped = false := by rw [hpost₂, hpost₁]; exact hr
  have he₂ : s₂.Enabled (.deliver b) := by
    show (s₂.post b).signalled = true
    rw [hpost₂, PostOffice.waitAvailable, Semaphore.P_pos (by rw [hv]; decide)]
  have h₃ : s₂.step (.deliver b) = some (s₂.setPost b (s₂.post b).deliver) :=
    if_pos ⟨hruns s₂ _ rfl hr₂, he₂⟩
  refine ⟨s₂.setPost b (s₂.post b).deliver, ?_, ?_⟩
  · simp only [Run.exec_cons, h₁, h₂, h₃, Option.bind_some, Run.exec_nil]
  · show ((s₂.setPost b (s₂.post b).deliver).post b).put = _
    rw [setPost_self, PostOffice.deliver, PostOffice.target, hmh₂, hmail₂, if_pos]
    · rw [hpost₂, hpost₁]
      rfl
    · refine ⟨?_, haddr.sound.2⟩
      rw [hpost₂, hpost₁]
      exact hbox

/-- Every mail in a mailbox was sent to that machine and that box, with the same headers and data,
by the machine it names. The mails that machine `b` gets from `a` are some of those `a` sent to `b`,
each of them once and in their order. A packet that a poll reads stays in the inbox until the postal
worker takes it. -/
theorem mail_delivered (hr : Run.Reach step Init s) (b : Word) :
    (∀ e ∈ (s.post b).put, e.2 ∈ (s.post e.2.pktHdr.from').sent ∧ e.2.pktHdr.to' = b ∧
        e.2.mailHdr.to'.toInt = e.1) ∧
      (∀ a, ((s.post b).putFrom a).Sublist ((s.post a).sentTo b)) ∧
      (∀ box, (s.post b).boxes box <:+
        ((s.post b).put.filter fun e => e.1 = box).map Prod.snd) ∧
      ∀ a buffer packet rest s₁ ls s₂, s.sock b a = packet :: rest →
        s.step (.poll b (some a) buffer) = some s₁ → s₁.sock b a = rest →
        Run.Admits step (fun _ l => l ≠ .deliver b) s₁ ls → Run.exec step s₁ ls = some s₂ →
        (s₂.post b).inHdr = PacketHeader.ofBytes packet ∧
          ∀ k < (PacketHeader.ofBytes packet).length.toNat,
            (s₂.post b).inbox k = packet (headerSize + k) := by
  have hi := inv_of_reach hr
  have hsub : ∀ a, ((s.post b).putFrom a).Sublist ((s.post a).sentTo b) := fun a =>
    ((List.sublist_append_left ..).trans (List.sublist_append_left ..)).trans (hi.order b a)
  refine ⟨fun e he => ?_, hsub, (hi.post b).boxes, ?_⟩
  · obtain ⟨hbox, hto⟩ := (hi.post b).put e he
    refine ⟨?_, hto, hbox⟩
    have hmem : e.2 ∈ (s.post b).putFrom e.2.pktHdr.from' :=
      List.mem_filter.mpr ⟨List.mem_map_of_mem he, decide_eq_true rfl⟩
    exact (List.mem_filter.mp ((hsub _).subset hmem)).1
  · intro a buffer packet rest s₁ ls s₂ hs h hrest ha he
    obtain ⟨-, -, rfl⟩ := step_eq_some h
    obtain ⟨inbox, hbody, hpoll⟩ := hi.poll_inbox hs hrest
    have haddr : Addressed b a packet := hi.sock b a packet (hs ▸ List.mem_cons_self)
    obtain ⟨hhdr, hin⟩ := exec_keeps_inbox haddr.sound.length_ne_zero hpoll ha he
    exact ⟨hhdr, fun k hk => by rw [hin]; exact hbody k hk⟩

/-- Every machine with ten mailboxes, nothing sent yet. -/
def boot : Net where
  post := fun _ =>
    { numBoxes := 10, inHdr := ⟨0, 0, 0⟩, inbox := fun _ => 0, sendBusy := false, sendsDue := 0,
      messageAvailable := Semaphore.new 0, messageSent := Semaphore.new 0, signalled := false,
      buffer := fun _ => 0, boxes := fun _ => [], sending := fun _ => false, stopped := false,
      sent := [], put := [] }
  sock := fun _ _ => []

/-- The first message of `MailTest`, from machine 0 to machine 1. -/
def hello : SendCall where
  pktHdr := ⟨1, 0, 0⟩
  mailHdr := ⟨0, 1, 13⟩
  data := fun k => [72, 101, 108, 108, 111, 32, 116, 104, 101, 114, 101, 33].getD k 0
  buffer := fun _ => 0xff
  wire := fun _ => 0xff
  fate := .onWay

theorem mail_delivered_hello :
    ∃ s s', boot.step (.send 0 0 hello) = some s ∧
      Run.exec step s [.poll 1 (some 0) (fun _ => 0xee), .waitAvailable 1, .deliver 1] = some s' ∧
      (0, hello.mail 0) ∈ (s'.post 1).put ∧ hello.mail 0 ∈ (s'.post 0).sent := by
  have hinit : Init boot :=
    ⟨fun _ => ⟨rfl, rfl, rfl, rfl, rfl, rfl, fun _ => rfl, fun _ => rfl, rfl, rfl, rfl⟩,
      fun _ _ => rfl⟩
  have hcan : (boot.post 0).CanSend 0 hello := by decide
  obtain ⟨s₁, h₁, hpost₁, hsock₁⟩ : ∃ s₁, boot.step (.send 0 0 hello) = some s₁ ∧
      s₁.post 1 = boot.post 1 ∧ s₁.sock 1 0 = [hello.packet 0] := by
    refine ⟨_, if_pos ⟨fun _ _ => rfl, rfl⟩, setPost_of_ne _ (by decide) _, ?_⟩
    show (dispatch boot 0 hello).sock 1 0 = _
    rw [dispatch, if_pos ⟨hcan, rfl⟩]
    rfl
  have hmail := (addressed_packet hcan.1.1 0).2
  obtain ⟨s₂, h₂, hput⟩ := ((Inv.of_init hinit).step h₁).delivers (b := 1) (by rw [hpost₁]; rfl)
    (by rw [hpost₁]; rfl) (by rw [hpost₁]; rfl) (by rw [hpost₁]; exact List.not_mem_nil) hsock₁
    (by rw [hmail, hpost₁]; exact hcan.1.2) fun _ => 0xee
  have hmem : (0, hello.mail 0) ∈ (s₂.post 1).put := by
    rw [hput, hmail]
    exact List.mem_append_right _ (List.mem_singleton_self _)
  have hexec := Run.exec_cons_eq_some.mpr ⟨s₁, h₁, h₂⟩
  exact ⟨s₁, s₂, h₁, h₂, hmem, ((mail_delivered ⟨boot, _, hinit, hexec⟩ 1).1 _ hmem).1⟩

end Net

end Nachos
