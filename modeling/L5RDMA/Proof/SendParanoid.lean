/-
  `sendParanoid` delivers messages in order, however the bytes of a write arrive.

  `InvAt`: the messages with a place in the ring (`F`) are those passed to
  `sendParanoid`, but for one that waits for space, and their writes arrive as
  `Placement.Inv` says.

  `fifo_paranoid`: the receiver returns the messages in order and unchanged.
-/
import L5RDMA.SendParanoid
import L5RDMA.Proof.VirtualRDMARingBuffer

namespace L5RDMA

namespace VirtualRDMARingBuffer

namespace Paranoid

open Run Verbs Channel Frame
open Placement (Progress Region parts Carries)
open Pos (lengthOf powerOfTwo)

/-! ## The invariant -/

/-- The message `p` is staged for the position after the messages `F`. -/
def Waiting (n B : ℕ) (F sent : List (List UInt8)) (sendPos : UInt64) (m : Mem)
    (dataSizeToWrite : UInt64) (p : List UInt8) : Prop :=
  Pending n B F sent sendPos m (8 + dataSizeToWrite) p ∧
    dataSizeToWrite = UInt64.ofNat (p.length + 8)

/-- What the sender knows; before it posts, that there is room, and between its two posts,
    that only the length is missing. -/
def SendOk (n B : ℕ) (F : List (List UInt8)) (unposted : List Region) (C : ℕ)
    (sent : List (List UInt8)) (sendPos : UInt64) (m : Mem) : SendPc → Prop
  | .idle => unposted = [] ∧ sent = F ∧ sendPos = UInt64.ofNat (endPos V B F)
  | .waitUntilSendFree dataSizeToWrite | .pollRead dataSizeToWrite => unposted = [] ∧
    ∃ p, Waiting n B F sent sendPos m dataSizeToWrite p
  | .postData dataSizeToWrite => unposted = [] ∧
    ∃ p, Waiting n B F sent sendPos m dataSizeToWrite p ∧ endPos V B (F ++ [p]) ≤ C + n
  | .postSize dataSizeToWrite => ∃ F' p, F = F' ++ [p] ∧ unposted = [⟨endPos V B F', 8⟩] ∧
    Waiting n B F' sent sendPos m dataSizeToWrite p
  | .waitForCompletion _ dataSizeToWrite | .advance dataSizeToWrite => unposted = [] ∧
    sent = F ∧ sendPos + (8 + dataSizeToWrite) = UInt64.ofNat (endPos V B F)

structure InvAt (B : ℕ) (F H : List (List UInt8)) (t : Progress) (C : ℕ) (s : State) : Prop where
  pow : powerOfTwo s.ring.size = true
  chan : Placement.Inv validity s.ring.phys s.ring.size.toNat B F s.ring.received H t
    s.ring.conn C
  placed : t.placed = s.placed
  recv : Placement.RecvOk validity B F s.ring.received H t.Arrived s.ring.recvPc
  send : SendOk s.ring.size.toNat B F t.unposted C s.ring.sent s.ring.sendPos
    s.ring.conn.sendBuf s.sendPc
  clean : ∀ p ∈ s.ring.sent, Clean V p

def Inv (B : ℕ) (s : State) : Prop := ∃ F H t C, InvAt B F H t C s

theorem inv_start {size : UInt64} (h : powerOfTwo size = true) (pos : UInt64) :
    Inv pos.toNat (start size pos) :=
  ⟨_, _, _, _,
    { pow := h
      chan := Placement.Inv.start rfl (fun _ => rfl) UInt64.ofNat_toNat.symm
        UInt64.ofNat_toNat.symm
      placed := rfl
      recv := rfl
      send := ⟨rfl, rfl, UInt64.ofNat_toNat.symm⟩
      clean := fun p hp => by cases hp }⟩

section
variable {B : ℕ} {F H : List (List UInt8)} {t : Progress} {C : ℕ} {s s' : State}

/-- Only a message that waits for space is sent and has no place in the ring. -/
theorem InvAt.posted (h : InvAt B F H t C s) : F <+: s.ring.sent := by
  have hs := h.send
  cases hpc : s.sendPc with
  | idle | waitForCompletion | advance => rw [hpc] at hs; exact hs.2.1 ▸ List.prefix_rfl
  | waitUntilSendFree | pollRead =>
    rw [hpc] at hs
    obtain ⟨-, p, hp, -⟩ := hs
    rw [hp.sent]; exact List.prefix_append _ _
  | postData =>
    rw [hpc] at hs
    obtain ⟨-, p, ⟨hp, -⟩, -⟩ := hs
    rw [hp.sent]; exact List.prefix_append _ _
  | postSize =>
    rw [hpc] at hs
    obtain ⟨F', p, rfl, -, hp, -⟩ := hs
    exact hp.sent ▸ List.prefix_rfl

theorem InvAt.delivered (h : InvAt B F H t C s) : s.ring.received <+: s.ring.sent :=
  h.chan.received_prefix.trans h.posted

theorem InvAt.maps_write (h : InvAt B F H t C s) {E : ℕ} (hE : s.ring.sendPos = UInt64.ofNat E)
    (len : ℕ) : Ring.Maps s.ring.phys s.ring.size.toNat s.ring.startOfWrite E len := by
  rw [State.startOfWrite_eq h.pow hE]; exact Ring.maps_mod _ _ _

theorem InvAt.maps_read (h : InvAt B F H t C s) (len : ℕ) :
    Ring.Maps s.ring.phys s.ring.size.toNat s.ring.startOfRead (endPos V B s.ring.received)
      len := by
  rw [State.startOfRead_eq h.pow h.chan.readPos]; exact Ring.maps_mod _ _ _

/-! ## The sender's steps -/

theorem sendParanoid_inv (h : InvAt B F H t C s) (hpc : s.sendPc = .idle) {data : List UInt8}
    (hfits : data.length + 16 ≤ s.ring.size.toNat) (hclean : Clean V data) :
    InvAt B F H t C (sendParanoid s data) := by
  have hs := h.send
  rw [hpc] at hs
  obtain ⟨hunposted, hsent, hpos⟩ := hs
  have hlen : (lengthOf data).toNat = data.length := toNat_length hfits
  have hdata : lengthOf data + 8 = UInt64.ofNat (data.length + 8) := Pos.ofNat_add _ 8
  have hsize : 8 + (lengthOf data + 8) = UInt64.ofNat (data.length + 16) := by
    rw [← UInt64.add_assoc]; exact frameSize _
  have hle : ¬ 8 + (lengthOf data + 8) > s.ring.size := by
    rw [← UInt64.add_assoc]; exact not_frameSize_gt hfits
  simp only [sendParanoid, if_neg hle, bytesOf, hlen]
  refine { h with
    chan := { h.chan with }
    send := ⟨hunposted, data, ⟨by rw [← hsent], hpos, hsize, hfits,
      staged_fill (h.maps_write hpos _) hfits⟩, hdata⟩
    clean := ?_ }
  intro p hp
  rcases List.mem_append.1 hp with hp | hp
  · exact h.clean p hp
  · rw [List.mem_singleton] at hp
    exact hp ▸ hclean

section
variable {F' sent : List (List UInt8)} {dataSizeToWrite : UInt64} {p : List UInt8}
  (hpow : powerOfTwo s.ring.size = true)
  (hp : Waiting s.ring.size.toNat B F' sent s.ring.sendPos s.ring.conn.sendBuf dataSizeToWrite p)
include hpow hp

/-- A write of a part of the staged frame. -/
theorem Waiting.carries {wr : Write} {k len : ℕ} (hkl : k + len ≤ p.length + 16)
    (hlocal : wr.localOff = s.ring.startOfWrite + k)
    (hremote : wr.remoteOff = s.ring.startOfWrite + k) (hlen : wr.length = len)
    (hin : ∀ bs, wr.inlined = some bs →
      bs = Mem.read s.ring.phys s.ring.conn.sendBuf (s.ring.startOfWrite + k) len) :
    Carries s.ring.phys s.ring.size.toNat (stream V B (F' ++ [p]))
      (wr.carry s.ring.phys s.ring.conn.sendBuf) ⟨endPos V B F' + k, len⟩ := by
  have hframe : Ring.Maps s.ring.phys s.ring.size.toNat s.ring.startOfWrite (endPos V B F')
      (p.length + 16) := by
    rw [State.startOfWrite_eq hpow hp.1.pos]; exact Ring.maps_mod _ _ _
  have hmap : Ring.Maps s.ring.phys s.ring.size.toNat (s.ring.startOfWrite + k)
      (endPos V B F' + k) len := (hframe.drop (by omega)).mono (by omega)
  refine { length := hlen, maps := ?_, bytes := ?_ }
  · show Ring.Maps _ _ wr.remoteOff _ _
    rw [hremote]
    exact hmap
  · intro m i hi
    dsimp only at hi ⊢
    have hi' : k + i < (frame V p).length := by rw [length_frame, length_trailer]; omega
    rw [Write.byte_carry _ _ m wr (by omega),
      Write.byte_local (by omega) (by rw [hlocal, hlen]; exact hin), hlocal, hmap i hi, add_assoc,
      stream_frame V (List.getElem?_eq_getElem hi')]
    exact hp.1.staged _ _ (List.getElem?_eq_getElem hi')

theorem dataRequest_carries : Carries s.ring.phys s.ring.size.toNat (stream V B (F' ++ [p]))
    ((dataRequest s.ring dataSizeToWrite).carry s.ring.phys s.ring.conn.sendBuf)
    ⟨endPos V B F' + 8, p.length + 8⟩ := by
  have hfits := hp.1.fits
  have hlen : dataSizeToWrite.toNat = p.length + 8 := by
    have := s.ring.size.toNat_lt
    rw [hp.2, Pos.ofNat_toNat, Nat.mod_eq_of_lt (by omega)]
  refine Waiting.carries hpow hp (by omega) rfl rfl hlen ?_
  intro bs hbs
  simp only [dataRequest] at hbs
  split_ifs at hbs
  rw [← hlen]
  exact (Option.some.inj hbs).symm

theorem sizeRequest_carries : Carries s.ring.phys s.ring.size.toNat (stream V B (F' ++ [p]))
    ((sizeRequest s.ring).carry s.ring.phys s.ring.conn.sendBuf) ⟨endPos V B F', 8⟩ :=
  Waiting.carries (k := 0) hpow hp (by omega) rfl rfl rfl
    fun _ hbs => (Option.some.inj hbs).symm

end

/-- The first write, which gives the message its place in the ring, -/
theorem InvAt.postData (h : InvAt B F H t C s) {dataSizeToWrite : UInt64}
    (hpc : s.sendPc = .postData dataSizeToWrite) :
    Inv B { s with
      ring := post s.ring (dataRequest s.ring dataSizeToWrite)
      sendPc := .postSize dataSizeToWrite } := by
  have hsend := h.send
  rw [hpc] at hsend
  obtain ⟨hunposted, p, hp, hroom⟩ := hsend
  have hfits := hp.1.fits
  have hcarries := dataRequest_carries h.pow hp
  have hnext : t.unposted ++ parts V (endPos V B F) [p] =
      [⟨endPos V B F + 8, p.length + 8⟩, ⟨endPos V B F, 8⟩] := by rw [hunposted]; rfl
  have hext := h.chan.extend hfits hroom
  have hpost := hext.post hnext (Nat.succ_pos _) hcarries
  exact ⟨F ++ [p], H, _, C, { h with
    chan := hpost
    recv := h.recv.mono (List.prefix_append _ _)
      (fun q hq => (Progress.arrived_post hext.fresh).2 hq) fun q hq => (h.chan.arrived_lt hq).2
    send := ⟨F, p, rfl, rfl, hp⟩ }⟩

/-- and the second, after which nothing of it is missing. -/
theorem InvAt.postSize (h : InvAt B F H t C s) {dataSizeToWrite : UInt64} {pc : SendPc}
    (hpc : s.sendPc = .postSize dataSizeToWrite)
    (hpc' : pc = .waitForCompletion .getEvent dataSizeToWrite ∨ pc = .advance dataSizeToWrite) :
    Inv B { s with ring := post s.ring (sizeRequest s.ring), sendPc := pc } := by
  have hsend := h.send
  rw [hpc] at hsend
  obtain ⟨F', p, rfl, hunposted, hp⟩ := hsend
  have hcarries := sizeRequest_carries h.pow hp
  have hpost := h.chan.post hunposted (Nat.succ_pos 7) hcarries
  refine ⟨F' ++ [p], H, _, C, { h with
    chan := hpost
    recv := h.recv.mono List.prefix_rfl
      (fun q hq => (Progress.arrived_post h.chan.fresh).2 hq) fun q hq => (h.chan.arrived_lt hq).2
    send := ?_ }⟩
  have hsent : s.ring.sent = F' ++ [p] ∧
      s.ring.sendPos + (8 + dataSizeToWrite) = UInt64.ofNat (endPos V B (F' ++ [p])) := by
    rw [hp.1.pos, hp.1.size, Pos.ofNat_add, endPos_found]; exact ⟨hp.1.sent, rfl⟩
  rcases hpc' with rfl | rfl
  · exact ⟨rfl, hsent⟩
  · exact ⟨rfl, hsent⟩

/-- A step of `sendParanoid`. -/
inductive SendStep (s : State) : State → Prop
  | full {dataSizeToWrite : UInt64} (hpc : s.sendPc = .waitUntilSendFree dataSizeToWrite)
      (hfull : 8 + dataSizeToWrite > s.ring.size - (s.ring.sendPos - s.ring.conn.remoteReadPos)) :
      SendStep s
        { s with
          ring := { s.ring with conn := { s.ring.conn with sq := s.ring.conn.sq ++ [.read 42] } }
          sendPc := .pollRead dataSizeToWrite }
  | room {dataSizeToWrite : UInt64} (hpc : s.sendPc = .waitUntilSendFree dataSizeToWrite)
      (hroom :
        ¬ 8 + dataSizeToWrite > s.ring.size - (s.ring.sendPos - s.ring.conn.remoteReadPos)) :
      SendStep s { s with sendPc := .postData dataSizeToWrite }
  | polled {dataSizeToWrite : UInt64} (hpc : s.sendPc = .pollRead dataSizeToWrite)
      (hid : (pollSendCompletionQueue s.ring.conn.cq).1 = 42) :
      SendStep s
        { s with
          ring :=
            { s.ring with
              conn := { s.ring.conn with cq := (pollSendCompletionQueue s.ring.conn.cq).2 } }
          sendPc := .waitUntilSendFree dataSizeToWrite }
  | polling {dataSizeToWrite : UInt64} (hpc : s.sendPc = .pollRead dataSizeToWrite)
      (hid : ¬ (pollSendCompletionQueue s.ring.conn.cq).1 = 42) :
      SendStep s
        { s with
          ring :=
            { s.ring with
              conn := { s.ring.conn with cq := (pollSendCompletionQueue s.ring.conn.cq).2 } }
          sendPc := .pollRead dataSizeToWrite }
  | data {dataSizeToWrite : UInt64} (hpc : s.sendPc = .postData dataSizeToWrite) :
      SendStep s
        { s with
          ring := post s.ring (dataRequest s.ring dataSizeToWrite)
          sendPc := .postSize dataSizeToWrite }
  | signaled {dataSizeToWrite : UInt64} (hpc : s.sendPc = .postSize dataSizeToWrite)
      (hsig : (sizeRequest s.ring).signaled = true) :
      SendStep s
        { s with
          ring := post s.ring (sizeRequest s.ring)
          sendPc := .waitForCompletion .getEvent dataSizeToWrite }
  | unsignaled {dataSizeToWrite : UInt64} (hpc : s.sendPc = .postSize dataSizeToWrite)
      (hsig : ¬ (sizeRequest s.ring).signaled = true) :
      SendStep s
        { s with ring := post s.ring (sizeRequest s.ring), sendPc := .advance dataSizeToWrite }
  | waiting {pc pc' : WaitPc} {cq : CompletionQueue} {dataSizeToWrite : UInt64}
      (hpc : s.sendPc = .waitForCompletion pc dataSizeToWrite)
      (hwait : waitForCompletion s.ring.conn.cq pc = some (some pc', cq)) :
      SendStep s
        { s with
          ring := { s.ring with conn := { s.ring.conn with cq := cq } }
          sendPc := .waitForCompletion pc' dataSizeToWrite }
  | waited {pc : WaitPc} {cq : CompletionQueue} {dataSizeToWrite : UInt64}
      (hpc : s.sendPc = .waitForCompletion pc dataSizeToWrite)
      (hwait : waitForCompletion s.ring.conn.cq pc = some (none, cq)) :
      SendStep s
        { s with
          ring := { s.ring with conn := { s.ring.conn with cq := cq } }
          sendPc := .advance dataSizeToWrite }
  | advance {dataSizeToWrite : UInt64} (hpc : s.sendPc = .advance dataSizeToWrite) :
      SendStep s
        { s with
          ring :=
            { s.ring with
              messageCounter := s.ring.messageCounter + 1
              sendPos := s.ring.sendPos + (8 + dataSizeToWrite) }
          sendPc := .idle }

theorem sendStep_cases (hs : sendStep s = some s') : SendStep s s' := by
  cases hpc : s.sendPc with
  | idle => simp only [sendStep, hpc] at hs; cases hs
  | waitUntilSendFree dataSizeToWrite =>
    simp only [sendStep, hpc] at hs
    split_ifs at hs with hfull
    · cases hs; exact .full hpc hfull
    · cases hs; exact .room hpc hfull
  | pollRead dataSizeToWrite =>
    simp only [sendStep, hpc] at hs
    cases hs
    split_ifs with hid
    · exact .polled hpc hid
    · exact .polling hpc hid
  | postData dataSizeToWrite =>
    simp only [sendStep, hpc] at hs
    cases hs
    exact .data hpc
  | postSize dataSizeToWrite =>
    simp only [sendStep, hpc] at hs
    cases hs
    split_ifs with hsig
    · exact .signaled hpc hsig
    · exact .unsignaled hpc hsig
  | waitForCompletion pc dataSizeToWrite =>
    simp only [sendStep, hpc, Option.map_eq_some_iff] at hs
    obtain ⟨⟨_ | pc', cq⟩, hwait, rfl⟩ := hs
    · exact .waited hpc hwait
    · exact .waiting hpc hwait
  | advance dataSizeToWrite =>
    simp only [sendStep, hpc] at hs
    cases hs
    exact .advance hpc

theorem sendStep_inv (h : InvAt B F H t C s) (hs : sendStep s = some s') : Inv B s' := by
  have hsend := h.send
  cases sendStep_cases hs with
  | full hpc =>
    rw [hpc] at hsend
    exact ⟨F, H, t, C, { h with chan := h.chan.postRead 42, send := hsend }⟩
  | room hpc hle =>
    rw [hpc] at hsend
    obtain ⟨hunposted, p, hp⟩ := hsend
    have hC : C ≤ endPos V B F :=
      h.chan.cached.trans (endPos_mono _ h.chan.received_prefix B)
    have hroom := hp.1.room h.chan.remoteReadPos hC h.chan.room hle
    exact ⟨F, H, t, C, { h with send := ⟨hunposted, p, hp, hroom⟩ }⟩
  | data hpc => exact h.postData hpc
  | signaled hpc => exact h.postSize hpc (Or.inl rfl)
  | unsignaled hpc => exact h.postSize hpc (Or.inr rfl)
  | polled hpc | polling hpc | waiting hpc | waited hpc | advance hpc =>
    rw [hpc] at hsend
    exact ⟨F, H, t, C, { h with chan := { h.chan with }, send := hsend }⟩

/-! ## The receiver's steps -/

theorem recvStep_inv (h : InvAt B F H t C s) {ring : VirtualRDMARingBuffer.State}
    (hs : recvStep s.ring = some ring) : Inv B { s with ring := ring } := by
  have hrecv := h.recv
  have hchan := h.chan
  unfold recvStep at hs
  cases hpc : s.ring.recvPc with
  | idle | size | check => rw [hpc] at hs; cases hs
  | found limit receiveSize =>
    simp only [hpc] at hs
    rw [hpc] at hrecv
    obtain ⟨rfl, p, hp, rfl⟩ := hrecv
    split_ifs at hs
    · cases hs
      exact ⟨F, _, t, C, { h with chan := { h.chan with }, recv := rfl }⟩
    · cases hs
      have hfits := h.chan.fits p (hp.1.subset (by simp))
      have hlen := toNat_length hfits
      rw [hlen]
      have hmap := (h.maps_read (8 + p.length)).drop (show 8 ≤ 8 + p.length by omega)
      rw [Nat.add_sub_cancel_left] at hmap
      have hbytes := h.chan.payload hp (Mem.length_read _ _ _ _) fun i hi => Ring.read_pos hmap hi
      exact ⟨F, _, t, C, { h with
        chan := { h.chan with }
        recv := ⟨rfl, hbytes.symm ▸ hp, by rw [Mem.length_read]⟩ }⟩
  | clear bytes receiveSize =>
    simp only [hpc] at hs
    rw [hpc] at hrecv
    obtain ⟨rfl, hp, rfl⟩ := hrecv
    cases hs
    have hfits := h.chan.fits bytes (hp.1.subset (by simp))
    have hmap := h.maps_read (bytes.length + 16)
    rw [frameSize, toNat_frameSize hfits]
    have hclear := h.chan.clear zero_notMem_V hp (fun i hi => Ring.fill_pos hmap hfits hi)
      (fun q hq hq' => Ring.fill_after hmap hq hq')
    exact ⟨F, _, t, C, { h with chan := hclear, recv := ⟨rfl, rfl⟩ }⟩
  | publish bytes receiveSize =>
    simp only [hpc] at hs
    rw [hpc] at hrecv
    obtain ⟨rfl, rfl⟩ := hrecv
    cases hs
    have hr : s.ring.conn.readPos + (8 + UInt64.ofNat bytes.length + 8) =
        UInt64.ofNat (endPos V B (s.ring.received ++ [bytes])) := by
      rw [frameSize, h.chan.readPos, Pos.ofNat_add, endPos_found]
    exact ⟨F, _, t, C, { h with chan := h.chan.publish hr, recv := rfl }⟩

/-! ## The whole system -/

/-- The payload fits the ring with its length and its trailer, and does not contain the
    bytes of `validity`. -/
def Admitted (size : UInt64) : Act → Prop
  | .sendParanoid data => data.length + 16 ≤ size.toNat ∧ ¬ V <:+: data
  | _ => True

instance (size : UInt64) : DecidablePred (Admitted size)
  | .sendParanoid data =>
    inferInstanceAs (Decidable (data.length + 16 ≤ size.toNat ∧ ¬ V <:+: data))
  | .sender | .receive _ | .load _ | .receiver | .place _ | .complete => isTrue trivial

theorem SendOk.mono {n C' : ℕ} {unposted : List Region} {sent : List (List UInt8)}
    {sendPos : UInt64} {m : Mem} {pc : SendPc} (h : SendOk n B F unposted C sent sendPos m pc)
    (hC : C ≤ C') : SendOk n B F unposted C' sent sendPos m pc := by
  cases pc with
  | idle | waitUntilSendFree | pollRead | postSize | waitForCompletion | advance => exact h
  | postData dataSizeToWrite =>
    obtain ⟨hunposted, p, hp, hroom⟩ := h
    exact ⟨hunposted, p, hp, hroom.trans (Nat.add_le_add_right hC n)⟩

/-- **A step keeps the invariant.** -/
theorem step_inv {a : Act} (h : InvAt B F H t C s) (hadm : Admitted s.ring.size a)
    (hs : step s a = some s') : Inv B s' := by
  cases a with
  | sendParanoid data =>
    simp only [step] at hs
    split at hs
    next hpc =>
      cases hs
      have hclean : Clean V data := clean_of_not_infix hadm.2
      exact ⟨F, H, t, C, sendParanoid_inv h hpc hadm.1 hclean⟩
    next => cases hs
  | sender => exact sendStep_inv h hs
  | receive maxSize =>
    obtain ⟨ring, hring, rfl⟩ := Option.map_eq_some_iff.1 hs
    simp only [VirtualRDMARingBuffer.step] at hring
    split at hring
    next hpc =>
      have hrecv := h.recv
      rw [hpc] at hrecv
      have hsize : ∀ limit, Placement.RecvOk validity B F s.ring.received H t.Arrived
          (.size limit .empty) := fun limit => ⟨hrecv, fun i _ b hb => by cases hb⟩
      cases hring
      cases maxSize with
      | none => exact ⟨F, H, t, C, { h with chan := { h.chan with }, recv := hsize none }⟩
      | some maxSize =>
        simp only [receive]
        split_ifs
        · exact ⟨F, H, t, C, h⟩
        · exact ⟨F, H, t, C, { h with chan := { h.chan with }, recv := hsize _ }⟩
    next => cases hring
  | load is =>
    obtain ⟨ring, hring, rfl⟩ := Option.map_eq_some_iff.1 hs
    simp only [VirtualRDMARingBuffer.step] at hring
    obtain ⟨pc, hpoll, rfl⟩ := Option.map_eq_some_iff.1 hring
    refine ⟨F, H, t, C, { h with chan := { h.chan with }, recv := ?_ }⟩
    refine h.recv.poll borderFree_V zero_notMem_V h.chan (Pos.powerOfTwo_pos h.pow)
      (fun p hp => h.clean p (h.posted.subset hp)) ?_ hpoll
    intro off i _
    rw [add_assoc, add_assoc, h.maps_read (off + i + 1) (off + i) (by omega)]
  | receiver =>
    obtain ⟨ring, hring, rfl⟩ := Option.map_eq_some_iff.1 hs
    exact recvStep_inv h hring
  | place i =>
    obtain ⟨⟨conn, placed⟩, hland, rfl⟩ := Option.map_eq_some_iff.1 hs
    rw [← h.placed] at hland
    obtain ⟨t', hchan, hplaced, hunposted, hmono⟩ := h.chan.land hland
    have hbuf : conn.sendBuf = s.ring.conn.sendBuf := by
      obtain ⟨_, -, he⟩ := Option.map_eq_some_iff.1 hland
      exact (congrArg (fun r => r.1.sendBuf) he).symm
    refine ⟨F, H, t', C, { h with
      chan := hchan
      placed := hplaced
      recv := h.recv.mono List.prefix_rfl hmono fun q hq => (h.chan.arrived_lt hq).2
      send := ?_ }⟩
    dsimp only
    rw [hunposted, hbuf]
    exact h.send
  | complete =>
    obtain ⟨ring, hring, rfl⟩ := Option.map_eq_some_iff.1 hs
    simp only [VirtualRDMARingBuffer.step] at hring
    obtain ⟨conn, hcomp, rfl⟩ := Option.map_eq_some_iff.1 hring
    obtain ⟨C', hC, hchan⟩ := h.chan.complete hcomp
    refine ⟨F, H, t, C', { h with chan := hchan, send := ?_ }⟩
    dsimp only
    rw [Conn.complete_sendBuf hcomp]
    exact h.send.mono hC

/-- The ring keeps its size. -/
theorem step_size {a : Act} (hs : step s a = some s') : s'.ring.size = s.ring.size := by
  cases a with
  | sendParanoid data =>
    simp only [step] at hs
    split at hs
    next =>
      cases hs
      unfold sendParanoid
      dsimp only
      split_ifs
      · rfl
      · rfl
    next => cases hs
  | sender => cases sendStep_cases hs <;> rfl
  | place i => obtain ⟨_, -, rfl⟩ := Option.map_eq_some_iff.1 hs; rfl
  | receive | load | receiver | complete =>
    obtain ⟨ring, hring, rfl⟩ := Option.map_eq_some_iff.1 hs
    exact (step_frame hring).1

end

/-- **`sendParanoid` delivers messages** in order, each once and unchanged, whatever the order
    in which the bytes of a write arrive. -/
theorem fifo_paranoid {size : UInt64} (h : powerOfTwo size = true) (pos : UInt64)
    {acts : List Act} (hacts : ∀ a ∈ acts, Admitted size a) :
    AllStates step (fun s => s.ring.received <+: s.ring.sent) (start size pos) acts := by
  refine allStates_of_along (I := fun s => Inv pos.toNat s ∧ s.ring.size = size)
    (C := fun _ a => Admitted size a) ?_ ?_ ⟨inv_start h pos, rfl⟩
    (along_of_forall fun a ha _ => hacts a ha)
  · rintro s ⟨⟨F, H, t, C, hi⟩, -⟩
    exact hi.delivered
  · rintro s a s' ⟨⟨F, H, t, C, hi⟩, rfl⟩ hadm hs
    exact ⟨step_inv hi hadm hs, step_size hs⟩

/-- A `receive` whose two loads are whole. -/
def receiveWhole : List Act :=
  [.receive none, .load (List.range 8), .load (List.range 8), .receiver, .receiver, .receiver]

/-- An empty message is returned before its length arrives, and one that wraps around while
    zero bytes of its length are missing; before that, the receiver looks at parts of it. -/
def anyOrder : List Act :=
  [.sendParanoid [], .sender, .sender, .sender] ++ [7, 0, 3, 1, 2, 6, 5, 4].map .place ++
    receiveWhole ++ [5, 0, 1, 7, 2, 6, 3, 4].map .place ++ [.complete, .complete] ++
    List.replicate 5 .sender ++ [.sendParanoid [1, 2]] ++ List.replicate 4 .sender ++
    [9, 0, 4, 3, 5].map .place ++ [.receive none, .load (List.range 8), .load [7, 1, 2]] ++
    [1, 2, 8, 7, 6].map .place ++ [.load [0, 3, 4, 5, 6], .place 3, .place 0] ++
    receiveWhole.tail ++ [7, 1].map .place

theorem fifo_anyOrder :
    (∀ a ∈ anyOrder, Admitted 4096 a) ∧
      (run step (start 4096 4064) anyOrder).map (fun s => s.ring.received) = some [[], [1, 2]] ∧
      AllStates step (fun s => s.ring.received <+: s.ring.sent) (start 4096 4064) anyOrder := by
  have h : ∀ a ∈ anyOrder, Admitted 4096 a := by decide +kernel
  exact ⟨h, by decide +kernel, fifo_paranoid (by decide) 4064 h⟩

end Paranoid

end VirtualRDMARingBuffer

end L5RDMA
