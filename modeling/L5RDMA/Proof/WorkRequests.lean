/-
  INLINE and the length of what is posted.

  The rings decide for each request, and the servers set the flags of an answer
  anew before each post; so what they post INLINE has at most 512 bytes
  (`maxInlineSize`), whatever was posted before.  The request of a client is
  INLINE since its construction and gets data of any length: the queue pair
  can take it iff it has at most 512 bytes (`inline_iff_short`).

  The requests are those of the models of the bytes (`Agrees`), and what cannot
  be taken INLINE is what the queue pair refuses there (`refused_iff`).
-/
import L5RDMA.SendParanoid
import L5RDMA.WorkRequests

namespace L5RDMA

open RDMAMessageBuffer (Part)
open Multiclient (Transport)

namespace Posting

open Verbs (WorkRequests Setter Flag plain plain_laws)
open Verbs.WorkRequests
open Fallible

variable {M S W : Type} {v : WorkRequests M S W}

/-- What is posted INLINE is not longer than the queue pair can inline. -/
def CanInline (v : WorkRequests M S W) : NetCall W → Prop
  | .post wr => v.InlineFits maxInlineSize.toNat wr
  | .completion | .connect => True

/-- The flags and the slice of a request. -/
structure Spec (v : WorkRequests M S W) (wr : W) (slice : S) (inline signaled : Prop) :
    Prop where
  inline : v.flags wr .INLINE = true ↔ inline
  signaled : v.flags wr .SIGNALED = true ↔ signaled
  slice : v.slice wr = slice

/-- A request is the one that the model of the bytes posts, with a slice of `mr`. -/
structure Agrees (v : WorkRequests M S W) (mr : M) (wr : W) (w : Verbs.Write) : Prop where
  inlined : w.inlined.isSome = true ↔ v.flags wr .INLINE = true
  signaled : w.signaled = true ↔ v.flags wr .SIGNALED = true
  /-- the offset of `getSlice` has 32 bits -/
  slice : v.slice wr = v.getSlice mr (UInt32.ofNat w.localOff) (UInt32.ofNat w.length)
  length : w.length = (v.length (v.slice wr)).toNat

theorem le_maxInlineSize (n : UInt32) :
    n.toUInt64 ≤ maxInlineSize ↔ n.toNat ≤ maxInlineSize.toNat := by
  rw [UInt64.le_iff_toNat_le, UInt32.toNat_toUInt64]

theorem toNat_toUInt32 {n : UInt64} (hn : n.toNat < 2 ^ 32) : n.toUInt32.toNat = n.toNat := by
  rw [UInt64.toNat_toUInt32, Nat.mod_eq_of_lt hn]

theorem toUInt64_toUInt32 {n : UInt64} (hn : n.toNat < 2 ^ 32) : n.toUInt32.toUInt64 = n := by
  rw [← UInt64.toNat_inj, UInt32.toNat_toUInt64, toNat_toUInt32 hn]

theorem ofNat_toNat_toUInt32 (n : UInt64) : UInt32.ofNat n.toNat = n.toUInt32 := by
  rw [← UInt32.toNat_inj, UInt64.toNat_toUInt32, UInt32.toNat_ofNat']

namespace Spec
variable {wr : W} {slice : S} {inline signaled : Prop}

theorem fits (hs : Spec v wr slice inline signaled)
    (hle : inline → (v.length slice).toUInt64 ≤ maxInlineSize) :
    v.InlineFits maxInlineSize.toNat wr := by
  intro hinline
  rw [hs.slice, ← le_maxInlineSize]
  exact hle (hs.inline.1 hinline)

theorem agrees {w : Verbs.Write} {mr : M} {off n : UInt32} (h : v.Laws)
    (hs : Spec v wr (v.getSlice mr off n) inline signaled)
    (hinlined : w.inlined.isSome = true ↔ inline) (hsignaled : w.signaled = true ↔ signaled)
    (hoff : UInt32.ofNat w.localOff = off) (hlen : w.length = n.toNat) : Agrees v mr wr w where
  inlined := hinlined.trans hs.inline.symm
  signaled := hsignaled.trans hs.signaled.symm
  slice := by rw [hs.slice, hoff, hlen, UInt32.ofNat_toNat]
  length := by rw [hs.slice, h.length_getSlice, hlen]

end Spec

section
variable {s : RingSender M} {σ : Type} {ops ops' : List (Op σ (NetCall W))}

/-- All that a program posts can be taken INLINE. -/
def AllFit (v : WorkRequests M S W) (ops : List (Op σ (NetCall W))) : Prop :=
  ∀ c, .call c ∈ ops → CanInline v c

theorem allFit_append : AllFit v (ops ++ ops') ↔ AllFit v ops ∧ AllFit v ops' := by
  simp only [AllFit, List.mem_append, or_imp, forall_and]

@[simp] theorem allFit_nil : AllFit v ([] : List (Op σ (NetCall W))) := fun _ h => by cases h

@[simp] theorem allFit_call (c : NetCall W) :
    AllFit v (.call c :: ops) ↔ CanInline v c ∧ AllFit v ops := by
  simp [AllFit]

@[simp] theorem allFit_change (f : σ → σ) : AllFit v (.change f :: ops) ↔ AllFit v ops := by
  simp [AllFit]

/-! ## The rings -/

theorem readWr_spec (h : v.Laws) :
    Spec v (readWr v s) (v.whole s.readPosMr) False True where
  inline := by simp [readWr, sets, h.flags_set, Setter.onFlags]
  signaled := by simp [readWr, sets, h.flags_set, Setter.onFlags]
  slice := by simp [readWr, sets, h.slice_set, Setter.onSlice]

theorem waitForRoom_fits (h : v.Laws) (reads : ℕ) : AllFit v (waitForRoom v s reads) := by
  induction reads with
  | zero => exact allFit_nil
  | succ reads ih =>
    rw [waitForRoom, List.replicate_succ, List.flatten_cons, allFit_append]
    refine ⟨?_, ih⟩
    simp [CanInline, (readWr_spec h).fits]

theorem clearQueue_fits (p : Prop) [Decidable p] :
    AllFit v (clearQueue p : List (Op (RingSender M) (NetCall W))) := by
  unfold clearQueue
  split_ifs <;> simp [CanInline]

namespace VirtualRDMARingBuffer

/-- The request of `send`, -/
theorem sendWr_spec (h : v.Laws) (s : RingSender M) (sizeToWrite : UInt64) :
    Spec v (sendWr v s sizeToWrite)
      (v.getSlice s.sendMr (s.sendPos &&& (s.size - 1)).toUInt32 sizeToWrite.toUInt32)
      (sizeToWrite.toUInt32.toUInt64 ≤ maxInlineSize) (s.messageCounter % (4 * 1024) = 0) where
  inline := by
    simp [sendWr, flags_setInlineIf h, flags_setSignaledIf h, h.flags_set, h.flags_create,
      Setter.onFlags, h.length_getSlice]
  signaled := by
    simp [sendWr, flags_setInlineIf h, flags_setSignaledIf h, h.flags_set, h.flags_create,
      Setter.onFlags]
  slice := by
    simp [sendWr, slice_setInlineIf h, slice_setSignaledIf h, h.slice_set, Setter.onSlice]

/-- and the two of `sendParanoid`. -/
theorem dataWr_spec (h : v.Laws) (s : RingSender M) (dataSizeToWrite : UInt64) :
    Spec v (dataWr v s dataSizeToWrite)
      (v.getSlice s.sendMr ((s.sendPos &&& (s.size - 1)) + 8).toUInt32 dataSizeToWrite.toUInt32)
      (dataSizeToWrite.toUInt32.toUInt64 ≤ maxInlineSize) False where
  inline := by
    simp [dataWr, flags_setInlineIf h, h.flags_set, h.flags_create, Setter.onFlags,
      h.length_getSlice]
  signaled := by
    simp [dataWr, flags_setInlineIf h, h.flags_set, h.flags_create, Setter.onFlags]
  slice := by
    simp [dataWr, slice_setInlineIf h, h.slice_set, Setter.onSlice]

theorem sizeWr_spec (h : v.Laws) (s : RingSender M) :
    Spec v (sizeWr v s) (v.getSlice s.sendMr (s.sendPos &&& (s.size - 1)).toUInt32 8) True
      (s.messageCounter % (4 * 1024) = 0) where
  inline := by
    simp [sizeWr, flags_setSignaledIf h, h.flags_set, Setter.onFlags]
  signaled := by
    simp [sizeWr, flags_setSignaledIf h, h.flags_set, h.flags_create, Setter.onFlags]
  slice := by
    simp [sizeWr, slice_setSignaledIf h, h.slice_set, Setter.onSlice]

theorem send_fits (h : v.Laws) (dataSize : UInt64) (reads : ℕ) :
    AllFit v (send v s dataSize reads) := by
  unfold send
  dsimp only
  split_ifs
  · exact allFit_nil
  · simp only [allFit_append]
    refine ⟨⟨⟨waitForRoom_fits h reads, ?_⟩, clearQueue_fits _⟩, ?_⟩
    · simp [CanInline, (sendWr_spec h s _).fits, h.length_getSlice]
    · simp

theorem sendParanoid_fits (h : v.Laws) (dataSize : UInt64) (reads : ℕ) :
    AllFit v (sendParanoid v s dataSize reads) := by
  unfold sendParanoid
  dsimp only
  split_ifs
  · exact allFit_nil
  · simp only [allFit_append]
    refine ⟨⟨⟨waitForRoom_fits h reads, ?_⟩, clearQueue_fits _⟩, ?_⟩
    · have hsize : v.InlineFits maxInlineSize.toNat (sizeWr v s) :=
        (sizeWr_spec h s).fits fun _ => by rw [h.length_getSlice]; decide
      simp [CanInline, (dataWr_spec h s _).fits, h.length_getSlice, hsize]
    · simp

theorem makes (h : v.Laws) (s : RingSender M) (a : Method) :
    Makes (method v) (CanInline v) s a := by
  cases a with
  | send dataSize reads => exact (makes_iff rfl).2 (send_fits h dataSize reads)
  | sendParanoid dataSize reads => exact (makes_iff rfl).2 (sendParanoid_fits h dataSize reads)

/-- The request and the ring of the bytes are at the same position. -/
structure Follows (s : RingSender M) (r : VirtualRDMARingBuffer.State) : Prop where
  size : s.size = r.size
  sendPos : s.sendPos = r.sendPos
  messageCounter : s.messageCounter = r.messageCounter

theorem Follows.startOfWrite {r : VirtualRDMARingBuffer.State} (hr : Follows s r) :
    r.startOfWrite = (s.sendPos &&& (s.size - 1)).toNat := by
  rw [hr.sendPos, hr.size]; rfl

theorem sendWr_agrees (h : v.Laws) {r : VirtualRDMARingBuffer.State} {sizeToWrite : UInt64}
    (hr : Follows s r) (hlen : sizeToWrite.toNat < 2 ^ 32) :
    Agrees v s.sendMr (sendWr v s sizeToWrite)
      (VirtualRDMARingBuffer.writeRequest r sizeToWrite) := by
  have hspec := sendWr_spec h s sizeToWrite
  rw [toUInt64_toUInt32 hlen, hr.messageCounter] at hspec
  refine hspec.agrees h ?_ ?_ ?_ (toNat_toUInt32 hlen).symm
  · simp [VirtualRDMARingBuffer.writeRequest]
  · simp [VirtualRDMARingBuffer.writeRequest]
  · rw [VirtualRDMARingBuffer.writeRequest, hr.startOfWrite, ofNat_toNat_toUInt32]

theorem dataWr_agrees (h : v.Laws) {r : VirtualRDMARingBuffer.State} {dataSizeToWrite : UInt64}
    (hr : Follows s r) (hlen : dataSizeToWrite.toNat < 2 ^ 32) :
    Agrees v s.sendMr (dataWr v s dataSizeToWrite)
      (VirtualRDMARingBuffer.Paranoid.dataRequest r dataSizeToWrite) := by
  have hspec := dataWr_spec h s dataSizeToWrite
  rw [toUInt64_toUInt32 hlen] at hspec
  refine hspec.agrees h ?_ ?_ ?_ (toNat_toUInt32 hlen).symm
  · simp [VirtualRDMARingBuffer.Paranoid.dataRequest]
  · simp [VirtualRDMARingBuffer.Paranoid.dataRequest]
  · rw [VirtualRDMARingBuffer.Paranoid.dataRequest, hr.startOfWrite, ← ofNat_toNat_toUInt32,
      ← UInt32.toNat_inj]
    generalize s.sendPos &&& (s.size - 1) = startOfWrite
    simp only [UInt32.toNat_ofNat', UInt64.toNat_add, UInt64.reduceToNat]
    omega

theorem sizeWr_agrees (h : v.Laws) {r : VirtualRDMARingBuffer.State} (hr : Follows s r) :
    Agrees v s.sendMr (sizeWr v s) (VirtualRDMARingBuffer.Paranoid.sizeRequest r) := by
  have hspec := sizeWr_spec h s
  rw [hr.messageCounter] at hspec
  refine hspec.agrees h ?_ ?_ ?_ rfl
  · simp [VirtualRDMARingBuffer.Paranoid.sizeRequest]
  · simp [VirtualRDMARingBuffer.Paranoid.sizeRequest]
  · rw [VirtualRDMARingBuffer.Paranoid.sizeRequest, hr.startOfWrite, ofNat_toNat_toUInt32]

end VirtualRDMARingBuffer

namespace RDMAMessageBuffer

theorem partWr_spec (h : v.Laws) (sendMr : M) (messageCounter : UInt64) (inln : Bool) (c : Part) :
    Spec v (partWr v sendMr messageCounter inln c)
      (v.getSlice sendMr c.beginPos.toUInt32 (c.endPos - c.beginPos).toUInt32)
      (inln = true ∧ (c.endPos - c.beginPos).toUInt32.toUInt64 ≤ maxInlineSize)
      (messageCounter % (4 * 1024) = 0) where
  inline := by
    simp [partWr, flags_setInlineIf h, flags_setSignaledIf h, h.flags_set, h.flags_create,
      Setter.onFlags, h.length_getSlice]
  signaled := by
    simp [partWr, flags_setInlineIf h, flags_setSignaledIf h, h.flags_set, h.flags_create,
      Setter.onFlags]
  slice := by
    simp [partWr, slice_setInlineIf h, slice_setSignaledIf h, h.slice_set, Setter.onSlice]

theorem writeToSendBuffer_fits (h : v.Laws) (sizeToWrite : UInt64) (reads : ℕ) :
    AllFit v (writeToSendBuffer v s sizeToWrite reads) := by
  rw [writeToSendBuffer, allFit_append]
  exact ⟨waitForRoom_fits h reads, by simp⟩

theorem postParts_fits (h : v.Laws) (sendMr : M) (inln : Bool) (messageCounter : UInt64)
    (parts : List Part) : AllFit v (postParts v sendMr inln messageCounter parts) := by
  induction parts generalizing messageCounter with
  | nil => exact allFit_nil
  | cons c parts ih =>
    simp only [postParts, allFit_append]
    refine ⟨⟨⟨?_, clearQueue_fits _⟩, ?_⟩, ih _⟩
    · have hfits : v.InlineFits maxInlineSize.toNat (partWr v sendMr messageCounter inln c) :=
        (partWr_spec h sendMr messageCounter inln c).fits fun hi => by
          rw [h.length_getSlice]; exact hi.2
      simp [CanInline, hfits]
    · simp

theorem makes (h : v.Laws) (s : RingSender M) (a : Method) :
    Makes (method v) (CanInline v) s a := by
  refine (makes_iff rfl).2 ?_
  change AllFit v (send v s a.length a.inln a.reads)
  unfold send
  dsimp only
  split_ifs
  · exact allFit_nil
  · simp only [allFit_append]
    exact ⟨⟨⟨writeToSendBuffer_fits h _ _, writeToSendBuffer_fits h _ _⟩,
      writeToSendBuffer_fits h _ _⟩, postParts_fits h _ _ _ _⟩

theorem partWr_agrees (h : v.Laws) {r : RDMAMessageBuffer.State} {sendMr : M} {inln : Bool}
    {c : Part} (hlen : c.length < 2 ^ 32) :
    Agrees v sendMr (partWr v sendMr r.messageCounter inln c)
      (RDMAMessageBuffer.writeRequest r inln c) := by
  have hspec := partWr_spec h sendMr r.messageCounter inln c
  rw [toUInt64_toUInt32 hlen] at hspec
  refine hspec.agrees h ?_ ?_ (ofNat_toNat_toUInt32 _) (toNat_toUInt32 hlen).symm
  · simp [RDMAMessageBuffer.writeRequest]
  · simp [RDMAMessageBuffer.writeRequest]

end RDMAMessageBuffer

end

/-! ## The servers -/

/-- Whatever the request of the connection was, its flags are set anew. -/
theorem answerWr_spec (h : v.Laws) (sendBuffer : M) (wr : W) (sendCounter totalLength : UInt64) :
    Spec v (answerWr v sendBuffer wr sendCounter totalLength)
      (v.getSlice sendBuffer 0 totalLength.toUInt32)
      (totalLength < 512) (sendCounter % 1024 = 0) := by
  have hflags : ∀ (signaled inlineMsg : Bool) (w : W),
      Spec v (setWrFlags v w signaled inlineMsg) (v.slice w) (inlineMsg = true)
        (signaled = true) := by
    intro signaled inlineMsg w
    constructor <;> cases signaled <;> cases inlineMsg <;>
      simp [setWrFlags, flags_setFlags h, h.slice_set, Setter.onSlice]
  have hspec := hflags (sendCounter % 1024 = 0) (totalLength < 512)
    (v.set wr (.setLocalAddress (v.getSlice sendBuffer 0 totalLength.toUInt32)))
  unfold answerWr
  simpa [h.slice_set, Setter.onSlice] using hspec

theorem answerWr_agrees (h : v.Laws) (m : Mem) (sendBuffer : M) (wr : W)
    {sendCounter totalLength : UInt64} (hlen : totalLength.toNat < 2 ^ 32) :
    Agrees v sendBuffer (answerWr v sendBuffer wr sendCounter totalLength)
      (Multiclient.answerWr m sendCounter totalLength) := by
  have hspec := answerWr_spec h sendBuffer wr sendCounter totalLength
  refine hspec.agrees h ?_ ?_ rfl (toNat_toUInt32 hlen).symm
  · simp [Multiclient.answerWr, Multiclient.setWrFlags]
  · simp [Multiclient.answerWr, Multiclient.setWrFlags]

section
variable {srv : Server M W}

theorem answer_fits (h : v.Laws) (receiverId : ℕ) (con : Connection W) (totalLength : UInt64) :
    AllFit v (answer v srv receiverId con totalLength) := by
  have hshort : totalLength < 512 → totalLength.toUInt32.toUInt64 ≤ maxInlineSize := by
    intro hlt
    rw [UInt64.lt_iff_toNat_lt] at hlt
    rw [le_maxInlineSize, UInt64.toNat_toUInt32]
    exact (Nat.mod_le _ _).trans hlt.le
  have hspec := answerWr_spec h srv.sendBuffer con.answerWr (con.sendCounter + 1) totalLength
  rw [← h.length_getSlice srv.sendBuffer 0 totalLength.toUInt32] at hshort
  have hfits := hspec.fits hshort
  rw [answer, allFit_append]
  refine ⟨by simp [CanInline, hfits], ?_⟩
  split_ifs <;> simp [CanInline]

theorem sendTo_fits (h : v.Laws) {maxMessageSize : UInt64} {receiverId : ℕ} {size : UInt64}
    {ops : List (Op (Server M W) (NetCall W))}
    (hops : sendTo v maxMessageSize srv receiverId size = some ops) : AllFit v ops := by
  unfold sendTo at hops
  dsimp only at hops
  split_ifs at hops
  · cases hops
    exact allFit_nil
  · cases hops
    exact allFit_nil
  · obtain ⟨con, -, rfl⟩ := Option.map_eq_some_iff.1 hops
    exact answer_fits h receiverId con _

namespace MulticlientRDMATransportServer

theorem sendWork_fits (h : v.Laws) {receiverId : ℕ} {size : UInt64}
    {ops : List (Op (Server M W) (NetCall W))}
    (hops : sendWork v srv receiverId size = some ops) : AllFit v ops := by
  unfold sendWork at hops
  split_ifs at hops
  · cases hops
    exact allFit_nil
  · obtain ⟨con, -, rfl⟩ := Option.map_eq_some_iff.1 hops
    dsimp only
    split_ifs
    · exact allFit_nil
    · exact answer_fits h receiverId con _

/-- The checks are made twice, to no effect. -/
theorem send_eq : send v = sendTo v MulticlientRDMATransportServer.maxMessageSize := by
  funext (srv : Server M W) receiverId size
  unfold send sendTo sendWork
  dsimp only
  split_ifs <;> rfl

end MulticlientRDMATransportServer

theorem accept_fits (t : Transport) (receiveAddr : UInt64)
    {ops : List (Op (Server M W) (NetCall W))}
    (hops : Server.method v t srv (.accept receiveAddr) = some ops) : AllFit v ops := by
  cases t with
  | doorbell =>
    cases hops
    simp [MulticlientRDMATransportServer.accept, CanInline]
  | recv =>
    cases hops
    simp [MulticlientRDMARecvTransportServer.accept, acceptEarly, CanInline]
  | distinctMr =>
    cases hops
    simp [MulticlientRDMADistinctMrTransportServer.accept, acceptEarly, CanInline]

theorem Server.makes (h : v.Laws) (t : Transport) (srv : Server M W) (a : Server.Method) :
    Makes (Server.method v t) (CanInline v) srv a := by
  cases hm : Server.method v t srv a with
  | none => exact makes_of_none hm
  | some ops =>
    refine (makes_iff hm).2 ?_
    cases a with
    | accept receiveAddr => exact accept_fits t receiveAddr hm
    | send receiverId size =>
      cases t with
      | doorbell =>
        change MulticlientRDMATransportServer.send v srv receiverId size = some ops at hm
        rw [MulticlientRDMATransportServer.send_eq] at hm
        exact sendTo_fits h hm
      | recv | distinctMr => exact sendTo_fits h hm
    | sendWork receiverId size =>
      cases t with
      | doorbell => exact MulticlientRDMATransportServer.sendWork_fits h hm
      | recv | distinctMr => cases hm

end

/-! ## The clients -/

section
variable {cl : Client M W}

theorem flags_prepared (h : v.Laws) (op : Verbs.Opcode) (cs : List (Setter S)) :
    v.flags (v.sets (v.create op) (cs ++ [.setSignaled, .setInline])) .INLINE = true := by
  simp [sets, h.flags_set, Setter.onFlags]

namespace Client

/-- The request for the data is INLINE, and the one for the bell can be taken so. -/
structure Inv (v : WorkRequests M S W) (cl : Client M W) : Prop where
  inline : v.flags cl.dataWr .INLINE = true
  bell : ∀ wr ∈ cl.doorBellWr, (v.length (v.slice wr)).toNat ≤ maxInlineSize.toNat

theorem inv_create (h : v.Laws) (t : Transport) : (create v t).Inv v := by
  cases t with
  | doorbell =>
    refine ⟨flags_prepared h .write [_], ?_⟩
    rintro wr hwr
    cases hwr
    simp only [sets, List.foldl, h.slice_set, Setter.onSlice, h.length_whole]
    decide
  | recv => exact ⟨flags_prepared h .writeWithImm [], by rintro wr hwr; cases hwr⟩
  | distinctMr => exact ⟨flags_prepared h .write [], by rintro wr hwr; cases hwr⟩

/-- The program of `send`. -/
theorem method_send (t : Transport) (cl : Client M W) (size : UInt64) :
    method v t cl (.send size) = some (request v t.clientMaxMessageSize cl size) := by
  cases t <;> rfl

theorem inv_change (h : v.Laws) {t : Transport} {a : Method}
    {ops : List (Op (Client M W) (NetCall W))} (hcl : cl.Inv v) (hm : method v t cl a = some ops)
    {f : Client M W → Client M W} (hf : .change f ∈ ops) {cl' : Client M W} (hcl' : cl'.Inv v) :
    (f cl').Inv v := by
  cases a with
  | connect receiveAddr doorBellAddr =>
    cases hm
    simp only [rdmaConnect, List.mem_cons, reduceCtorEq, Op.change.injEq, List.not_mem_nil,
      or_false, false_or] at hf
    subst hf
    refine ⟨?_, ?_⟩
    · rw [h.flags_set]
      exact hcl'.inline
    · rintro wr hwr
      obtain ⟨wr', hwr', rfl⟩ := Option.mem_map.1 hwr
      rw [h.slice_set]
      exact hcl'.bell wr' hwr'
  | send size =>
    rw [method_send, Option.some.injEq] at hm
    subst hm
    unfold request at hf
    dsimp only at hf
    split_ifs at hf
    · cases hf
    · simp only [List.cons_append, List.nil_append, List.mem_cons, Op.change.injEq] at hf
      rcases hf with rfl | hf
      · refine ⟨?_, hcl'.bell⟩
        rw [requestWr, h.flags_set]
        exact hcl.inline
      · simp at hf

theorem inv_reachable (h : v.Laws) {t : Transport}
    (hcl : Reachable (fun cl => cl = create v t) (method v t) cl) : cl.Inv v := by
  refine hcl.inv ?_ ?_
  · rintro cl rfl
    exact inv_create h t
  · intro cl a ops hcl hm f hf cl' hcl'
    exact inv_change h hcl hm hf hcl'

/-- What the client sends is refused by `send`, or has at most 512 bytes with its size. -/
def Short (t : Transport) : Method → Prop
  | .connect _ _ => True
  | .send size => size + 8 > t.clientMaxMessageSize ∨ size + 8 ≤ maxInlineSize

theorem clientMaxMessageSize_lt (t : Transport) : t.clientMaxMessageSize.toNat < 2 ^ 32 := by
  cases t <;> decide

/-- The request of `send` is INLINE with any length. -/
theorem requestWr_fits_iff (h : v.Laws) (hcl : cl.Inv v) {dataWrSize : UInt64}
    (hlen : dataWrSize.toNat < 2 ^ 32) :
    v.InlineFits maxInlineSize.toNat (requestWr v cl.sendBuffer cl.dataWr dataWrSize) ↔
      dataWrSize ≤ maxInlineSize := by
  rw [requestWr, inlineFits_setLocalAddress h hcl.inline, h.length_getSlice, toNat_toUInt32 hlen,
    UInt64.le_iff_toNat_le]

/-- So all that `send` posts can be taken INLINE iff the data can. -/
theorem request_fits_iff (hcl : cl.Inv v) {maxMessageSize size : UInt64}
    (hmax : ¬ size + 8 > maxMessageSize) : AllFit v (request v maxMessageSize cl size) ↔
      v.InlineFits maxInlineSize.toNat (requestWr v cl.sendBuffer cl.dataWr (size + 8)) := by
  have hbell : ∀ wr ∈ cl.doorBellWr.toList, v.InlineFits maxInlineSize.toNat wr :=
    fun wr hwr => inlineFits_of_le (hcl.bell wr (Option.mem_toList.1 hwr))
  rw [request, if_neg hmax]
  simp only [allFit_append, allFit_change, allFit_nil, true_and]
  constructor
  · rintro ⟨hposts, -⟩
    exact hposts _ List.mem_cons_self
  · intro hdata
    refine ⟨?_, ?_⟩
    · intro c hc
      obtain ⟨wr, hwr, hc⟩ := List.mem_map.1 hc
      cases hc
      rcases List.mem_cons.1 hwr with rfl | hwr
      · exact hdata
      · exact hbell wr hwr
    · intro c hc
      obtain ⟨wr, -, hc⟩ := List.mem_map.1 hc
      cases hc
      trivial

theorem makes_iff_short (h : v.Laws) (t : Transport) (hcl : cl.Inv v) (a : Method) :
    Makes (method v t) (CanInline v) cl a ↔ Short t a := by
  cases a with
  | connect receiveAddr doorBellAddr =>
    refine iff_of_true ((makes_iff rfl).2 ?_) trivial
    change AllFit v _
    simp [rdmaConnect, CanInline]
  | send size =>
    rw [makes_iff (method_send t cl size), Short]
    by_cases hmax : size + 8 > t.clientMaxMessageSize
    · refine iff_of_true ?_ (Or.inl hmax)
      rw [request, if_pos hmax]
      exact allFit_nil
    · have hlen : (size + 8).toNat < 2 ^ 32 := by
        rw [gt_iff_lt, UInt64.lt_iff_toNat_lt, Nat.not_lt] at hmax
        exact lt_of_le_of_lt hmax (clientMaxMessageSize_lt t)
      rw [or_iff_right hmax, ← requestWr_fits_iff h hcl hlen]
      exact request_fits_iff hcl hmax

/-- What cannot be taken INLINE is what the queue pair refuses. -/
theorem refused_iff (h : v.Laws) (hcl : cl.Inv v) (c : Multiclient.Client) (pc : Multiclient.AskPc)
    {dataWrSize : UInt64} (hlen : dataWrSize.toNat < 2 ^ 32) :
    (c.post dataWrSize pc).sq = c.sq ↔
      ¬ v.InlineFits maxInlineSize.toNat (requestWr v cl.sendBuffer cl.dataWr dataWrSize) := by
  rw [requestWr_fits_iff h hcl hlen, UInt64.not_le, Multiclient.Client.post]
  split_ifs with hlt
  · exact iff_of_true rfl hlt
  · refine iff_of_false ?_ hlt
    simp

end Client

end

/-! ## All senders -/

/-- A ring that is connected. -/
def Created (create : UInt64 → Option (RingSender M)) (s : RingSender M) : Prop :=
  ∃ size, create size = some s

/-- **INLINE is requested only for what the queue pair can inline** by the rings and the servers;
    by the clients, iff the request is short. -/
theorem inline_iff_short (h : v.Laws) :
    (∀ s a,
      Reachable (Created (VirtualRDMARingBuffer.create v)) (VirtualRDMARingBuffer.method v) s →
      Makes (VirtualRDMARingBuffer.method v) (CanInline v) s a) ∧
    (∀ s a,
      Reachable (Created (RDMAMessageBuffer.create v)) (RDMAMessageBuffer.method v) s →
      Makes (RDMAMessageBuffer.method v) (CanInline v) s a) ∧
    (∀ t srv a,
      Reachable (fun srv => srv = Server.create v t) (Server.method v t) srv →
      Makes (Server.method v t) (CanInline v) srv a) ∧
    ∀ t cl a, Reachable (fun cl => cl = Client.create v t) (Client.method v t) cl →
      (Makes (Client.method v t) (CanInline v) cl a ↔ Client.Short t a) := by
  refine ⟨?_, ?_, ?_, ?_⟩
  · rintro s a -
    exact VirtualRDMARingBuffer.makes h s a
  · rintro s a -
    exact RDMAMessageBuffer.makes h s a
  · rintro t srv a -
    exact Server.makes h t srv a
  · rintro t cl a hcl
    exact Client.makes_iff_short h t (Client.inv_reachable h hcl) a

/-- Full rings, an answer that is too long for the flags its request has got from `accept`, and
    the longest request of a client that can be taken INLINE. -/
theorem inline_plain :
    (∀ s, VirtualRDMARingBuffer.create plain 1024 = some s →
      Makes (VirtualRDMARingBuffer.method plain) (CanInline plain) s (.send 1008 1)) ∧
    (∀ s, RDMAMessageBuffer.create plain 1024 = some s →
      Makes (RDMAMessageBuffer.method plain) (CanInline plain) s ⟨1008, true, (0, 1, 0)⟩) ∧
    (∃ srv, srv.connections.length = 1 ∧
      Makes (Server.method plain .recv) (CanInline plain) srv (.send 0 600)) ∧
    Makes (Client.method plain .recv) (CanInline plain) (Client.create plain .recv)
      (.send 504) := by
  refine ⟨?_, ?_, ?_, ?_⟩
  · rintro s hs
    exact (inline_iff_short plain_laws).1 s _ (.start ⟨1024, hs⟩)
  · rintro s hs
    exact (inline_iff_short plain_laws).2.1 s _ (.start ⟨1024, hs⟩)
  · have haccept : Reachable (fun srv => srv = Server.create plain .recv)
        (Server.method plain .recv) _ :=
      .method (.start rfl) rfl (a := .accept 0) (.call (.change (.call (.change (.call (.nil _))))))
    exact ⟨_, rfl, (inline_iff_short plain_laws).2.2.1 .recv _ (.send 0 600) haccept⟩
  · have hshort : Client.Short .recv (.send 504) := Or.inr (by decide)
    exact ((inline_iff_short plain_laws).2.2.2 .recv _ _ (.start rfl)).2 hshort

/-- A client that is new cannot send 505 bytes. -/
def RefusesLarge (t : Transport) : Prop :=
  ¬ Makes (Client.method plain t) (CanInline plain) (Client.create plain t) (.send 505)

theorem refusesLarge (t : Transport) : RefusesLarge t := by
  have hlong : ¬ Client.Short t (.send 505) := by cases t <;> unfold Client.Short <;> decide
  have hinv := Client.inv_create plain_laws t
  exact fun h => hlong ((Client.makes_iff_short plain_laws t hinv _).1 h)

theorem largeRequest_inline :
    RefusesLarge .doorbell ∧ RefusesLarge .recv ∧ RefusesLarge .distinctMr :=
  ⟨refusesLarge .doorbell, refusesLarge .recv, refusesLarge .distinctMr⟩

end Posting

end L5RDMA
