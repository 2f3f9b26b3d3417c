import Mathlib.Data.List.Forall2
import Mathlib.Data.List.GetD
import InaneOS.Drivers.E1000

/-!
# The receive ring of the network card

The device owns the descriptors from `RDH` up to `RDT`: while the registers differ it
may store a packet in the buffer of the descriptor at `RDH`, with its length and its
`DD` bit, and move `RDH` on (`storePacket`, what is assumed of the hardware). The driver
reads the descriptor at `rx_index` when its `DD` bit is set, clears it and hands it
back by moving `RDT` onto it.

`RxInv` says where the three positions stand: `RDT` is always the descriptor before
`rx_index`, so that one descriptor is never the device's, and the packets the driver
has not returned are the window of the ring from `rx_index` up to `RDH`. `run_delivered`
follows for every interleaving.
-/

namespace InaneOS.Drivers

open InaneOS.Lib

def numRxDesc : Nat := 8
def rxdStatDd : UInt8 := 0x01

/-- `e1000_rx_desc_t`; `addr` is the index of the receive buffer pointed to. -/
structure RxDesc where
  addr : Nat
  length : Nat
  checksum : Nat
  status : UInt8
  errors : UInt8
  special : Nat

/-- The receive side of `e1000_device_t` and the registers `RDH` and `RDT`. -/
structure RxNic where
  rxDesc : Nat → RxDesc
  rxBuffers : Nat → Nat → UInt8
  rxIndex : Nat
  rdh : Nat
  rdt : Nat

def setupRx (d : RxNic) : RxNic :=
  { d with
    rxDesc := fun i =>
      { addr := i, length := 0, checksum := 0, status := 0, errors := 0, special := 0 }
    rxIndex := 0
    rdh := 0
    rdt := numRxDesc - 1 }

/-- The packet a descriptor describes. -/
def RxNic.packet (d : RxNic) (i : Nat) : List UInt8 :=
  (List.range (d.rxDesc i).length).map (d.rxBuffers (d.rxDesc i).addr)

/-- The descriptor at `rx_index` has its `DD` bit set. -/
def RxNic.Finds (d : RxNic) : Prop := (d.rxDesc (d.rxIndex % numRxDesc)).status &&& rxdStatDd ≠ 0

instance : DecidablePred RxNic.Finds := fun _ => inferInstanceAs (Decidable (_ ≠ _))

/-- `e1000_receive(dev, buffer, buffer_size)`: what is returned and the bytes put into the buffer;
`buffer` is false for a null pointer. -/
def e1000Receive (buffer : Bool) (bufferSize : Nat) (d : RxNic) : Int × List UInt8 × RxNic :=
  if buffer = false then (-1, [], d)
  else
    let index := d.rxIndex % numRxDesc
    let desc := d.rxDesc index
    if desc.status &&& rxdStatDd = 0 then (0, [], d)
    else
      let length := if desc.length > bufferSize then bufferSize else desc.length
      (length, (List.range length).map (d.rxBuffers index), { d with
        rxDesc := fun j => if j = index then { desc with status := 0 } else d.rxDesc j
        rdt := index
        rxIndex := (index + 1) % numRxDesc })

/-- A packet as the device takes it from the wire. -/
structure Frame where
  bytes : List UInt8
  short : bytes.length ≤ packetSize

/-- The device: no descriptor is its own, or one packet stored. -/
def storePacket (p : Frame) (d : RxNic) : RxNic :=
  if d.rdh = d.rdt then d
  else
    { d with
      rxBuffers := fun b i =>
        if b = (d.rxDesc d.rdh).addr ∧ i < p.bytes.length then p.bytes.getD i 0 else d.rxBuffers b i
      rxDesc := fun j =>
        if j = d.rdh then
          { d.rxDesc j with length := p.bytes.length, status := (d.rxDesc j).status ||| rxdStatDd }
        else d.rxDesc j
      rdh := (d.rdh + 1) % numRxDesc }

/-! ## Runs -/

/-- A call of the driver, or a step of the device. -/
inductive RxEvent
  | receive (buffer : Bool) (bufferSize : Nat)
  | hw (p : Frame)

/-- A packet the device stored, and the buffer it lies in. -/
structure Stored where
  buffer : Nat
  bytes : List UInt8

/-- A call that found a packet: the size it was given and what it gave back. -/
structure Taken where
  bufferSize : Nat
  ret : Int
  bytes : List UInt8

structure RxHistory where
  nic : RxNic
  stored : List Stored
  taken : List Taken

def RxHistory.step (t : RxHistory) : RxEvent → RxHistory
  | .receive buffer size =>
    let (ret, bytes, d) := e1000Receive buffer size t.nic
    { t with
      nic := d
      taken := if buffer = true ∧ t.nic.Finds then t.taken ++ [⟨size, ret, bytes⟩] else t.taken }
  | .hw p =>
    { t with
      nic := storePacket p t.nic
      stored :=
        if t.nic.rdh = t.nic.rdt then t.stored
        else t.stored ++ [⟨(t.nic.rxDesc t.nic.rdh).addr, p.bytes⟩] }

def RxHistory.run (t : RxHistory) (es : List RxEvent) : RxHistory := es.foldl RxHistory.step t

def RxHistory.init (d : RxNic) : RxHistory := ⟨setupRx d, [], []⟩

/-! ## What is promised -/

/-- The call gave back the first bytes of the packet, as many as fit. -/
def Gives (s : Stored) (x : Taken) : Prop :=
  x.bytes = s.bytes.take x.bufferSize ∧ x.ret = min s.bytes.length x.bufferSize

/-- The calls so far gave back the first of the stored packets, each once and in order; the next
one finds a packet exactly when one is left; and the device will not write to the buffer of a
packet that is left. -/
structure Delivered (t : RxHistory) : Prop where
  order : List.Forall₂ Gives (t.stored.take t.taken.length) t.taken
  finds : t.nic.Finds ↔ t.taken.length < t.stored.length
  kept : t.nic.rdh ≠ t.nic.rdt →
    ∀ s ∈ t.stored.drop t.taken.length, s.buffer ≠ (t.nic.rxDesc t.nic.rdh).addr

/-! ## The invariant -/

/-- The packet of a descriptor, as it was stored. -/
def RxNic.slot (d : RxNic) (i : Nat) : Stored := ⟨i, d.packet i⟩

/-- The `n` descriptors from `rx_index` on hold the packets that are left; `RDH` is behind them and
`RDT` before them. -/
structure RxInv (t : RxHistory) (n : Nat) : Prop where
  le : n ≤ 7
  index_lt : t.nic.rxIndex < 8
  rdh_eq : t.nic.rdh = (t.nic.rxIndex + n) % 8
  rdt_eq : t.nic.rdt = (t.nic.rxIndex + 7) % 8
  addr : ∀ i < 8, (t.nic.rxDesc i).addr = i
  owned : ∀ i < 8, (t.nic.rxDesc ((t.nic.rxIndex + i) % 8)).status &&& rxdStatDd ≠ 0 ↔ i < n
  count : t.stored.length = t.taken.length + n
  left : t.stored.drop t.taken.length = window t.nic.slot 8 t.nic.rxIndex n
  order : List.Forall₂ Gives (t.stored.take t.taken.length) t.taken

theorem init_rxInv (d : RxNic) : RxInv (RxHistory.init d) 0 := by
  refine ⟨by decide, show 0 < 8 by decide, rfl, rfl, fun _ _ => rfl, fun i _ => ?_, rfl, rfl,
    List.Forall₂.nil⟩
  constructor
  · intro h
    exact absurd (show (0 : UInt8) &&& rxdStatDd = 0 by decide) h
  · intro h
    omega

section Steps

variable {t : RxHistory} {n : Nat} (h : RxInv t n)

include h

theorem RxInv.finds_iff : t.nic.Finds ↔ 0 < n := by
  have hidx : t.nic.rxIndex % numRxDesc = (t.nic.rxIndex + 0) % 8 := rfl
  unfold RxNic.Finds
  rw [hidx]
  exact h.owned 0 (by decide)

theorem RxInv.delivered : Delivered t := by
  have hle := h.le
  have hlt := h.index_lt
  refine ⟨h.order, ?_, fun hne s hs => ?_⟩
  · rw [h.finds_iff, h.count]
    omega
  · rw [h.left, window, List.mem_map] at hs
    obtain ⟨i, hi, rfl⟩ := hs
    rw [List.mem_range] at hi
    rw [h.addr _ (by rw [h.rdh_eq]; omega), h.rdh_eq]
    exact slot_ne hi (by omega)

/-- The device stores a packet behind those that are left, unless seven are. -/
theorem RxInv.hw (p : Frame) : ∃ n', RxInv (t.step (.hw p)) n' := by
  have hle := h.le
  have hlt := h.index_lt
  have hrdh := h.rdh_eq
  have hrdt := h.rdt_eq
  by_cases hfull : t.nic.rdh = t.nic.rdt
  · have hstep : t.step (.hw p) = t := by
      simp only [RxHistory.step, storePacket, if_pos hfull]
    rw [hstep]
    exact ⟨n, h⟩
  · have hn : n < 7 := by omega
    have haddr : (t.nic.rxDesc t.nic.rdh).addr = t.nic.rdh := h.addr _ (by omega)
    -- the packets that are left are untouched
    have hother : ∀ j < 8, j ≠ t.nic.rdh → (storePacket p t.nic).packet j = t.nic.packet j := by
      intro j hj hne
      simp only [storePacket, if_neg hfull, RxNic.packet, if_neg hne]
      refine List.map_congr_left fun i _ => if_neg fun hb => hne ?_
      rw [← h.addr j hj, hb.1, haddr]
    have hnew : (storePacket p t.nic).packet t.nic.rdh = p.bytes := by
      simp only [storePacket, if_neg hfull, RxNic.packet, if_pos]
      refine List.ext_getElem (by simp) fun i h1 h2 => ?_
      rw [List.getElem_map, List.getElem_range, if_pos ⟨trivial, h2⟩, List.getD_eq_getElem _ _ h2]
    refine ⟨n + 1, ?_⟩
    simp only [RxHistory.step, if_neg hfull]
    have hdrop : t.taken.length ≤ t.stored.length := by
      rw [h.count]
      omega
    refine ⟨by omega, ?_, ?_, ?_, fun i hi => ?_, fun i hi => ?_, ?_, ?_, ?_⟩
    · simp only [storePacket, if_neg hfull]
      exact hlt
    · simp only [storePacket, if_neg hfull, numRxDesc]
      rw [hrdh]
      exact slot_succ 8 _ _
    · simp only [storePacket, if_neg hfull]
      exact hrdt
    · simp only [storePacket, if_neg hfull]
      split
      · next hi' => exact h.addr i hi
      · exact h.addr i hi
    · simp only [storePacket, if_neg hfull]
      by_cases hin : i = n
      · rw [hin, ← hrdh, if_pos rfl]
        exact ⟨fun _ => by omega, fun _ => dd_set _⟩
      · have hne : (t.nic.rxIndex + i) % 8 ≠ t.nic.rdh := by omega
        rw [if_neg hne, h.owned i hi]
        omega
    · dsimp only
      rw [List.length_append, h.count, List.length_singleton]
      omega
    · have hidx : (storePacket p t.nic).rxIndex = t.nic.rxIndex := by
        simp only [storePacket, if_neg hfull]
      have hslot : (storePacket p t.nic).slot ((t.nic.rxIndex + n) % 8) = ⟨t.nic.rdh, p.bytes⟩ := by
        rw [← hrdh, RxNic.slot, hnew]
      have hold : window (storePacket p t.nic).slot 8 t.nic.rxIndex n =
          window t.nic.slot 8 t.nic.rxIndex n := by
        refine window_congr fun i hi => ?_
        have hne : (t.nic.rxIndex + i) % 8 ≠ t.nic.rdh := hrdh ▸ slot_ne hi (by omega)
        rw [RxNic.slot, RxNic.slot, hother _ (Nat.mod_lt _ (by decide)) hne]
      rw [List.drop_append_of_le_length hdrop, h.left, hidx, window_succ, hold, hslot, haddr]
    · rw [List.take_append_of_le_length hdrop]
      exact h.order

omit h in
/-- A call that finds nothing changes nothing. -/
theorem step_quiet {buffer : Bool} {size : Nat} (hno : ¬ (buffer = true ∧ t.nic.Finds)) :
    t.step (.receive buffer size) = t := by
  simp only [RxHistory.step, if_neg hno, e1000Receive]
  by_cases hb : buffer = false
  · rw [if_pos hb]
  · have hdd : (t.nic.rxDesc (t.nic.rxIndex % numRxDesc)).status &&& rxdStatDd = 0 := by
      by_contra hne
      exact hno ⟨by simpa using hb, hne⟩
    rw [if_neg hb, if_pos hdd]

/-- The driver takes the first packet that is left. -/
theorem RxInv.receive {buffer : Bool} (size : Nat) (hb : buffer = true) (hf : t.nic.Finds) :
    RxInv (t.step (.receive buffer size)) (n - 1) := by
  have hle := h.le
  have hlt := h.index_lt
  have hpos := h.finds_iff.mp hf
  obtain ⟨k, rfl⟩ : ∃ k, n = k + 1 := ⟨n - 1, by omega⟩
  have hidx : t.nic.rxIndex % numRxDesc = t.nic.rxIndex := Nat.mod_eq_of_lt hlt
  have hdd : ¬ (t.nic.rxDesc t.nic.rxIndex).status &&& rxdStatDd = 0 := by
    unfold RxNic.Finds at hf
    rw [hidx] at hf
    exact hf
  have hleft := h.left
  rw [window_succ_left, Nat.mod_eq_of_lt hlt] at hleft
  -- what the call gives back is the packet at `rx_index`
  have hgives : Gives (t.nic.slot t.nic.rxIndex)
      ⟨size, ((if (t.nic.rxDesc t.nic.rxIndex).length > size then size
        else (t.nic.rxDesc t.nic.rxIndex).length : Nat) : Int),
        (List.range (if (t.nic.rxDesc t.nic.rxIndex).length > size then size
          else (t.nic.rxDesc t.nic.rxIndex).length)).map (t.nic.rxBuffers t.nic.rxIndex)⟩ := by
    have hmin : (if (t.nic.rxDesc t.nic.rxIndex).length > size then size
        else (t.nic.rxDesc t.nic.rxIndex).length) =
          min size (t.nic.rxDesc t.nic.rxIndex).length := by
      split <;> omega
    rw [hmin]
    constructor
    · show _ = List.take size (t.nic.packet t.nic.rxIndex)
      rw [RxNic.packet, h.addr _ hlt, ← List.map_take, List.take_range]
    · show ((min size (t.nic.rxDesc t.nic.rxIndex).length : Nat) : Int) =
        ((min (t.nic.packet t.nic.rxIndex).length size : Nat) : Int)
      rw [RxNic.packet, List.length_map, List.length_range, Nat.min_comm]
  have hcount : t.taken.length < t.stored.length := by
    rw [h.count]
    omega
  have hhead : t.stored[t.taken.length] = t.nic.slot t.nic.rxIndex ∧
      t.stored.drop (t.taken.length + 1) = window t.nic.slot 8 ((t.nic.rxIndex + 1) % 8) k := by
    rw [List.drop_eq_getElem_cons hcount] at hleft
    exact List.cons.inj hleft
  simp only [RxHistory.step, e1000Receive, hb, hidx, if_neg hdd, Bool.true_eq_false, if_false,
    true_and, if_pos hf]
  rw [Nat.add_sub_cancel]
  refine ⟨by omega, Nat.mod_lt _ (by decide), ?_, ?_, fun i hi => ?_, fun i hi => ?_, ?_, ?_, ?_⟩
  · dsimp only [numRxDesc]
    rw [h.rdh_eq]
    exact (slot_pop 8 _ _).symm
  · dsimp only [numRxDesc]
    omega
  · dsimp only
    split
    · next hi' =>
      dsimp only
      rw [h.addr _ hlt, hi']
    · exact h.addr i hi
  · dsimp only [numRxDesc]
    by_cases hback : i = 7
    · -- the descriptor that was read is the device's again
      have hslot : ((t.nic.rxIndex + 1) % 8 + i) % 8 = t.nic.rxIndex := by omega
      rw [if_pos hslot]
      refine ⟨fun hne => absurd (show (0 : UInt8) &&& rxdStatDd = 0 by decide) hne, fun hik => ?_⟩
      omega
    · have hslot : ((t.nic.rxIndex + 1) % 8 + i) % 8 ≠ t.nic.rxIndex := by omega
      rw [if_neg hslot, slot_pop, h.owned (i + 1) (by omega)]
      omega
  · rw [List.length_append, List.length_singleton, h.count]
    omega
  · rw [List.length_append, List.length_singleton, hhead.2]
    refine window_congr fun i hi => ?_
    have hne : ((t.nic.rxIndex + 1) % 8 + i) % 8 ≠ t.nic.rxIndex := by omega
    simp only [RxNic.slot, RxNic.packet, if_neg hne]
  · rw [List.length_append, List.length_singleton, List.take_succ_eq_append_getElem hcount, hhead.1]
    exact List.rel_append h.order (List.Forall₂.cons hgives List.Forall₂.nil)

theorem RxInv.step (e : RxEvent) : ∃ n', RxInv (t.step e) n' := by
  cases e with
  | hw p => exact h.hw p
  | receive buffer size =>
    by_cases hf : buffer = true ∧ t.nic.Finds
    · exact ⟨_, h.receive size hf.1 hf.2⟩
    · rw [step_quiet hf]
      exact ⟨n, h⟩

end Steps

theorem RxHistory.run_inv : ∀ {es : List RxEvent} {t : RxHistory} {n : Nat}, RxInv t n →
    ∃ n', RxInv (t.run es) n'
  | [], _, n, h => ⟨n, h⟩
  | e :: es, t, _, h => by
    obtain ⟨n', h'⟩ := h.step e
    show ∃ n', RxInv ((t.step e).run es) n'
    exact RxHistory.run_inv h'

/-- **Every packet is delivered once and in order**, whatever the interleaving of the device and
the calls behind `setup_rx`. -/
theorem run_delivered (d : RxNic) (es : List RxEvent) : Delivered ((RxHistory.init d).run es) := by
  obtain ⟨n, h⟩ := RxHistory.run_inv (init_rxInv d)
  exact h.delivered

end InaneOS.Drivers
