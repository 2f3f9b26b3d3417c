import InaneOS.Lib.Ring
import InaneOS.Lib.Trace

/-!
# The network card: `drivers/nic/e1000.c`

The driver and the device share a ring of eight descriptors. The driver fills the
descriptor at `tx_index` when its `DD` bit is set and moves the register `TDT`
behind it; the device, while `TDH` and `TDT` differ, sends the packet of the
descriptor at `TDH`, sets its `DD` bit and moves `TDH` on (`transmit`, what is
assumed of the hardware). Equal registers mean an empty ring to the device, so the
driver must not fill all eight descriptors; it does not check for that, and its
ownership bits allow it.

`run_served` says of every run that no accepted packet is stranded exactly when
every packet is handed over while a descriptor stays free (`Careful`), and
`eighth_packet` is the run where it is not.
-/

namespace InaneOS.Drivers

open InaneOS.Lib

def numTxDesc : Nat := 8
def packetSize : Nat := 2048

def txdCmdEop : UInt8 := 0x01
def txdCmdIfcs : UInt8 := 0x02
def txdCmdRs : UInt8 := 0x08
def txdStatDd : UInt8 := 0x01

/-- `e1000_tx_desc_t`; `addr` is the index of the transmit buffer pointed to. -/
structure TxDesc where
  addr : Nat
  length : Nat
  cso : UInt8
  cmd : UInt8
  status : UInt8
  css : UInt8
  special : Nat

/-- The transmit side of `e1000_device_t` and the registers `TDH` and `TDT`. -/
structure Nic where
  txDesc : Nat → TxDesc
  txBuffers : Nat → Nat → UInt8
  txIndex : Nat
  tdh : Nat
  tdt : Nat

/-- `setup_tx`, after `e1000_init` has set `tx_index` to 0. -/
def setupTx (d : Nic) : Nic :=
  { d with
    txDesc := fun i =>
      { d.txDesc i with addr := i, length := 0, cso := 0, css := 0, cmd := 0, status := txdStatDd }
    txIndex := 0
    tdh := 0
    tdt := 0 }

/-- `data != 0` and the length is one `e1000_send` takes. -/
def Sendable (data : Option (Nat → UInt8)) (length : Nat) : Prop :=
  data.isSome = true ∧ length ≠ 0 ∧ length ≤ packetSize

instance (data : Option (Nat → UInt8)) (length : Nat) : Decidable (Sendable data length) :=
  inferInstanceAs (Decidable (_ ∧ _))

/-- `e1000_send(dev, data, length) == 0`; `none` is a null pointer. -/
def e1000Send (data : Option (Nat → UInt8)) (length : Nat) (d : Nic) : Bool × Nic :=
  match data with
  | none => (false, d)
  | some data =>
    if length = 0 ∨ length > packetSize then (false, d)
    else
      let index := d.txIndex % numTxDesc
      let desc := d.txDesc index
      if desc.status &&& txdStatDd = 0 then (false, d)
      else
        let next := (index + 1) % numTxDesc
        (true, { d with
          txBuffers := fun b i =>
            if b = index ∧ i < length then data i else d.txBuffers b i
          txDesc := fun j =>
            if j = index then
              { desc with
                length := length
                cso := 0
                css := 0
                special := 0
                cmd := txdCmdEop ||| txdCmdIfcs ||| txdCmdRs
                status := 0 }
            else d.txDesc j
          tdt := next
          txIndex := next })

/-- The packet a descriptor describes. -/
def Nic.packet (d : Nic) (i : Nat) : List UInt8 :=
  (List.range (d.txDesc i).length).map (d.txBuffers (d.txDesc i).addr)

/-- The device: idle, or one packet sent. -/
def transmit (d : Nic) : Option (List UInt8) × Nic :=
  if d.tdh = d.tdt then (none, d)
  else
    (some (d.packet d.tdh), { d with
      txDesc := fun j =>
        if j = d.tdh then { d.txDesc j with status := (d.txDesc j).status ||| txdStatDd }
        else d.txDesc j
      tdh := (d.tdh + 1) % numTxDesc })

/-! ## Runs -/

/-- A call of the driver, or a step of the device. -/
inductive TxEvent
  | send (data : Option (Nat → UInt8)) (length : Nat)
  | hw

/-- The state, with the packets accepted from the caller and sent by the device. -/
structure TxHistory where
  nic : Nic
  accepted : List (List UInt8)
  sent : List (List UInt8)

def TxHistory.step (t : TxHistory) : TxEvent → TxHistory
  | .send data length =>
    let (ok, d) := e1000Send data length t.nic
    { t with
      nic := d
      accepted :=
        match ok, data with
        | true, some data => t.accepted ++ [(List.range length).map data]
        | _, _ => t.accepted }
  | .hw =>
    let (p, d) := transmit t.nic
    { t with nic := d, sent := t.sent ++ p.toList }

def TxHistory.run (t : TxHistory) (es : List TxEvent) : TxHistory := es.foldl TxHistory.step t

def TxHistory.init (d : Nic) : TxHistory := ⟨setupTx d, [], []⟩

/-! ## What is promised -/

/-- Nothing is stranded: the sent packets are the first of the accepted ones, the device
is not idle while some are missing, and as many of its steps as are missing send them all. -/
structure Served (t : TxHistory) : Prop where
  order : t.sent <+: t.accepted
  awake : t.sent.length < t.accepted.length → t.nic.tdh ≠ t.nic.tdt
  drains : (t.run (List.replicate (t.accepted.length - t.sent.length) .hw)).sent = t.accepted

/-- Behind the next descriptor there is another one that the device does not wait for. -/
def Room (d : Nic) : Prop := (d.txIndex + 1) % numTxDesc ≠ d.tdh

/-- Every packet that can be sent is handed over with room left. -/
def Careful (t : TxHistory) : List TxEvent → Prop
  | [] => True
  | e :: es =>
    (∀ data length, e = .send data length → Sendable data length → Room t.nic) ∧
      Careful (t.step e) es

/-! ## The invariant -/

/-- The accepted packets not sent yet are the `n` descriptors from `TDH` on; these are the
device's, the others the driver's. -/
structure TxInv (t : TxHistory) (n : Nat) : Prop where
  le : n ≤ 7
  tdh_lt : t.nic.tdh < 8
  tdt_eq : t.nic.tdt = (t.nic.tdh + n) % 8
  index_eq : t.nic.txIndex = (t.nic.tdh + n) % 8
  addr : ∀ i < 8, (t.nic.txDesc i).addr = i
  accepted : t.accepted = t.sent ++ window t.nic.packet 8 t.nic.tdh n
  free : ∀ i, n ≤ i → i < 8 → (t.nic.txDesc ((t.nic.tdh + i) % 8)).status &&& txdStatDd ≠ 0

theorem dd_set (s : UInt8) : (s ||| txdStatDd) &&& txdStatDd ≠ 0 := by
  have h : (s ||| txdStatDd) &&& txdStatDd = txdStatDd := by
    apply UInt8.toBitVec_inj.mp
    simp only [UInt8.toBitVec_and, UInt8.toBitVec_or]
    ext i
    simp only [BitVec.getElem_and, BitVec.getElem_or, Bool.and_eq_right_iff_imp, Bool.or_eq_true]
    exact Or.inr
  rw [h]
  decide

theorem init_txInv (d : Nic) : TxInv (TxHistory.init d) 0 := by
  refine ⟨by decide, show 0 < 8 by decide, rfl, rfl, fun _ _ => rfl, rfl, fun i _ _ => ?_⟩
  show txdStatDd &&& txdStatDd ≠ 0
  decide

section Steps

variable {t : TxHistory} {n : Nat} (h : TxInv t n)

include h

theorem TxInv.room_iff : Room t.nic ↔ n ≠ 7 := by
  have h1 := h.tdh_lt
  have h2 := h.le
  have h3 := h.index_eq
  unfold Room numTxDesc
  omega

omit h in
/-- What is not sendable changes nothing. -/
theorem step_unsendable {data : Option (Nat → UInt8)} {length : Nat} (hs : ¬ Sendable data length) :
    t.step (.send data length) = t := by
  cases data with
  | none => rfl
  | some data =>
    have hbad : length = 0 ∨ length > packetSize := by
      by_contra hno
      exact hs ⟨rfl, fun h0 => hno (Or.inl h0), Nat.le_of_not_lt fun hl => hno (Or.inr hl)⟩
    simp only [TxHistory.step, e1000Send, if_pos hbad]

/-- A sendable packet is accepted whenever at most seven are on their way. -/
theorem TxInv.send_ok {data : Nat → UInt8} {length : Nat} (hs : Sendable (some data) length) :
    ∃ d, t.step (.send (some data) length)
        = ⟨d, t.accepted ++ [(List.range length).map data], t.sent⟩ ∧
      d.tdh = t.nic.tdh ∧ d.tdt = (t.nic.tdh + (n + 1)) % 8 ∧ d.txIndex = d.tdt ∧
      d.packet = (fun j => if j = (t.nic.tdh + n) % 8 then (List.range length).map data
        else if j < 8 then t.nic.packet j else d.packet j) ∧
      (∀ i < 8, (d.txDesc i).addr = i) ∧
      ∀ i, i ≠ (t.nic.tdh + n) % 8 → d.txDesc i = t.nic.txDesc i := by
  have hle := h.le
  have hidx : t.nic.txIndex % numTxDesc = (t.nic.tdh + n) % 8 := by
    rw [h.index_eq]
    exact Nat.mod_mod _ _
  have hdd := h.free n (Nat.le_refl _) (by omega)
  have hlen : ¬ (length = 0 ∨ length > packetSize) := by
    intro h
    rcases h with h0 | hl
    · exact hs.2.1 h0
    · exact absurd hs.2.2 (Nat.not_le.mpr hl)
  have haddr : (t.nic.txDesc ((t.nic.tdh + n) % 8)).addr = (t.nic.tdh + n) % 8 :=
    h.addr _ (Nat.mod_lt _ (by decide))
  simp only [TxHistory.step, e1000Send, if_neg hlen, hidx, if_neg hdd]
  refine ⟨_, rfl, rfl, slot_succ 8 _ _, rfl, ?_, fun i hi => ?_, fun i hi => if_neg hi⟩
  · funext j
    by_cases hj : j = (t.nic.tdh + n) % 8
    · rw [if_pos hj]
      simp only [Nic.packet, if_pos hj]
      refine List.map_congr_left fun i hi => ?_
      exact if_pos ⟨haddr, List.mem_range.mp hi⟩
    · rw [if_neg hj]
      split
      · next hj8 =>
        simp only [Nic.packet, if_neg hj]
        refine List.map_congr_left fun i _ => ?_
        refine if_neg fun hb => hj ?_
        rw [← hb.1, h.addr j hj8]
      · rfl
  · by_cases hi' : i = (t.nic.tdh + n) % 8
    · simp only [if_pos hi']
      rw [hi', haddr]
    · simp only [if_neg hi']
      exact h.addr i hi

/-- With room left the invariant goes on. -/
theorem TxInv.send {data : Option (Nat → UInt8)} {length : Nat} (hs : Sendable data length)
    (hr : Room t.nic) : TxInv (t.step (.send data length)) (n + 1) := by
  have hle := h.le
  have hn := h.room_iff.mp hr
  obtain ⟨data, rfl⟩ := Option.isSome_iff_exists.mp hs.1
  obtain ⟨d, hstep, htdh, htdt, hidx, hpkt, haddr, hother⟩ := h.send_ok hs
  rw [hstep]
  refine ⟨by omega, by dsimp only; rw [htdh]; exact h.tdh_lt, by dsimp only; rw [htdh, htdt],
    by dsimp only; rw [hidx, htdh, htdt], haddr, ?_, fun i hi hi8 => ?_⟩
  · dsimp only
    rw [h.accepted, htdh, List.append_assoc, hpkt, window_succ, if_pos rfl]
    congr 2
    refine window_congr fun i hi => ?_
    rw [if_neg (slot_ne hi (by omega)), if_pos (Nat.mod_lt _ (by decide))]
  · dsimp only
    rw [htdh, hother _ (slot_ne hi hi8).symm]
    exact h.free i (by omega) hi8

/-- Without room the device goes to sleep on the packet. -/
theorem TxInv.send_full {data : Option (Nat → UInt8)} {length : Nat} (hs : Sendable data length)
    (hr : ¬ Room t.nic) : ¬ Served (t.step (.send data length)) := by
  have hn : n = 7 := by
    by_contra hne
    exact hr (h.room_iff.mpr hne)
  have hlt := h.tdh_lt
  obtain ⟨data, rfl⟩ := Option.isSome_iff_exists.mp hs.1
  obtain ⟨d, hstep, htdh, htdt, -, -, -, -⟩ := h.send_ok hs
  rw [hstep]
  intro hserved
  refine hserved.awake ?_ ?_
  · dsimp only
    rw [h.accepted, List.length_append, List.length_append]
    simp only [List.length_singleton]
    omega
  · dsimp only
    rw [htdh, htdt, hn]
    omega

/-- The device sends the first of the missing packets, if any. -/
theorem TxInv.hw : TxInv (t.step .hw) (n - 1) ∧ (t.step .hw).accepted = t.accepted := by
  have hle := h.le
  have hlt := h.tdh_lt
  refine ⟨?_, rfl⟩
  simp only [TxHistory.step, transmit]
  cases n with
  | zero =>
    have heq : t.nic.tdh = t.nic.tdt := by
      rw [h.tdt_eq]
      omega
    rw [if_pos heq]
    refine ⟨h.le, h.tdh_lt, h.tdt_eq, h.index_eq, h.addr, ?_, h.free⟩
    exact (List.append_nil t.sent).symm ▸ h.accepted
  | succ m =>
    have hne : t.nic.tdh ≠ t.nic.tdt := by
      rw [h.tdt_eq]
      omega
    rw [if_neg hne]
    -- the descriptor that was sent is not one of those still to send
    have hslot : ∀ i, i < 7 → ((t.nic.tdh + 1) % 8 + i) % 8 ≠ t.nic.tdh := by omega
    refine ⟨by omega, Nat.mod_lt _ (by decide), ?_, ?_, fun i hi => ?_, ?_, fun i hi hi8 => ?_⟩
    · dsimp only
      rw [h.tdt_eq]
      exact (slot_pop 8 _ _).symm
    · dsimp only
      rw [h.index_eq]
      exact (slot_pop 8 _ _).symm
    · dsimp only
      split <;> exact h.addr i hi
    · have hacc := h.accepted
      rw [window_succ_left, Nat.mod_eq_of_lt h.tdh_lt] at hacc
      dsimp only [Option.toList_some]
      rw [hacc, List.append_assoc, List.singleton_append]
      congr 2
      refine window_congr fun i hi => ?_
      simp only [Nic.packet, if_neg (hslot i (by omega))]
    · dsimp only [numTxDesc]
      by_cases hi7 : i = 7
      · have hback : ((t.nic.tdh + 1) % 8 + i) % 8 = t.nic.tdh := by omega
        rw [if_pos hback]
        exact dd_set _
      · rw [if_neg (hslot i (by omega)), slot_pop]
        exact h.free (i + 1) (by omega) (by omega)

end Steps

/-- The invariant is all that is promised. -/
theorem TxInv.served : ∀ {n : Nat} {t : TxHistory}, TxInv t n → Served t := by
  have hcount : ∀ {n : Nat} {t : TxHistory}, TxInv t n →
      t.accepted.length - t.sent.length = n := by
    intro n t h
    rw [h.accepted, List.length_append, window_length]
    omega
  -- each step of the device takes one packet off the queue
  have hdrain : ∀ (n : Nat) {t : TxHistory}, TxInv t n →
      (t.run (List.replicate n .hw)).sent = t.accepted := by
    intro n
    induction n with
    | zero =>
      intro t h
      rw [h.accepted, window_zero, List.append_nil]
      rfl
    | succ n ih =>
      intro t h
      obtain ⟨hnext, hacc⟩ := h.hw
      rw [← hacc]
      exact ih hnext
  intro n t h
  refine ⟨⟨_, h.accepted.symm⟩, fun hlt => ?_, by rw [hcount h]; exact hdrain n h⟩
  have hpos : 0 < n := by
    have := hcount h
    omega
  have h1 := h.le
  have h2 := h.tdh_lt
  rw [h.tdt_eq]
  omega

theorem TxInv.always_iff : ∀ {es : List TxEvent} {t : TxHistory} {n : Nat}, TxInv t n →
    (Always TxHistory.step Served t es ↔ Careful t es)
  | [], _, _, h => ⟨fun _ => trivial, fun _ => h.served⟩
  | e :: es, t, n, h => by
    have hnext : (∀ data length, e = .send data length → Sendable data length → Room t.nic) →
        ∃ n', TxInv (t.step e) n' := by
      intro hroom
      cases e with
      | send data length =>
        by_cases hs : Sendable data length
        · exact ⟨n + 1, h.send hs (hroom data length rfl hs)⟩
        · rw [step_unsendable hs]
          exact ⟨n, h⟩
      | hw => exact ⟨n - 1, h.hw.1⟩
    constructor
    · intro hall
      have hroom : ∀ data length, e = .send data length → Sendable data length → Room t.nic := by
        intro data length he hs
        subst he
        by_contra hr
        exact h.send_full hs hr hall.2.start
      obtain ⟨n', h'⟩ := hnext hroom
      exact ⟨hroom, (TxInv.always_iff h').mp hall.2⟩
    · intro hcare
      obtain ⟨n', h'⟩ := hnext hcare.1
      exact ⟨h.served, (TxInv.always_iff h').mpr hcare.2⟩

/-- **No packet is stranded exactly in the careful runs**: in every state such a run goes
through the accepted packets are sent, once and in order, by the steps of the device that
follow, and in every other run there is a state where they are not. -/
theorem run_served (d : Nic) (es : List TxEvent) :
    (∀ k, Served ((TxHistory.init d).run (es.take k))) ↔ Careful (TxHistory.init d) es := by
  rw [← TxInv.always_iff (init_txInv d), always_iff]
  rfl

def bareNic : Nic := ⟨fun _ => ⟨0, 0, 0, 0, 0, 0, 0⟩, fun _ _ => 0, 0, 0, 0⟩

/-- An idle device stays idle. -/
theorem run_idle {t : TxHistory} (h : t.nic.tdh = t.nic.tdt) :
    ∀ n, (t.run (List.replicate n .hw)).sent = t.sent := by
  have hstep : t.step .hw = t := by
    simp only [TxHistory.step, transmit, if_pos h, Option.toList_none, List.append_nil]
  intro n
  induction n with
  | zero => rfl
  | succ n ih =>
    rw [List.replicate_succ]
    show ((t.step .hw).run (List.replicate n .hw)).sent = t.sent
    rw [hstep, ih]

/-- Eight packets before the device does anything: all are accepted, and none is ever sent. -/
theorem eighth_packet :
    let t := (TxHistory.init bareNic).run (List.replicate 8 (.send (some fun _ => 7) 1))
    t.accepted = List.replicate 8 [7] ∧ t.nic.tdh = t.nic.tdt ∧
      ∀ n, (t.run (List.replicate n .hw)).sent = [] := by
  intro t
  have htdh : t.nic.tdh = t.nic.tdt := by decide +kernel
  refine ⟨by decide +kernel, htdh, fun n => ?_⟩
  rw [run_idle htdh]
  decide +kernel

end InaneOS.Drivers
