import InaneOS.Lib.Ring

/-!
# The keyboard queue: `drivers/keyboard/keyboard.c`

`keyboard_handler` runs on the interrupt and is atomic for the code it interrupts;
`getchar` runs with interrupts enabled (`SYS_GETC` does `sti` before it), so an
interrupt may come between any two of its accesses to the shared variables. `Pc`
says where it is: testing `tail == head`, loading `buf[tail]`, or storing the new
`tail`. A run is a list of interrupts and of such steps in any order.

`History` records what was decoded, accepted and returned. `QueueInv` says that
the accepted characters are the returned ones followed by the ring from `tail` to
`head`, and everything promised about the queue is read off it (`run_queue`).
-/

namespace InaneOS.Drivers

open InaneOS.Lib

/-! ## Decoding -/

def keyUp : UInt8 := 0x80
def keyDown : UInt8 := 0x81
def keyLeft : UInt8 := 0x82
def keyRight : UInt8 := 0x83
def keyDel : UInt8 := 0x84

def kbdMap : List UInt8 :=
  [0, 27, 49, 50, 51, 52, 53, 54, 55, 56, 57, 48,
   45, 61, 8, 9, 113, 119, 101, 114, 116, 121, 117, 105,
   111, 112, 91, 93, 10, 0, 97, 115, 100, 102, 103, 104,
   106, 107, 108, 59, 39, 96, 0, 92, 122, 120, 99, 118,
   98, 110, 109, 44, 46, 47, 0, 42, 0, 32, 0]

def shiftMap : List UInt8 :=
  [0, 27, 33, 64, 35, 36, 37, 94, 38, 42, 40, 41,
   95, 43, 8, 9, 81, 87, 69, 82, 84, 89, 85, 73,
   79, 80, 123, 125, 10, 0, 65, 83, 68, 70, 71, 72,
   74, 75, 76, 58, 34, 126, 0, 124, 90, 88, 67, 86,
   66, 78, 77, 60, 62, 63, 0, 42, 0, 32, 0]

/-- The flags `e0`, `shift` and `caps`. -/
structure Flags where
  e0 : Bool
  shift : Bool
  caps : Bool
deriving DecidableEq

/-- `kbd_decode(sc, ...)`: the character, 0 for none, and the flags after it. -/
def kbdDecode (sc : UInt8) (f : Flags) : UInt8 × Flags :=
  if sc = 0xE0 then (0, { f with e0 := true })
  else if sc = 0x2A ∨ sc = 0x36 then (0, { f with shift := true })
  else if sc = 0xAA ∨ sc = 0xB6 then (0, { f with shift := false })
  else if sc = 0x3A then (0, { f with caps := !f.caps })
  else if f.e0 then
    (if sc &&& 0x80 ≠ 0 then 0
      else if sc = 0x48 then keyUp
      else if sc = 0x50 then keyDown
      else if sc = 0x4B then keyLeft
      else if sc = 0x4D then keyRight
      else if sc = 0x53 then keyDel
      else 0, { f with e0 := false })
  else if sc ≥ 128 ∨ sc &&& 0x80 ≠ 0 then (0, f)
  else
    let base := kbdMap.getD sc.toNat 0
    if base = 0 then (0, f)
    else if 97 ≤ base ∧ base ≤ 122 then (if f.shift != f.caps then base - 32 else base, f)
    else (if f.shift then shiftMap.getD sc.toNat 0 else base, f)

/-! ## The queue -/

def bufSize : Nat := 32

/-- Where `getchar` is: not called, in its loop, past it, or with the character loaded. -/
inductive Pc
  | idle
  | test
  | load
  | store (c : UInt8)

/-- The statics of `keyboard.c`, and the position of the one reader. `buf` is an array of
`char`, which is signed. -/
structure Kbd where
  buf : Nat → Int8
  head : Nat
  tail : Nat
  flags : Flags
  pc : Pc

/-- `push(c)`: whether the character was accepted. -/
def push (c : UInt8) (k : Kbd) : Bool × Kbd :=
  let next := (k.head + 1) % bufSize
  if next = k.tail then (false, k)
  else (true, { k with buf := fun i => if i = k.head then c.toInt8 else k.buf i, head := next })

/-- What `keyboard_handler` decoded, whether it was accepted, and the state after it. -/
def keyboardHandler (sc : UInt8) (k : Kbd) : UInt8 × Bool × Kbd :=
  let (c, f) := kbdDecode sc k.flags
  let k := { k with flags := f }
  if c ≠ 0 then (c, push c k) else (c, false, k)

/-- One step of the reader; the character when `getchar` returns. -/
def getcharStep (k : Kbd) : Option UInt8 × Kbd :=
  match k.pc with
  | .idle => (none, { k with pc := .test })
  | .test => (none, if k.tail = k.head then k else { k with pc := .load })
  | .load => (none, { k with pc := .store (k.buf k.tail).toUInt8 })
  | .store c => (some c, { k with tail := (k.tail + 1) % bufSize, pc := .idle })

/-! ## Runs -/

/-- An interrupt with a scan code, or a step of the reader. -/
inductive KeyEvent
  | irq (sc : UInt8)
  | cpu

/-- The state, with the characters decoded, accepted and returned so far. -/
structure History where
  kbd : Kbd
  arrived : List UInt8
  accepted : List UInt8
  returned : List UInt8

/-- `head = tail = 0` and no flag set; `buf` may hold anything. -/
def History.init (buf : Nat → Int8) : History :=
  ⟨⟨buf, 0, 0, ⟨false, false, false⟩, .idle⟩, [], [], []⟩

def History.step (t : History) : KeyEvent → History
  | .irq sc =>
    let (c, ok, k) := keyboardHandler sc t.kbd
    { t with
      kbd := k
      arrived := if c ≠ 0 then t.arrived ++ [c] else t.arrived
      accepted := if ok then t.accepted ++ [c] else t.accepted }
  | .cpu =>
    let (r, k) := getcharStep t.kbd
    { t with kbd := k, returned := t.returned ++ r.toList }

def History.run (t : History) (es : List KeyEvent) : History := es.foldl History.step t

/-! ## The invariant -/

/-- The character in a slot, as `getchar` returns it. -/
def Kbd.slot (k : Kbd) (i : Nat) : UInt8 := (k.buf i).toUInt8

/-- The queue is the ring from `tail` on, `n` characters long. -/
structure QueueInv (t : History) (n : Nat) : Prop where
  le : n ≤ 31
  tail_lt : t.kbd.tail < bufSize
  head_eq : t.kbd.head = (t.kbd.tail + n) % bufSize
  accepted : t.accepted = t.returned ++ window t.kbd.slot bufSize t.kbd.tail n
  /-- Past its test the reader has a character to take. -/
  load : t.kbd.pc = .load → 0 < n
  store : ∀ c, t.kbd.pc = .store c → 0 < n ∧ c = t.kbd.slot t.kbd.tail

/-- The ring is full at 31 characters and not before. -/
theorem full_iff {tail n : Nat} (ht : tail < 32) (hn : n ≤ 31) :
    ((tail + n) % 32 + 1) % 32 = tail ↔ n = 31 := by
  omega

theorem empty_iff {tail n : Nat} (ht : tail < 32) (hn : n ≤ 31) :
    tail = (tail + n) % 32 ↔ n = 0 := by
  omega

theorem toInt8_toUInt8 (c : UInt8) : c.toInt8.toUInt8 = c := rfl

/-- A character comes in, or finds the queue full. -/
theorem QueueInv.push {t : History} {n : Nat} (h : QueueInv t n) (f : Flags) (c : UInt8) :
    (n = 31 ∧ push c { t.kbd with flags := f } = (false, { t.kbd with flags := f })) ∨
    (n < 31 ∧ ∃ k', push c { t.kbd with flags := f } = (true, k') ∧
      ∀ a, QueueInv ⟨k', a, t.accepted ++ [c], t.returned⟩ (n + 1)) := by
  have hle := h.le
  have hfull := full_iff h.tail_lt hle
  unfold Drivers.push
  dsimp only
  by_cases hn : n = 31
  · refine Or.inl ⟨hn, ?_⟩
    rw [if_pos]
    rw [h.head_eq]
    exact hfull.mpr hn
  · have hlt : n < 31 := by omega
    refine Or.inr ⟨hlt, _, if_neg ?_, fun a => ?_⟩
    · rw [h.head_eq]
      exact fun he => hn (hfull.mp he)
    · -- the slots of the queue before the new one keep their characters
      have hslot : ∀ i < n, (t.kbd.tail + i) % bufSize ≠ t.kbd.head := fun i hi => by
        rw [h.head_eq]
        exact slot_ne hi (by show n < 32; omega)
      refine ⟨hlt, h.tail_lt, ?_, ?_, fun hpc => Nat.succ_pos _, fun c' hpc => ?_⟩
      · dsimp only
        rw [h.head_eq, slot_succ]
      · dsimp only
        rw [window_succ, ← List.append_assoc, h.accepted]
        congr 1
        · congr 1
          refine window_congr fun i hi => ?_
          simp only [Kbd.slot, if_neg (hslot i hi)]
        · rw [← h.head_eq]
          simp only [Kbd.slot, if_true]
          rw [toInt8_toUInt8]
      · obtain ⟨hpos, rfl⟩ := h.store c' hpc
        refine ⟨Nat.succ_pos _, ?_⟩
        have hfirst := hslot 0 hpos
        rw [Nat.add_zero, Nat.mod_eq_of_lt h.tail_lt] at hfirst
        simp only [Kbd.slot, if_neg hfirst]

/-- One step keeps the invariant. -/
theorem QueueInv.step {t : History} {n : Nat} (h : QueueInv t n) (e : KeyEvent) :
    ∃ n', QueueInv (t.step e) n' := by
  cases e with
  | irq sc =>
    simp only [History.step, keyboardHandler]
    by_cases hc : (kbdDecode sc t.kbd.flags).1 = 0
    · simp only [hc, ne_eq, not_true_eq_false, if_false, Bool.false_eq_true]
      exact ⟨n, h.le, h.tail_lt, h.head_eq, h.accepted, h.load, h.store⟩
    · simp only [ne_eq, hc, not_false_eq_true, if_true]
      rcases h.push (kbdDecode sc t.kbd.flags).2 (kbdDecode sc t.kbd.flags).1 with
        ⟨-, hp⟩ | ⟨-, k', hp, hk⟩
      · simp only [hp, Bool.false_eq_true, if_false]
        exact ⟨n, h.le, h.tail_lt, h.head_eq, h.accepted, h.load, h.store⟩
      · simp only [hp, if_true]
        exact ⟨n + 1, hk _⟩
  | cpu =>
    simp only [History.step, getcharStep]
    cases hpc : t.kbd.pc with
    | idle =>
      refine ⟨n, h.le, h.tail_lt, h.head_eq, ?_, by simp, by simp⟩
      exact (List.append_nil t.returned).symm ▸ h.accepted
    | test =>
      dsimp only
      by_cases hempty : t.kbd.tail = t.kbd.head
      · rw [if_pos hempty]
        refine ⟨n, h.le, h.tail_lt, h.head_eq, ?_, h.load, h.store⟩
        exact (List.append_nil t.returned).symm ▸ h.accepted
      · rw [if_neg hempty]
        refine ⟨n, h.le, h.tail_lt, h.head_eq, ?_, fun _ => ?_, by simp⟩
        · exact (List.append_nil t.returned).symm ▸ h.accepted
        · refine Nat.pos_of_ne_zero fun h0 => hempty ?_
          rw [h.head_eq]
          exact (empty_iff h.tail_lt h.le).mpr h0
    | load =>
      refine ⟨n, h.le, h.tail_lt, h.head_eq, ?_, by simp, fun c hc => ⟨h.load hpc, ?_⟩⟩
      · exact (List.append_nil t.returned).symm ▸ h.accepted
      · simp only [Pc.store.injEq] at hc
        exact hc.symm
    | store c =>
      obtain ⟨hpos, rfl⟩ := h.store c hpc
      obtain ⟨m, rfl⟩ : ∃ m, n = m + 1 := ⟨n - 1, by omega⟩
      refine ⟨m, Nat.le_of_succ_le h.le, Nat.mod_lt _ (by decide), ?_, ?_, by simp, by simp⟩
      · dsimp only
        rw [slot_pop]
        exact h.head_eq
      · have hacc := h.accepted
        rw [window_succ_left, Nat.mod_eq_of_lt h.tail_lt] at hacc
        dsimp only [Option.toList_some]
        rw [List.append_assoc]
        exact hacc

theorem init_queueInv (buf : Nat → Int8) : QueueInv (History.init buf) 0 :=
  ⟨by decide, show 0 < bufSize by decide, rfl, rfl, by simp [History.init], by simp [History.init]⟩

theorem run_queueInv (es : List KeyEvent) : ∀ {t : History} {n : Nat}, QueueInv t n →
    ∃ n', QueueInv (t.run es) n' := by
  induction es with
  | nil => exact fun h => ⟨_, h⟩
  | cons e es ih =>
    intro t n h
    obtain ⟨n', h'⟩ := h.step e
    exact ih h'

/-- What is accepted is among what was decoded, in that order. -/
theorem step_sublist {t : History} (h : t.accepted.Sublist t.arrived) (e : KeyEvent) :
    (t.step e).accepted.Sublist (t.step e).arrived := by
  cases e with
  | cpu => exact h
  | irq sc =>
    simp only [History.step, keyboardHandler]
    by_cases hc : (kbdDecode sc t.kbd.flags).1 = 0
    · simp only [hc, ne_eq, not_true_eq_false, if_false, Bool.false_eq_true]
      exact h
    · simp only [ne_eq, hc, not_false_eq_true, if_true]
      split
      · exact h.append (List.Sublist.refl _)
      · exact h.trans (List.sublist_append_left _ _)

theorem run_sublist (es : List KeyEvent) : ∀ {t : History}, t.accepted.Sublist t.arrived →
    (t.run es).accepted.Sublist (t.run es).arrived := by
  induction es with
  | nil => exact fun h => h
  | cons e es ih => exact fun h => ih (step_sublist h e)

/-- **The queue delivers in order.** In every state a run reaches: the indices are in the
ring; what was returned is a prefix of what was accepted in the order of arrival, so no
character is altered, repeated or overtaken; and the next character is accepted unless
exactly 31 accepted ones have not been removed yet, in which case it is dropped. -/
theorem run_queue (buf : Nat → Int8) (es : List KeyEvent) :
    let t := (History.init buf).run es
    t.kbd.head < 32 ∧ t.kbd.tail < 32 ∧ t.accepted.Sublist t.arrived ∧ t.returned <+: t.accepted ∧
      t.accepted.length - t.returned.length ≤ 31 ∧
      ∀ sc, (kbdDecode sc t.kbd.flags).1 ≠ 0 →
        (t.accepted.length - t.returned.length = 31 → (t.step (.irq sc)).accepted = t.accepted) ∧
        (t.accepted.length - t.returned.length ≠ 31 →
          (t.step (.irq sc)).accepted = t.accepted ++ [(kbdDecode sc t.kbd.flags).1]) := by
  intro t
  obtain ⟨n, h⟩ : ∃ n, QueueInv t n := run_queueInv es (init_queueInv buf)
  have hlen : t.accepted.length - t.returned.length = n := by
    rw [h.accepted, List.length_append, window_length]
    omega
  refine ⟨?_, h.tail_lt, run_sublist es (List.Sublist.refl _), ⟨_, h.accepted.symm⟩,
    by rw [hlen]; exact h.le, fun sc hc => ?_⟩
  · rw [h.head_eq]
    exact Nat.mod_lt _ (by decide)
  · rw [hlen]
    simp only [History.step, keyboardHandler, ne_eq, hc, not_false_eq_true, if_true]
    rcases h.push (kbdDecode sc t.kbd.flags).2 (kbdDecode sc t.kbd.flags).1 with
      ⟨hn, hp⟩ | ⟨hn, k', hp, -⟩
    · simp only [hp]
      exact ⟨fun _ => rfl, fun hne => absurd hn hne⟩
    · simp only [hp]
      exact ⟨fun he => absurd he (by omega), fun _ => rfl⟩

end InaneOS.Drivers
