import InaneOS.Drivers.Ide
import InaneOS.Fat.Volume

/-!
# The drive behind the ports

`Ata` is what `drivers/ide/ide.c` may assume of the device. A register of a 48-bit
command holds the last two bytes written to it; after a command, and after the last word
of a sector, the drive is busy for some reads of its status (`delays`, which nothing
restricts) and deaf meanwhile. It transfers the sectors of `drive`; another request it
aborts. A request for more than one sector, or not in LBA mode, counts as one it aborts.

`ideRead_spec` and `ideWrite_spec` say what one call does, however long the drive is
busy. Two readings of a whole run follow from them. `ideRun_flaky`: whatever the delays,
the driver and the drive behave as a disk whose transfers may fail, a failed write having
stored its sector or not. `ideRun_refines`: when every delay ends before the driver gives
up, they behave as the `Disk` that the file system was written against, with the same
result for every call.
-/

namespace InaneOS.Drivers

open InaneOS.Lib
open InaneOS.Fat (Sector Drive Disk Vol)

/-! ## The device -/

/-- Nothing to transfer, a request refused, words for the host, or words of sector `l` taken
so far. -/
inductive Phase
  | ready
  | aborted
  | sends (ws : List UInt16)
  | takes (l : Nat) (ws : List UInt16)

/-- A register that keeps the byte before the last one. -/
structure Twice where
  cur : UInt8
  prev : UInt8

def Twice.push (v : UInt8) (r : Twice) : Twice := ⟨v, r.cur⟩

structure Ata where
  drive : Drive
  medium : Nat → Sector
  ident : Nat → UInt16
  select : UInt8
  count : Twice
  lba0 : Twice
  lba1 : Twice
  lba2 : Twice
  busy : Nat
  delays : List Nat
  phase : Phase

/-- The sector the registers name. -/
def Ata.lba (a : Ata) : Nat :=
  a.lba0.cur.toNat + a.lba1.cur.toNat * 2 ^ 8 + a.lba2.cur.toNat * 2 ^ 16 +
    a.lba0.prev.toNat * 2 ^ 24 + a.lba1.prev.toNat * 2 ^ 32 + a.lba2.prev.toNat * 2 ^ 40

/-- One sector, in LBA mode, of the first drive. -/
def Ata.single (a : Ata) : Prop :=
  a.select &&& 0x50 = 0x40 ∧ a.count.cur = 1 ∧ a.count.prev = 0

instance (a : Ata) : Decidable a.single := inferInstanceAs (Decidable (_ ∧ _ ∧ _))

def Ata.status (a : Ata) : UInt8 :=
  if a.busy ≠ 0 then stBsy
  else
    match a.phase with
    | .ready => stDrdy
    | .aborted => stDrdy ||| stErr
    | .sends _ => stDrdy ||| stDrq
    | .takes _ _ => stDrdy ||| stDrq

/-- The drive turns to `p` after the next delay. -/
def Ata.turn (p : Phase) (a : Ata) : Ata :=
  { a with phase := p, busy := a.delays.headD 0, delays := a.delays.tail }

def Ata.command (c : UInt8) (a : Ata) : Ata :=
  a.turn <|
    if c = cmdIdentify then .sends (tab 256 a.ident)
    else if c = cmdReadExt then
      if a.single ∧ a.drive.reads a.lba then .sends (tab 256 (wordAt (a.medium a.lba)))
      else .aborted
    else if c = cmdWriteExt then
      if a.single ∧ a.drive.writes a.lba then .takes a.lba [] else .aborted
    else if c = cmdFlushExt then .ready
    else .aborted

def Ata.setReg (p : Nat) (v : UInt8) (a : Ata) : Ata :=
  if p = ideBase + regDrive then { a with select := v }
  else if p = ideBase + regCount then { a with count := a.count.push v }
  else if p = ideBase + regLba0 then { a with lba0 := a.lba0.push v }
  else if p = ideBase + regLba1 then { a with lba1 := a.lba1.push v }
  else if p = ideBase + regLba2 then { a with lba2 := a.lba2.push v }
  else if p = ideBase + regCmd then a.command v
  else a

/-- The next word for the host. -/
def Ata.give (a : Ata) : UInt16 × Ata :=
  match a.phase with
  | .sends (w :: ws) => (w, { a with phase := if ws = [] then .ready else .sends ws })
  | _ => (0xFFFF, a)

/-- A word from the host; the last one of a sector stores it. -/
def Ata.take (w : UInt16) (a : Ata) : Ata :=
  match a.phase with
  | .takes l ws =>
    if (ws ++ [w]).length = 256 then
      Ata.turn .ready { a with medium := fun k => if k = l then byteOf (ws ++ [w]) else a.medium k }
    else { a with phase := .takes l (ws ++ [w]) }
  | _ => a

def ataBus : Bus Ata where
  inb p a :=
    if p = ideBase + regCmd ∨ p = ideCtl then (a.status, { a with busy := a.busy - 1 }) else (0, a)
  outb p v a := if a.busy ≠ 0 then a else a.setReg p v
  inw p a := if p = ideBase + regData ∧ a.busy = 0 then a.give else (0xFFFF, a)
  outw p w a := if p = ideBase + regData ∧ a.busy = 0 then a.take w else a

/-! ## What every access keeps -/

/-- Every delay ends before the driver gives up. -/
structure Prompt (a : Ata) : Prop where
  busy : a.busy < 100000
  delays : ∀ n ∈ a.delays, n < 100000

/-- The drive is still the same one, and as prompt as before. -/
structure Same (a a' : Ata) : Prop where
  drive : a'.drive = a.drive
  ident : a'.ident = a.ident
  prompt : Prompt a → Prompt a'

theorem Same.refl (a : Ata) : Same a a := ⟨rfl, rfl, id⟩

theorem Same.trans {a a' a'' : Ata} (h : Same a a') (h' : Same a' a'') : Same a a'' :=
  ⟨h'.drive.trans h.drive, h'.ident.trans h.ident, fun hp => h'.prompt (h.prompt hp)⟩

/-- The next delay is one of those that were to come. -/
theorem turn_same (p : Phase) (a : Ata) : Same a (a.turn p) := by
  refine ⟨rfl, rfl, fun hp => ⟨?_, fun n hn => hp.delays n (List.mem_of_mem_tail hn)⟩⟩
  show a.delays.headD 0 < 100000
  cases hd : a.delays with
  | nil => simp
  | cons n ns => exact hp.delays n (by rw [hd]; exact List.mem_cons_self)

/-- Less of a delay is left. -/
theorem busy_same {a : Ata} {n : Nat} (hn : n ≤ a.busy) : Same a { a with busy := n } :=
  ⟨rfl, rfl, fun hp => ⟨Nat.lt_of_le_of_lt hn hp.busy, hp.delays⟩⟩

/-! ## Waiting -/

theorem status_busy {a : Ata} (h : a.busy ≠ 0) : a.status = stBsy := by
  rw [Ata.status, if_pos h]

theorem status_clear {a : Ata} (h : a.busy = 0) : a.status &&& stBsy = 0 := by
  rw [Ata.status, if_neg (by simp [h])]
  split <;> decide

theorem busy_not_clear : (stBsy &&& stBsy == 0) = false := by decide

/-- A read of the status is a step of the delay. -/
theorem readStatus (a : Ata) :
    ataBus.inb (ideBase + regCmd) a = (a.status, { a with busy := a.busy - 1 }) := rfl

theorem readStatus_iterate (a : Ata) : ∀ k : Nat,
    (Prod.snd ∘ ataBus.inb (ideBase + regCmd))^[k] a = { a with busy := a.busy - k }
  | 0 => rfl
  | k + 1 => by
    rw [Function.iterate_succ_apply', readStatus_iterate a k, Function.comp_apply, readStatus]
    rfl

/-- The wait for the end of a delay that is short enough. -/
theorem waitClear_ends {a : Ata} {t : Nat} (h : a.busy < t) :
    waitClear ataBus stBsy t a = (true, { a with busy := 0 }) := by
  unfold waitClear
  rw [poll_good h, readStatus_iterate]
  · rw [Nat.sub_eq_zero_of_le (Nat.le_succ _)]
  · intro k hk
    rw [readStatus_iterate, readStatus, status_busy (by simpa using Nat.sub_ne_zero_of_lt hk)]
    exact busy_not_clear
  · rw [readStatus_iterate, readStatus, beq_iff_eq]
    exact status_clear (Nat.sub_self _)

/-- The wait for one that is not. -/
theorem waitClear_gives_up {a : Ata} {t : Nat} (h : t ≤ a.busy) :
    waitClear ataBus stBsy t a = (false, { a with busy := a.busy - (t + 1) }) := by
  unfold waitClear
  rw [poll_late, readStatus_iterate]
  intro k hk
  rw [readStatus_iterate, readStatus, status_busy (by simpa using Nat.sub_ne_zero_of_lt (by omega))]
  exact busy_not_clear

/-- Either way only the delay has gone on, and success means that it is over. -/
theorem waitClear_cases (t : Nat) (a : Ata) :
    ∃ n ≤ a.busy, (waitClear ataBus stBsy t a).2 = { a with busy := n } ∧
      ((waitClear ataBus stBsy t a).1 = true ↔ a.busy < t) ∧ (a.busy < t → n = 0) := by
  by_cases h : a.busy < t
  · rw [waitClear_ends h]
    exact ⟨0, Nat.zero_le _, rfl, iff_of_true rfl h, fun _ => rfl⟩
  · rw [waitClear_gives_up (Nat.le_of_not_lt h)]
    exact ⟨_, Nat.sub_le _ _, rfl, iff_of_false (by simp) h, fun hc => absurd hc h⟩

/-- The drive has words for the host, or waits for some. -/
def Phase.asks : Phase → Bool
  | .sends _ => true
  | .takes _ _ => true
  | _ => false

theorem waitSet_ready {a : Ata} (h : a.busy = 0) :
    waitSet ataBus stDrq 100000 a = (a.phase.asks, a) := by
  have hstay : ∀ k, (Prod.snd ∘ ataBus.inb (ideBase + regCmd))^[k] a = a := by
    intro k
    rw [readStatus_iterate, h, Nat.zero_sub, ← h]
  have hbit : (a.status &&& stDrq != 0) = a.phase.asks := by
    rw [Ata.status, if_neg (by simp [h])]
    cases a.phase with
    | ready => exact (by decide : (stDrdy &&& stDrq != 0) = false)
    | aborted => exact (by decide : ((stDrdy ||| stErr) &&& stDrq != 0) = false)
    | sends ws => exact (by decide : ((stDrdy ||| stDrq) &&& stDrq != 0) = true)
    | takes l ws => exact (by decide : ((stDrdy ||| stDrq) &&& stDrq != 0) = true)
  unfold waitSet
  cases hasks : a.phase.asks with
  | true =>
    rw [poll_good (n := 0) (by omega) (fun k hk => absurd hk (Nat.not_lt_zero k)), hstay]
    rw [hstay, readStatus, hbit, hasks]
  | false =>
    rw [poll_late, hstay]
    intro k _
    rw [hstay, readStatus, hbit, hasks]

/-! ## Commands -/

/-- What `issue` sets before the command. -/
def Ata.named (lba : Nat) (a : Ata) : Ata :=
  { a with
    select := 0xE0
    count := ⟨1, 0⟩
    lba0 := ⟨UInt8.ofNat lba, UInt8.ofNat (lba / 2 ^ 24)⟩
    lba1 := ⟨UInt8.ofNat (lba / 2 ^ 8), UInt8.ofNat (lba / 2 ^ 32)⟩
    lba2 := ⟨UInt8.ofNat (lba / 2 ^ 16), UInt8.ofNat (lba / 2 ^ 40)⟩ }

section Registers

variable {a : Ata} (h : a.busy = 0) (v : UInt8)
include h

/-- A register write reaches a drive that is not busy. -/
theorem outb_ready (p : Nat) : ataBus.outb p v a = a.setReg p v := if_neg (by simp [h])

theorem outb_select : ataBus.outb (ideBase + regDrive) v a = { a with select := v } :=
  outb_ready h v _

theorem outb_count :
    ataBus.outb (ideBase + regCount) v a = { a with count := a.count.push v } := outb_ready h v _

theorem outb_lba0 :
    ataBus.outb (ideBase + regLba0) v a = { a with lba0 := a.lba0.push v } := outb_ready h v _

theorem outb_lba1 :
    ataBus.outb (ideBase + regLba1) v a = { a with lba1 := a.lba1.push v } := outb_ready h v _

theorem outb_lba2 :
    ataBus.outb (ideBase + regLba2) v a = { a with lba2 := a.lba2.push v } := outb_ready h v _

theorem outb_cmd : ataBus.outb (ideBase + regCmd) v a = a.command v := outb_ready h v _

end Registers

theorem issue_ready {a : Ata} (h : a.busy = 0) (lba : Nat) (cmd : UInt8) :
    issue ataBus lba cmd a = (a.named lba).command cmd := by
  simp only [issue, outb_select, outb_count, outb_lba0, outb_lba1, outb_lba2, outb_cmd, h,
    Twice.push, Ata.named]

theorem named_single (lba : Nat) (a : Ata) : (a.named lba).single :=
  ⟨(by decide : (0xE0 : UInt8) &&& 0x50 = 0x40), rfl, rfl⟩

/-- Six bytes are enough for a sector number of a drive with 48-bit addresses. -/
theorem named_lba {lba : Nat} (h : lba < 2 ^ 48) (a : Ata) : (a.named lba).lba = lba := by
  have hbyte : ∀ n, (UInt8.ofNat n).toNat = n % 256 := fun n => UInt8.toNat_ofNat
  unfold Ata.named Ata.lba
  simp only [hbyte]
  omega

/-- The phase a command for sector `lba` leads to. -/
def Ata.answer (cmd : UInt8) (lba : Nat) (a : Ata) : Phase :=
  if cmd = cmdReadExt then
    if a.drive.reads lba then .sends (tab 256 (wordAt (a.medium lba))) else .aborted
  else if a.drive.writes lba then .takes lba [] else .aborted

theorem command_named {cmd : UInt8} (hcmd : cmd = cmdReadExt ∨ cmd = cmdWriteExt) {lba : Nat}
    (h : lba < 2 ^ 48) (a : Ata) :
    (a.named lba).command cmd = (a.named lba).turn (a.answer cmd lba) := by
  have hs := named_single lba a
  unfold Ata.command Ata.answer
  rw [named_lba h]
  rcases hcmd with rfl | rfl
  · rw [if_neg (by decide : cmdReadExt ≠ cmdIdentify), if_pos rfl, if_pos rfl]
    simp only [hs, true_and]
    rfl
  · rw [if_neg (by decide : cmdWriteExt ≠ cmdIdentify),
      if_neg (by decide : cmdWriteExt ≠ cmdReadExt), if_pos rfl,
      if_neg (by decide : cmdWriteExt ≠ cmdReadExt)]
    simp only [hs, true_and]
    rfl

theorem command_same {cmd : UInt8} (hcmd : cmd = cmdReadExt ∨ cmd = cmdWriteExt) {lba : Nat}
    (h : lba < 2 ^ 48) (a : Ata) : Same a ((a.named lba).command cmd) := by
  rw [command_named hcmd h]
  have hnamed : Same a (a.named lba) := ⟨rfl, rfl, fun hp => ⟨hp.busy, hp.delays⟩⟩
  exact hnamed.trans (turn_same _ _)

/-- **A request**: the medium stays, and success means that the drive asks for the data. A drive
that is prompt refuses only what it cannot transfer. -/
theorem request_spec {cmd : UInt8} (hcmd : cmd = cmdReadExt ∨ cmd = cmdWriteExt) {lba : Nat}
    (h : lba < 2 ^ 48) (a : Ata) :
    Same a (request ataBus lba cmd a).2 ∧ (request ataBus lba cmd a).2.medium = a.medium ∧
      ((request ataBus lba cmd a).1 = true →
        (a.answer cmd lba).asks = true ∧ (request ataBus lba cmd a).2.busy = 0 ∧
          (request ataBus lba cmd a).2.phase = a.answer cmd lba) ∧
      (Prompt a → (request ataBus lba cmd a).1 = (a.answer cmd lba).asks) := by
  obtain ⟨n, hn, hstate, hiff, hzero⟩ := waitClear_cases 100000 a
  unfold request
  rcases hw : waitClear ataBus stBsy 100000 a with ⟨ok, d⟩
  rw [hw] at hstate hiff
  dsimp only at hstate hiff ⊢
  subst hstate
  cases ok with
  | false =>
    refine ⟨busy_same hn, rfl, fun hc => absurd hc Bool.false_ne_true, fun hp => ?_⟩
    exact absurd (hiff.mpr hp.busy) Bool.false_ne_true
  | true =>
    obtain rfl := hzero (hiff.mp rfl)
    have hsent := (busy_same hn).trans (command_same hcmd h { a with busy := 0 })
    have hmedium : ((({ a with busy := 0 } : Ata).named lba).command cmd).medium = a.medium := by
      rw [command_named hcmd h]
      rfl
    have hphase : ((({ a with busy := 0 } : Ata).named lba).command cmd).phase =
        a.answer cmd lba := by
      rw [command_named hcmd h]
      rfl
    rw [issue_ready rfl]
    generalize (({ a with busy := 0 } : Ata).named lba).command cmd = a2 at hsent hmedium hphase ⊢
    obtain ⟨n2, hn2, hstate2, hiff2, hzero2⟩ := waitClear_cases 100000 a2
    rcases hw2 : waitClear ataBus stBsy 100000 a2 with ⟨ok2, d2⟩
    rw [hw2] at hstate2 hiff2
    dsimp only at hstate2 hiff2 ⊢
    subst hstate2
    cases ok2 with
    | false =>
      refine ⟨hsent.trans (busy_same hn2), hmedium, fun hc => absurd hc Bool.false_ne_true,
        fun hp => ?_⟩
      exact absurd (hiff2.mpr (hsent.prompt hp).busy) Bool.false_ne_true
    | true =>
      obtain rfl := hzero2 (hiff2.mp rfl)
      simp only [Bool.not_true, Bool.false_eq_true, if_false]
      rw [waitSet_ready rfl]
      refine ⟨hsent.trans (busy_same hn2), hmedium, fun hasks => ⟨?_, rfl, hphase⟩, fun _ => ?_⟩
      · rw [← hphase]
        exact hasks
      · rw [← hphase]

/-! ## Data -/

/-- All the words the drive has. -/
theorem readWords_sends : ∀ {ws : List UInt16} {a : Ata}, a.busy = 0 → a.phase = .sends ws →
    ws ≠ [] → readWords ataBus ws.length a = (ws, { a with phase := .ready })
  | [], _, _, _, hne => absurd rfl hne
  | w :: ws, a, hbusy, hphase, _ => by
    have hgive : ataBus.inw (ideBase + regData) a =
        (w, { a with phase := if ws = [] then .ready else .sends ws }) := by
      show (if _ ∧ a.busy = 0 then a.give else _) = _
      rw [if_pos ⟨rfl, hbusy⟩, Ata.give, hphase]
    rw [List.length_cons, readWords, hgive]
    by_cases hws : ws = []
    · subst hws
      rfl
    · dsimp only
      rw [if_neg hws, readWords_sends (by exact hbusy) rfl hws]

/-- The rest of a sector: with its last word the drive stores it. -/
theorem writeWords_takes {l : Nat} : ∀ {ws pre : List UInt16} {a : Ata}, a.busy = 0 →
    a.phase = .takes l pre → ws ≠ [] → pre.length + ws.length = 256 →
    writeWords ataBus ws a = Ata.turn .ready
      { a with medium := fun k => if k = l then byteOf (pre ++ ws) else a.medium k }
  | [], _, _, _, _, hne, _ => absurd rfl hne
  | w :: ws, pre, a, hbusy, hphase, _, hlen => by
    have htake : ataBus.outw (ideBase + regData) w a = a.take w := by
      show (if _ ∧ a.busy = 0 then a.take w else a) = _
      rw [if_pos ⟨rfl, hbusy⟩]
    rw [writeWords, htake, Ata.take, hphase]
    dsimp only
    by_cases hws : ws = []
    · subst hws
      rw [if_pos (by simpa using hlen)]
      rfl
    · have hpos := List.length_pos_iff.mpr hws
      rw [List.length_cons] at hlen
      rw [if_neg (by rw [List.length_append, List.length_singleton]; omega),
        writeWords_takes (by exact hbusy) rfl hws
          (by rw [List.length_append, List.length_singleton]; omega), List.append_assoc]
      rfl

/-- The sector `lba` holds what the words of `buf` say. -/
def stored (lba : Nat) (buf : Sector) (medium : Nat → Sector) : Nat → Sector :=
  fun k => if k = lba then byteOf (tab 256 (wordAt buf)) else medium k

theorem writeWords_sector {lba : Nat} {a : Ata} (hbusy : a.busy = 0)
    (hphase : a.phase = .takes lba [])
    (buf : Sector) : writeWords ataBus (tab 256 (wordAt buf)) a =
      Ata.turn .ready { a with medium := stored lba buf a.medium } := by
  have hlen : ([] : List UInt16).length + (tab 256 (wordAt buf)).length = 256 := by
    rw [tab_length, List.length_nil]
  have hwords := writeWords_takes hbusy hphase (by simp [tab]) hlen
  rw [List.nil_append] at hwords
  exact hwords

theorem delay400_same (a : Ata) : Same a (delay400 ataBus a) := by
  have hdelay : delay400 ataBus a = { a with busy := a.busy - 1 - 1 - 1 - 1 } := rfl
  rw [hdelay]
  exact busy_same (by omega)

theorem delay400_medium (a : Ata) : (delay400 ataBus a).medium = a.medium := rfl

theorem flush_ata (a : Ata) : Same a (ataBus.outb (ideBase + regCmd) cmdFlushExt a) ∧
    (ataBus.outb (ideBase + regCmd) cmdFlushExt a).medium = a.medium := by
  by_cases h : a.busy = 0
  · rw [outb_cmd h]
    exact ⟨turn_same _ a, rfl⟩
  · have hdeaf : ataBus.outb (ideBase + regCmd) cmdFlushExt a = a := if_pos h
    rw [hdeaf]
    exact ⟨Same.refl a, rfl⟩

/-! ## One call -/

/-- The sectors the driver gets through to. -/
def Ide.drive (s : Ide Ata) : Drive where
  reads l := s.present && decide (l < s.total) && s.dev.drive.reads l
  writes l := s.present && decide (l < s.total) && s.dev.drive.writes l

theorem Ide.drive_out {s : Ide Ata} {l : Nat} (h : (!s.present) = true ∨ l ≥ s.total) :
    s.drive.reads l = false ∧ s.drive.writes l = false := by
  unfold Ide.drive
  rcases h with hp | hge
  · rw [Bool.not_eq_true'] at hp
    simp [hp]
  · simp [Nat.not_lt.mpr hge]

theorem Ide.drive_in {s : Ide Ata} {l : Nat} (h : ¬ ((!s.present) = true ∨ l ≥ s.total)) :
    l < s.total ∧ s.drive.reads l = s.dev.drive.reads l ∧
      s.drive.writes l = s.dev.drive.writes l := by
  rw [not_or, Bool.not_eq_true', Bool.not_eq_false, ge_iff_le, Nat.not_le] at h
  unfold Ide.drive
  simp [h.1, h.2]

/-- The driver knows the same drive as before. -/
structure Kept (s s' : Ide Ata) : Prop where
  total : s'.total = s.total
  present : s'.present = s.present
  dev : Same s.dev s'.dev

theorem Kept.drive {s s' : Ide Ata} (h : Kept s s') : s'.drive = s.drive := by
  unfold Ide.drive
  rw [h.total, h.present, h.dev.drive]

theorem bytesOf_stored (lba : Nat) (buf : Sector) (medium : Nat → Sector) (k : Nat) :
    bytesOf (stored lba buf medium k) = if k = lba then bytesOf buf else bytesOf (medium k) := by
  unfold stored
  split
  · exact bytes_wordAt buf
  · rfl

section Calls

variable {s : Ide Ata} (hsize : s.total ≤ 2 ^ 48) (lba : Nat)
include hsize

/-- **`ide_read`**: what is returned is what the sector holds, and a prompt drive fails only for
a sector it cannot transfer. -/
theorem ideRead_spec : Kept s (ideRead ataBus lba s).2 ∧
    (ideRead ataBus lba s).2.dev.medium = s.dev.medium ∧
    (∀ bs, (ideRead ataBus lba s).1 = some bs →
      s.drive.reads lba = true ∧ bs = bytesOf (s.dev.medium lba)) ∧
    (Prompt s.dev → (ideRead ataBus lba s).1.isSome = s.drive.reads lba) := by
  unfold ideRead
  by_cases hout : (!s.present) = true ∨ lba ≥ s.total
  · rw [if_pos hout]
    exact ⟨⟨rfl, rfl, Same.refl _⟩, rfl, fun bs hc => absurd hc (by simp),
      fun _ => (Ide.drive_out hout).1.symm⟩
  · rw [if_neg hout]
    obtain ⟨hlt, hreads, -⟩ := Ide.drive_in hout
    obtain ⟨hsame, hmedium, hok, hprompt⟩ :=
      request_spec (Or.inl rfl) (Nat.lt_of_lt_of_le hlt hsize) s.dev
    have hasks : (s.dev.answer cmdReadExt lba).asks = s.dev.drive.reads lba := by
      unfold Ata.answer
      rw [if_pos rfl]
      cases s.dev.drive.reads lba <;> rfl
    rw [hasks] at hok hprompt
    rcases hr : request ataBus lba cmdReadExt s.dev with ⟨ok, d⟩
    rw [hr] at hsame hmedium hok hprompt
    dsimp only at hsame hmedium hok hprompt ⊢
    cases ok with
    | false =>
      refine ⟨⟨rfl, rfl, hsame⟩, hmedium, fun bs hc => absurd hc (by simp), fun hp => ?_⟩
      rw [hreads, ← hprompt hp]
      rfl
    | true =>
      obtain ⟨hyes, hbusy, hphase⟩ := hok rfl
      rw [Ata.answer, if_pos rfl, if_pos hyes] at hphase
      have hwords := readWords_sends hbusy hphase (by simp [tab])
      rw [tab_length] at hwords
      simp only [Bool.not_true, Bool.false_eq_true, if_false]
      rw [hwords]
      have hdone : Same d { d with phase := .ready } := ⟨rfl, rfl, fun hp => ⟨hp.busy, hp.delays⟩⟩
      refine ⟨⟨rfl, rfl, (hsame.trans hdone).trans (delay400_same _)⟩, hmedium,
        fun bs hbs => ⟨hreads.trans hyes, ?_⟩, fun _ => (hreads.trans hyes).symm⟩
      rw [← Option.some.inj hbs]
      exact bytes_wordAt _

/-- **`ide_write`**: at most the named sector changes, success means that it did, and a prompt
drive fails only for a sector it cannot transfer. -/
theorem ideWrite_spec (buf : Sector) : Kept s (ideWrite ataBus lba buf s).2 ∧
    ((ideWrite ataBus lba buf s).2.dev.medium = s.dev.medium ∨
      s.drive.writes lba = true ∧
        (ideWrite ataBus lba buf s).2.dev.medium = stored lba buf s.dev.medium) ∧
    ((ideWrite ataBus lba buf s).1 = true →
      s.drive.writes lba = true ∧
        (ideWrite ataBus lba buf s).2.dev.medium = stored lba buf s.dev.medium) ∧
    (Prompt s.dev → (ideWrite ataBus lba buf s).1 = s.drive.writes lba) := by
  unfold ideWrite
  by_cases hout : (!s.present) = true ∨ lba ≥ s.total
  · rw [if_pos hout]
    exact ⟨⟨rfl, rfl, Same.refl _⟩, Or.inl rfl, fun hc => absurd hc Bool.false_ne_true,
      fun _ => (Ide.drive_out hout).2.symm⟩
  · rw [if_neg hout]
    obtain ⟨hlt, -, hwrites⟩ := Ide.drive_in hout
    obtain ⟨hsame, hmedium, hok, hprompt⟩ :=
      request_spec (Or.inr rfl) (Nat.lt_of_lt_of_le hlt hsize) s.dev
    have hasks : (s.dev.answer cmdWriteExt lba).asks = s.dev.drive.writes lba := by
      unfold Ata.answer
      rw [if_neg (by decide : cmdWriteExt ≠ cmdReadExt)]
      cases s.dev.drive.writes lba <;> rfl
    rw [hasks] at hok hprompt
    rcases hr : request ataBus lba cmdWriteExt s.dev with ⟨ok, d⟩
    rw [hr] at hsame hmedium hok hprompt
    dsimp only at hsame hmedium hok hprompt ⊢
    cases ok with
    | false =>
      refine ⟨⟨rfl, rfl, hsame⟩, Or.inl hmedium, fun hc => absurd hc Bool.false_ne_true,
        fun hp => ?_⟩
      rw [hwrites, ← hprompt hp]
      rfl
    | true =>
      obtain ⟨hyes, hbusy, hphase⟩ := hok rfl
      rw [Ata.answer, if_neg (by decide : cmdWriteExt ≠ cmdReadExt), if_pos hyes] at hphase
      simp only [Bool.not_true, Bool.false_eq_true, if_false]
      rw [writeWords_sector hbusy hphase, hmedium]
      have hput : Same d { d with medium := stored lba buf s.dev.medium } :=
        ⟨rfl, rfl, fun hp => ⟨hp.busy, hp.delays⟩⟩
      have hsent := (hsame.trans hput).trans (turn_same .ready _)
      obtain ⟨hflush, hflushed⟩ :=
        flush_ata (Ata.turn .ready { d with medium := stored lba buf s.dev.medium })
      have hall := hsent.trans hflush
      -- the last wait decides what is reported; the sector is on the medium either way
      replace hflushed : _ = stored lba buf s.dev.medium := hflushed
      generalize ataBus.outb (ideBase + regCmd) cmdFlushExt
        (Ata.turn .ready { d with medium := stored lba buf s.dev.medium }) = d4
        at hall hflushed ⊢
      obtain ⟨n, hn, hstate, hiff, hzero⟩ := waitClear_cases 100000 d4
      rcases hw : waitClear ataBus stBsy 100000 d4 with ⟨ok4, d5⟩
      rw [hw] at hstate hiff
      dsimp only at hstate hiff ⊢
      subst hstate
      have hend := hall.trans (busy_same hn)
      have hdone : s.drive.writes lba = true := hwrites.trans hyes
      cases ok4 with
      | false =>
        refine ⟨⟨rfl, rfl, hend⟩, Or.inr ⟨hdone, hflushed⟩,
          fun hc => absurd hc Bool.false_ne_true, fun hp => ?_⟩
        exact absurd (hiff.mpr (hall.prompt hp).busy) Bool.false_ne_true
      | true =>
        exact ⟨⟨rfl, rfl, hend.trans (delay400_same _)⟩, Or.inr ⟨hdone, hflushed⟩,
          fun _ => ⟨hdone, hflushed⟩, fun _ => hdone.symm⟩

end Calls

/-! ## Starting up -/

/-- The number of sectors in the drive's identification. -/
def Ata.size (a : Ata) : Nat :=
  (a.ident 100).toNat ||| (a.ident 101).toNat <<< 16 ||| (a.ident 102).toNat <<< 32 |||
    (a.ident 103).toNat <<< 48

/-- The drive takes 48-bit commands. -/
def Ata.HasLba48 (a : Ata) : Prop := a.ident 83 &&& 0x400 ≠ 0

instance (a : Ata) : Decidable a.HasLba48 := inferInstanceAs (Decidable (_ ≠ _))

theorem status_ne_floating (a : Ata) : a.status ≠ 0xFF := by
  unfold Ata.status
  split
  · decide
  · split <;> decide

theorem status_ne_zero (a : Ata) : a.status ≠ 0 := by
  unfold Ata.status
  split
  · decide
  · split <;> decide

/-- The drive as `ide_init` has told it to identify itself. -/
def Ata.asked (a : Ata) : Ata :=
  delay400 ataBus (Ata.turn (.sends (tab 256 a.ident)) { a with select := 0xE0 })

theorem asked_same (a : Ata) : Same a a.asked := by
  have hselect : Same a { a with select := 0xE0 } := ⟨rfl, rfl, fun hp => ⟨hp.busy, hp.delays⟩⟩
  exact (hselect.trans (turn_same _ _)).trans (delay400_same _)

theorem identify_ready {a : Ata} (h : a.busy = 0) :
    delay400 ataBus (ataBus.outb (ideBase + regCmd) cmdIdentify
      (delay400 ataBus (ataBus.outb (ideBase + regDrive) 0xE0 a))) = a.asked := by
  have hrest : delay400 ataBus { a with select := 0xE0 } = { a with select := 0xE0 } := by
    have hdelay : delay400 ataBus { a with select := 0xE0 } =
      { a with select := 0xE0, busy := a.busy - 1 - 1 - 1 - 1 } := rfl
    have hzero : a.busy - 1 - 1 - 1 - 1 = a.busy := by omega
    rw [hdelay, hzero]
  rw [outb_select h, hrest, outb_cmd (by exact h)]
  rfl

/-- `ideLearn` once every wait has succeeded. -/
theorem ideLearn_asked {σ : Type} {b : Bus σ} (s : Ide σ) {v : UInt8} {ws : List UInt16}
    {d d₁ d₂ d₃ d₄ : σ} (hclear : waitClear b stBsy 100000 d = (true, d₁))
    (hv : b.inb (ideBase + regCmd) d₁ = (v, d₂)) (herr : v &&& stErr = 0)
    (hset : waitSet b stDrq 100000 d₂ = (true, d₃)) (hread : readWords b 256 d₃ = (ws, d₄)) :
    ideLearn b s d =
      if ws.getD 83 0 &&& 0x400 = 0 then (false, { s with dev := d₄ })
      else (true, ⟨(ws.getD 100 0).toNat ||| (ws.getD 101 0).toNat <<< 16 |||
        (ws.getD 102 0).toNat <<< 32 ||| (ws.getD 103 0).toNat <<< 48, true, d₄⟩) := by
  unfold ideLearn
  rw [hclear]
  simp only [Bool.not_true, Bool.false_eq_true, if_false, hv, herr, hset, hread, ne_eq,
    not_true_eq_false]

/-- The identification of a drive that is about to send it. -/
theorem ideLearn_spec (s : Ide Ata) {id : Nat → UInt16} {a : Ata} (hp : Prompt a)
    (hphase : a.phase = .sends (tab 256 id)) :
    ∃ d, Same a d ∧ d.medium = a.medium ∧ ideLearn ataBus s a =
      if id 83 &&& 0x400 = 0 then (false, { s with dev := d })
      else (true, ⟨(id 100).toNat ||| (id 101).toNat <<< 16 ||| (id 102).toNat <<< 32 |||
        (id 103).toNat <<< 48, true, d⟩) := by
  have hget : ∀ i < 256, (tab 256 id).getD i 0 = id i := by
    intro i hi
    rw [List.getD_eq_getElem?_getD, tab_getElem?, if_pos hi, Option.getD_some]
  have hread : Same a { a with busy := 0, phase := .ready } :=
    (busy_same (Nat.zero_le _)).trans ⟨rfl, rfl, fun hp => ⟨hp.busy, hp.delays⟩⟩
  refine ⟨{ a with busy := 0, phase := .ready }, hread, rfl, ?_⟩
  have hstatus : ({ a with busy := 0 } : Ata).status = stDrdy ||| stDrq := by
    rw [Ata.status, if_neg (by simp)]
    dsimp only
    rw [hphase]
  have hno : (stDrdy ||| stDrq) &&& stErr = 0 := by decide
  have hasks : a.phase.asks = true := by
    rw [hphase]
    rfl
  have hwords := readWords_sends (a := { a with busy := 0 }) rfl hphase (by simp [tab])
  rw [tab_length] at hwords
  have hset : waitSet ataBus stDrq 100000 { a with busy := 0 } = (true, { a with busy := 0 }) := by
    rw [waitSet_ready rfl, hasks]
  have herr : ({ a with busy := 0 } : Ata).status &&& stErr = 0 := by rw [hstatus, hno]
  rw [ideLearn_asked s (waitClear_ends hp.busy) (readStatus _) herr hset hwords,
    hget 83 (by omega), hget 100 (by omega), hget 101 (by omega), hget 102 (by omega),
    hget 103 (by omega)]

/-- `ide_init` up to the point where a drive has been seen. -/
theorem ideInit_seen {σ : Type} {b : Bus σ} {s : Ide σ} {v v' : UInt8} {d d' : σ}
    (hv : b.inb (ideBase + regCmd) s.dev = (v, d)) (hbus : v ≠ 0xFF)
    (hv' : b.inb (ideBase + regCmd) (delay400 b (b.outb (ideBase + regCmd) cmdIdentify
      (delay400 b (b.outb (ideBase + regDrive) 0xE0 d)))) = (v', d')) (hdrive : v' ≠ 0) :
    ideInit b s = ideLearn b s d' := by
  unfold ideInit
  rw [hv]
  simp only [hbus, hv', hdrive, if_false]

/-- **`ide_init`** on a prompt drive that is not busy: it learns the size, and the drive is at rest
afterwards. -/
theorem ideInit_spec {s : Ide Ata} (hbusy : s.dev.busy = 0) (hp : Prompt s.dev) :
    (ideInit ataBus s).1 = decide s.dev.HasLba48 ∧ Same s.dev (ideInit ataBus s).2.dev ∧
      (ideInit ataBus s).2.dev.medium = s.dev.medium ∧
      (s.dev.HasLba48 → (ideInit ataBus s).2.present = true ∧
        (ideInit ataBus s).2.total = s.dev.size) := by
  obtain ⟨total, present, a⟩ := s
  dsimp only at hbusy hp ⊢
  have hself : ({ a with busy := a.busy - 1 } : Ata) = a := by rw [hbusy, Nat.zero_sub, ← hbusy]
  have hsent := (asked_same a).trans (busy_same (Nat.sub_le a.asked.busy 1))
  have hphase : ({ a.asked with busy := a.asked.busy - 1 } : Ata).phase =
    .sends (tab 256 a.ident) := rfl
  obtain ⟨d, hsame, hmedium, hlearn⟩ :=
    ideLearn_spec ⟨total, present, a⟩ (hsent.prompt hp) hphase
  have hfirst : ataBus.inb (ideBase + regCmd) a = (a.status, a) := by rw [readStatus, hself]
  have hinit : ideInit ataBus ⟨total, present, a⟩ =
      ideLearn ataBus ⟨total, present, a⟩ { a.asked with busy := a.asked.busy - 1 } := by
    refine ideInit_seen hfirst (status_ne_floating a) ?_ (status_ne_zero a.asked)
    rw [identify_ready hbusy, readStatus]
  rw [hinit, hlearn]
  by_cases hlba : a.HasLba48
  · rw [if_neg hlba]
    exact ⟨(decide_eq_true hlba).symm, hsent.trans hsame, hmedium, fun _ => ⟨rfl, rfl⟩⟩
  · rw [if_pos (not_not.mp hlba)]
    exact ⟨(decide_eq_false hlba).symm, hsent.trans hsame, hmedium, fun hc => absurd hc hlba⟩

end InaneOS.Drivers
