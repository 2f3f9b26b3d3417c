import InaneOS.Fs.Nodes
import InaneOS.Kernel.Emit

/-!
# The list of partitions: `SYS_PARTLIST`

A line for each partition, of eight `emit` calls. Whether the text has overflowed is
tested once for each line, so what counts is which of the eight calls overflows first.
After the type of the partition only `emit_str` and `emit_dec` follow, and they leave the
overflow alone. In the index or in the mark behind it (`headText`) the `emit_hex` of the
same line undoes it: the handler writes in front of the buffer and goes on from its start.
-/

namespace InaneOS.Kernel

open InaneOS.Fs

/-- `E_INVAL` -/
def eInval : Int := -22

/-- What `part_scan` leaves: at most `PART_MAX` entries, of 32-bit fields. -/
structure PartTable where
  parts : List Part
  count : parts.length ≤ 4
  wide : ∀ p ∈ parts, p.lba < 2 ^ 32 ∧ p.sectors < 2 ^ 32

/-- `i == fs_mounted_idx() ? "* " : " "` -/
def mark (mounted : Int) (i : Nat) : List UInt8 := if (i : Int) = mounted then [42, 32] else [32]

/-- The index and the mark. -/
def headCalls (mounted : Int) (i : Nat) : List Emit :=
  [.dec (UInt64.ofNat i), .str (mark mounted i)]

/-- The rest of the line: the type, the first sector and the number of sectors. -/
def tailCalls (p : Part) : List Emit :=
  [.hex p.type.toUInt32, .str [32], .dec (UInt64.ofNat p.lba), .str [32],
    .dec (UInt64.ofNat p.sectors), .str [10]]

/-- The calls for one partition. -/
def lineCalls (mounted : Int) (i : Nat) (p : Part) : List Emit := headCalls mounted i ++ tailCalls p

/-- The loop over the partitions, from `i` on. -/
def partLoop (cap : Nat) (mounted : Int) : Nat → List Part → Nat × Out → Nat × Out
  | _, [], st => st
  | i, p :: ps, st =>
    let st := emits cap (lineCalls mounted i p) st
    if st.1 = overflow then st else partLoop cap mounted (i + 1) ps st

/-- `SYS_PARTLIST` for a buffer at the address `buf` with the contents `mem`: the result, and the
buffer afterwards. -/
def sysPartlist (table : PartTable) (mounted : Int) (buf cap : Nat) (mem : Nat → UInt8) :
    Int × Out :=
  if buf = 0 ∨ cap > 512 then (eInval, ⟨mem, []⟩)
  else
    let (pos, out) := partLoop cap mounted 0 table.parts (emitStart mem)
    (if pos = overflow then eInval else pos, out)

/-! ## What it promises -/

/-- The index and the mark of a line. -/
def headText (mounted : Int) (i : Nat) : List UInt8 := decimal i ++ mark mounted i

/-- Two hex digits of the type, the first sector, the number of sectors, and a newline. -/
def tailText (p : Part) : List UInt8 :=
  [hexDigit (p.type.toNat / 16), hexDigit (p.type.toNat % 16)] ++ [32] ++ decimal p.lba ++ [32] ++
    decimal p.sectors ++ [10]

/-- The lines of the partitions `ps`, numbered from `i` on. -/
def listText (mounted : Int) : Nat → List Part → List UInt8
  | _, [] => []
  | i, p :: ps => headText mounted i ++ tailText p ++ listText mounted (i + 1) ps

/-- Only `buf[0..cap)` is written; the text is delivered if it fits, and refused otherwise. -/
structure ListsParts (table : PartTable) (mounted : Int) (buf cap : Nat) (mem : Nat → UInt8) :
    Prop where
  inside : ∀ i ∈ (sysPartlist table mounted buf cap mem).2.stores, i < cap
  exact : (listText mounted 0 table.parts).length ≤ cap →
    (sysPartlist table mounted buf cap mem).1 = (listText mounted 0 table.parts).length ∧
      ∀ (k : Nat) (hk : k < (listText mounted 0 table.parts).length),
        (sysPartlist table mounted buf cap mem).2.mem k = (listText mounted 0 table.parts)[k]
  refused : cap < (listText mounted 0 table.parts).length →
    (sysPartlist table mounted buf cap mem).1 = eInval

/-- The first byte that does not fit into `cap` is in the index or in the mark of a line, when
`n` bytes stand before the lines of `ps`. -/
def EndsInHead (mounted : Int) (cap : Nat) : Nat → Nat → List Part → Prop
  | _, _, [] => False
  | n, i, p :: ps =>
    (n ≤ cap ∧ cap < n + (headText mounted i).length) ∨
      EndsInHead mounted cap (n + (headText mounted i ++ tailText p).length) (i + 1) ps

/-! ## A line -/

theorem head_text (mounted : Int) {i : Nat} (hi : i < 2 ^ 64) :
    textOf (headCalls mounted i) = headText mounted i := by
  have hnum : (UInt64.ofNat i).toNat = i := by rw [UInt64.toNat_ofNat', Nat.mod_eq_of_lt hi]
  simp only [headCalls, headText, textOf, List.flatMap_cons, List.flatMap_nil, Emit.text, hnum,
    List.append_nil]

theorem tail_text {p : Part} (hl : p.lba < 2 ^ 64) (hs : p.sectors < 2 ^ 64) :
    textOf (tailCalls p) = tailText p := by
  have hlba : (UInt64.ofNat p.lba).toNat = p.lba := by
    rw [UInt64.toNat_ofNat', Nat.mod_eq_of_lt hl]
  have hsec : (UInt64.ofNat p.sectors).toNat = p.sectors := by
    rw [UInt64.toNat_ofNat', Nat.mod_eq_of_lt hs]
  have htype : p.type.toUInt32.toNat = p.type.toNat := rfl
  have hdiv : p.type.toNat / 16 % 16 = p.type.toNat / 16 := by
    have := p.type.toNat_lt
    omega
  simp only [tailCalls, tailText, textOf, List.flatMap_cons, List.flatMap_nil, Emit.text, hlba,
    hsec, htype, hdiv, List.append_assoc, List.append_nil]

section Line

variable {cap : Nat} (hcap : cap + 2 < 2 ^ 64) {mounted : Int} {i : Nat} {p : Part}
  {st : Nat × Out} {pre : List UInt8}
include hcap

/-- **A line that does not end in its head** is appended, or the text comes to its end. -/
theorem emits_line (h : At cap st pre)
    (hhead : cap = 0 ∨ pre.length + (textOf (headCalls mounted i)).length ≤ cap) :
    (pre.length + (textOf (lineCalls mounted i p)).length ≤ cap →
      At cap (emits cap (lineCalls mounted i p) st) (pre ++ textOf (lineCalls mounted i p))) ∧
    (cap < pre.length + (textOf (lineCalls mounted i p)).length →
      Over cap (emits cap (lineCalls mounted i p) st)) := by
  rcases hhead with h0 | hhead
  · exact emits_at hcap (Or.inl h0) h
  · have hplain : ∀ v, Emit.hex v ∉ headCalls mounted i := by simp [headCalls]
    have hrest : ∀ v, Emit.hex v ∉ (tailCalls p).tail := by simp [tailCalls]
    -- the type is the only `emit_hex` of a line: no call behind it undoes an overflow
    have hsplit : lineCalls mounted i p =
        headCalls mounted i ++ .hex p.type.toUInt32 :: (tailCalls p).tail := rfl
    have hrun : emits cap (lineCalls mounted i p) st = emits cap (tailCalls p).tail
        (Emit.run cap (.hex p.type.toUInt32) (emits cap (headCalls mounted i) st)) := by
      rw [hsplit, emits_append]
      rfl
    have hat := (emits_at hcap (Or.inr hplain) h).1 hhead
    obtain ⟨hfits, hover⟩ := emit_at hcap (.hex p.type.toUInt32) hat
    rw [hrun, hsplit, textOf_append, textOf_cons, List.length_append, List.length_append]
    rw [List.length_append] at hfits hover
    by_cases hhex : pre.length + (textOf (headCalls mounted i)).length +
        (Emit.text (.hex p.type.toUInt32)).length ≤ cap
    · obtain ⟨hfits', hover'⟩ := emits_at hcap (Or.inr hrest) (hfits hhex)
      rw [List.length_append, List.length_append] at hfits' hover'
      rw [← List.append_assoc, ← List.append_assoc]
      exact ⟨fun hall => hfits' (by omega), fun hgt => hover' (by omega)⟩
    · exact ⟨fun hall => by omega, fun _ => emits_over hcap (Or.inr hrest) (hover (by omega))⟩

/-- **A line that ends in its head** stores in front of the buffer. -/
theorem emits_line_head (h : At cap st pre) (h0 : cap ≠ 0)
    (hhead : cap < pre.length + (textOf (headCalls mounted i)).length) :
    overflow ∈ (emits cap (lineCalls mounted i p) st).2.stores := by
  have hplain : ∀ v, Emit.hex v ∉ headCalls mounted i := by simp [headCalls]
  have hover := (emits_at hcap (Or.inr hplain) h).2 hhead
  obtain ⟨-, hstores⟩ := emit_hex_over h0 p.type.toUInt32 hover
  have hrun : emits cap (lineCalls mounted i p) st = emits cap (tailCalls p).tail
      (Emit.run cap (.hex p.type.toUInt32) (emits cap (headCalls mounted i) st)) :=
    emits_append cap (headCalls mounted i) (tailCalls p) st
  rw [hrun]
  -- what follows keeps the stores that were made
  refine emits_stores cap _ ?_
  rw [hstores]
  simp

end Line

/-! ## The loop -/

theorem EndsInHead.le {mounted : Int} {cap : Nat} : ∀ {ps : List Part} {n i : Nat},
    EndsInHead mounted cap n i ps → n ≤ cap
  | [], _, _, h => h.elim
  | _ :: _, _, _, h => by
    rcases h with h | h
    · exact h.1
    · exact Nat.le_trans (Nat.le_add_right _ _) h.le

theorem partLoop_stores (cap : Nat) (mounted : Int) : ∀ (ps : List Part) {i k : Nat}
    {st : Nat × Out}, k ∈ st.2.stores → k ∈ (partLoop cap mounted i ps st).2.stores
  | [], _, _, _, h => h
  | p :: ps, i, k, st, h => by
    have hline := emits_stores cap (lineCalls mounted i p) h
    rw [partLoop]
    split
    · exact hline
    · exact partLoop_stores cap mounted ps hline

section Loop

variable {cap : Nat} (hcap : cap + 2 < 2 ^ 64) {mounted : Int}
include hcap

/-- The lines, when none of them ends in its head. -/
theorem partLoop_at : ∀ {ps : List Part} {i : Nat} {st : Nat × Out} {pre : List UInt8},
    At cap st pre → i + ps.length ≤ 4 → (∀ p ∈ ps, p.lba < 2 ^ 32 ∧ p.sectors < 2 ^ 32) →
    (cap = 0 ∨ ¬ EndsInHead mounted cap pre.length i ps) →
    (pre.length + (listText mounted i ps).length ≤ cap →
      At cap (partLoop cap mounted i ps st) (pre ++ listText mounted i ps)) ∧
    (cap < pre.length + (listText mounted i ps).length → Over cap (partLoop cap mounted i ps st))
  | [], i, st, pre, h, _, _, _ => by
    have hle := h.le
    rw [listText, List.append_nil, List.length_nil]
    exact ⟨fun _ => h, fun hlt => by omega⟩
  | p :: ps, i, st, pre, h, hi, hwide, hcond => by
    rw [List.length_cons] at hi
    obtain ⟨hl, hs⟩ := hwide p (by simp)
    have hhead := head_text mounted (i := i) (by omega)
    have hline : textOf (lineCalls mounted i p) = headText mounted i ++ tailText p := by
      rw [lineCalls, textOf_append, hhead, tail_text (by omega) (by omega)]
    have hle := h.le
    obtain ⟨hfits, hover⟩ := emits_line hcap (p := p) h
      (hcond.imp_right fun hno => by
        rw [hhead]
        by_contra hgt
        exact hno (Or.inl ⟨hle, by omega⟩))
    rw [hline] at hfits hover
    rw [listText, List.length_append]
    by_cases hfit : pre.length + (headText mounted i ++ tailText p).length ≤ cap
    -- the line fits, so the test behind it goes on
    · have hat := hfits hfit
      have hpos := hat.pos
      have hle' := hat.le
      have hgo : partLoop cap mounted i (p :: ps) st =
          partLoop cap mounted (i + 1) ps (emits cap (lineCalls mounted i p) st) := by
        rw [partLoop, if_neg]
        unfold overflow
        omega
      have hroom' : i + 1 + ps.length ≤ 4 := by omega
      obtain ⟨ihfits, ihover⟩ := partLoop_at hat hroom'
        (fun q hq => hwide q (List.mem_cons_of_mem _ hq)) (hcond.imp_right fun hno he =>
          hno (Or.inr (by rw [List.length_append] at he; exact he)))
      rw [List.length_append] at ihfits ihover
      rw [hgo, ← List.append_assoc]
      exact ⟨fun hall => ihfits (by omega), fun hgt => ihover (by omega)⟩
    · have hend := hover (by omega)
      refine ⟨fun hall => by omega, fun _ => ?_⟩
      rw [partLoop, if_pos hend.pos]
      exact hend

/-- The lines, when one of them ends in its head. -/
theorem partLoop_head (h0 : cap ≠ 0) : ∀ {ps : List Part} {i : Nat} {st : Nat × Out}
    {pre : List UInt8}, At cap st pre → i + ps.length ≤ 4 →
    (∀ p ∈ ps, p.lba < 2 ^ 32 ∧ p.sectors < 2 ^ 32) → EndsInHead mounted cap pre.length i ps →
    overflow ∈ (partLoop cap mounted i ps st).2.stores
  | [], _, _, _, _, _, _, he => he.elim
  | p :: ps, i, st, pre, h, hi, hwide, he => by
    rw [List.length_cons] at hi
    obtain ⟨hl, hs⟩ := hwide p (by simp)
    have hhead := head_text mounted (i := i) (by omega)
    rcases he with hhere | hlater
    · have hstores := emits_line_head hcap (p := p) h h0 (by rw [hhead]; exact hhere.2)
      rw [partLoop]
      split
      · exact hstores
      · exact partLoop_stores cap mounted ps hstores
    · have hline : textOf (lineCalls mounted i p) = headText mounted i ++ tailText p := by
        rw [lineCalls, textOf_append, hhead, tail_text (by omega) (by omega)]
      have hfit := hlater.le
      have hat := (emits_line hcap (p := p) h (Or.inr (by
        rw [hhead]
        rw [List.length_append] at hfit
        omega))).1 (by rw [hline]; exact hfit)
      have hpos := hat.pos
      have hle := hat.le
      rw [hline] at hat
      rw [partLoop, if_neg (by unfold overflow; omega)]
      exact partLoop_head h0 hat (by omega) (fun q hq => hwide q (List.mem_cons_of_mem _ hq))
        (by rw [List.length_append]; exact hlater)

end Loop

/-! ## The handler -/

section Handler

variable (table : PartTable) (mounted : Int) {buf cap : Nat} (mem : Nat → UInt8)

theorem sysPartlist_eq (hbuf : buf ≠ 0) (hcap : cap ≤ 512) :
    sysPartlist table mounted buf cap mem =
      (if (partLoop cap mounted 0 table.parts (emitStart mem)).1 = overflow then eInval
        else (partLoop cap mounted 0 table.parts (emitStart mem)).1,
        (partLoop cap mounted 0 table.parts (emitStart mem)).2) :=
  if_neg (not_or.mpr ⟨hbuf, by omega⟩)

theorem emitStart_at (cap : Nat) : At cap (emitStart mem) [] :=
  ⟨rfl, Nat.zero_le _, fun k hk => absurd hk (Nat.not_lt_zero k), fun _ hi =>
    absurd hi List.not_mem_nil⟩

/-- The list of partitions is bounded and exact unless the text ends in the head of a line. -/
theorem listsParts_iff (hbuf : buf ≠ 0) (hcap : cap ≤ 512) :
    ListsParts table mounted buf cap mem ↔ cap = 0 ∨ ¬ EndsInHead mounted cap 0 0 table.parts := by
  have hrun := sysPartlist_eq table mounted mem hbuf hcap
  have hcount := table.count
  have hcap' : cap + 2 < 2 ^ 64 := by omega
  constructor
  · intro h
    by_contra hno
    obtain ⟨h0, he⟩ := not_or.mp hno
    have hstores := partLoop_head hcap' h0 (emitStart_at mem cap) (by omega) table.wide
      (not_not.mp he)
    have hlt := h.inside overflow (by rw [hrun]; exact hstores)
    unfold overflow at hlt
    omega
  · intro hcond
    obtain ⟨hfits, hover⟩ := partLoop_at hcap' (emitStart_at mem cap) (by omega) table.wide hcond
    rw [List.length_nil, Nat.zero_add] at hfits hover
    rw [List.nil_append] at hfits
    by_cases hle : (listText mounted 0 table.parts).length ≤ cap
    · have hat := hfits hle
      have hpos := hat.pos
      refine ⟨fun i hi => hat.inside i (by rw [hrun] at hi; exact hi),
        fun _ => ⟨?_, fun k hk => ?_⟩,
        fun hgt => absurd hle (by omega)⟩
      · rw [hrun]
        dsimp only
        rw [if_neg (by unfold overflow; omega), hpos]
      · rw [hrun]
        exact hat.text k hk
    · have hend := hover (by omega)
      refine ⟨fun i hi => hend.inside i (by rw [hrun] at hi; exact hi), fun hfit => absurd hfit hle,
        fun _ => ?_⟩
      rw [hrun]
      exact if_pos hend.pos

end Handler

/-- **Partition listing**: `SYS_PARTLIST` is bounded and exact unless the first byte that does not
fit is in the index or the mark of a line; and an overflow stays in exactly the sequences of calls
in which no `emit_hex` follows it. -/
theorem partlist_iff (table : PartTable) (mounted : Int) (buf cap : Nat) (mem : Nat → UInt8)
    (es : List Emit) :
    (buf ≠ 0 → cap ≤ 512 → (ListsParts table mounted buf cap mem ↔
      cap = 0 ∨ ¬ EndsInHead mounted cap 0 0 table.parts)) ∧
    (cap + 2 < 2 ^ 64 → (OverflowStays cap es mem ↔ cap = 0 ∨ HexFits cap es)) :=
  ⟨fun hbuf hcap => listsParts_iff table mounted mem hbuf hcap,
    fun hcap => overflowStays_iff hcap es mem⟩

/-- A disk with one partition. -/
def onePart : PartTable := ⟨[⟨0x0C, 1, 49⟩], by decide, by decide⟩

/-- There is room for its line. -/
theorem partlist_iff_onePart : ListsParts onePart (-1) 0x1000 64 (fun _ => 0) ∧
    OverflowStays 64 [.hex 0, .str [10]] fun _ => 0 := by
  have hboth := partlist_iff onePart (-1) 0x1000 64 (fun _ => 0) [.hex 0, .str [10]]
  refine ⟨(hboth.1 (by decide) (by decide)).mpr (Or.inr fun h => ?_),
    (hboth.2 (by decide)).mpr (Or.inr fun before v after heq => ?_)⟩
  · rcases h with h | h
    · exact absurd h.2 (by decide)
    · exact h
  · -- the call stands at the front
    cases before with
    | nil => exact Nat.zero_le 64
    | cons e before =>
      obtain ⟨-, heq⟩ := List.cons.inj heq
      cases before with
      | nil => exact absurd heq (by simp)
      | cons e' before => exact absurd (List.cons.inj heq).2.symm (by simp)

/-- A buffer of one byte: the type is written to the byte in front of the buffer and to its first
byte. -/
theorem partlist_short : (sysPartlist onePart (-1) 0x1000 1 fun _ => 0).2.stores =
      [0, 2 ^ 64 - 1, 0] ∧ ¬ ListsParts onePart (-1) 0x1000 1 (fun _ => 0) ∧
    ¬ OverflowStays 1 [.str [97, 98], .hex 0] fun _ => 0 := by
  have hstores : (sysPartlist onePart (-1) 0x1000 1 fun _ => 0).2.stores = [0, 2 ^ 64 - 1, 0] := by
    decide
  refine ⟨hstores, fun h => ?_, fun h => ?_⟩
  · have hlt := h.inside (2 ^ 64 - 1) (by rw [hstores]; decide)
    exact absurd hlt (by decide)
  · have hrun := h [.str [97, 98]] (.hex 0) [] rfl ⟨[], .str [97, 98], [], rfl, by decide⟩
    exact absurd (congrArg Prod.fst hrun) (by decide)

end InaneOS.Kernel
