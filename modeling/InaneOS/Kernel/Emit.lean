import Mathlib.Data.List.Induction
import Mathlib.Data.Nat.Digits.Defs
import Mathlib.Tactic.Common

/-!
# The `emit` helpers: `kernel/syscall.c`

`emit_str`, `emit_dec` and `emit_hex` append to a user buffer at `pos` and return the
new position, or all ones when the text does not fit. The next helper is handed that
value as its `pos`. In `emit_str` and `emit_dec` it is not below any `cap`, so nothing
is written and it is returned again. In `emit_hex` the sum `pos + 2` wraps to 1: with a
`cap` of at least 1 the digits go to `buf[-1]` and `buf[0]`, and the overflow is
forgotten.

`At` and `Over` are the two states a sequence of calls can be in; `emit_at` and
`emit_over` say what a call does in each, and `overflowStays_iff` puts them together.
-/

namespace InaneOS.Kernel

/-- A user buffer, by the offset from its start modulo `2 ^ 64`, and the offsets stored to. -/
structure Out where
  mem : Nat → UInt8
  stores : List Nat

/-- `buf[pos] = c` -/
def Out.put (o : Out) (pos : Nat) (c : UInt8) : Out :=
  { mem := fun i => if i = pos then c else o.mem i, stores := o.stores ++ [pos] }

/-- `(unsigned long)-1` -/
def overflow : Nat := 2 ^ 64 - 1

/-- The loop that stores: `if (pos >= cap) return -1; buf[pos++] = c;` for one byte after the
other. -/
def emitLoop (cap : Nat) : List UInt8 → Nat → Out → Nat × Out
  | [], pos, o => (pos, o)
  | c :: cs, pos, o =>
    if pos ≥ cap then (overflow, o) else emitLoop cap cs ((pos + 1) % 2 ^ 64) (o.put pos c)

/-- `emit_str(buf, pos, cap, s)` for the bytes of `s` before its NUL. -/
def emitStr (cap : Nat) (s : List UInt8) (pos : Nat) (o : Out) : Nat × Out := emitLoop cap s pos o

/-- `while (v) { tmp[i++] = '0' + (v % 10); v /= 10; }` with `n` of the 20 places left. -/
def decLoop : Nat → Nat → List UInt8 → List UInt8
  | 0, _, tmp => tmp
  | n + 1, v, tmp =>
    if v = 0 then tmp else decLoop n (v / 10) (tmp ++ [UInt8.ofNat (48 + v % 10)])

/-- `emit_dec(buf, pos, cap, v)` -/
def emitDec (cap : Nat) (v : UInt64) (pos : Nat) (o : Out) : Nat × Out :=
  -- the digits are collected from the last one on
  let tmp := if v = 0 then [48] else decLoop 20 v.toNat []
  emitLoop cap tmp.reverse pos o

/-- `"0123456789ABCDEF"[d]` -/
def hexDigit (d : Nat) : UInt8 :=
  [48, 49, 50, 51, 52, 53, 54, 55, 56, 57, 65, 66, 67, 68, 69, 70].getD d 0

/-- `emit_hex(buf, pos, cap, v)` -/
def emitHex (cap : Nat) (v : UInt32) (pos : Nat) (o : Out) : Nat × Out :=
  -- the sum is the one of the code: it wraps when `pos` is all ones
  if (pos + 2) % 2 ^ 64 > cap then (overflow, o)
  else
    let o := o.put pos (hexDigit (v.toNat / 16 % 16))
    let pos := (pos + 1) % 2 ^ 64
    let o := o.put pos (hexDigit (v.toNat % 16))
    ((pos + 1) % 2 ^ 64, o)

/-- A call of one of the helpers. -/
inductive Emit
  | str (s : List UInt8)
  | dec (v : UInt64)
  | hex (v : UInt32)

def Emit.run (cap : Nat) : Emit → Nat × Out → Nat × Out
  | .str s, (pos, o) => emitStr cap s pos o
  | .dec v, (pos, o) => emitDec cap v pos o
  | .hex v, (pos, o) => emitHex cap v pos o

/-- Calls one after the other, each with the position the one before returned. -/
def emits (cap : Nat) (es : List Emit) (st : Nat × Out) : Nat × Out :=
  es.foldl (fun st e => e.run cap st) st

/-! ## The text -/

/-- A number in decimal. -/
def decimal (v : Nat) : List UInt8 :=
  if v = 0 then [48] else (Nat.digits 10 v).reverse.map fun d => UInt8.ofNat (48 + d)

/-- The text a call stands for. -/
def Emit.text : Emit → List UInt8
  | .str s => s
  | .dec v => decimal v.toNat
  | .hex v => [hexDigit (v.toNat / 16 % 16), hexDigit (v.toNat % 16)]

/-- The text of several calls. -/
def textOf (es : List Emit) : List UInt8 := es.flatMap Emit.text

theorem decLoop_eq : ∀ (n v : Nat) (tmp : List UInt8), v < 10 ^ n →
    decLoop n v tmp = tmp ++ (Nat.digits 10 v).map fun d => UInt8.ofNat (48 + d)
  | 0, v, tmp, hv => by
    have h0 : v = 0 := by omega
    rw [h0, Nat.digits_zero, decLoop]
    simp
  | n + 1, v, tmp, hv => by
    rw [decLoop]
    by_cases h0 : v = 0
    · rw [if_pos h0, h0, Nat.digits_zero, List.map_nil, List.append_nil]
    · have hdiv : v / 10 < 10 ^ n := by
        rw [Nat.div_lt_iff_lt_mul (by omega)]
        rw [Nat.pow_succ] at hv
        exact hv
      rw [if_neg h0, decLoop_eq n _ _ hdiv, Nat.digits_def' (by omega) (Nat.pos_of_ne_zero h0),
        List.map_cons, List.append_assoc, List.singleton_append]

/-- The digits come out in the right order. -/
theorem emitDec_eq (cap : Nat) (v : UInt64) (pos : Nat) (o : Out) :
    emitDec cap v pos o = emitLoop cap (decimal v.toNat) pos o := by
  have hlt : v.toNat < 10 ^ 20 := Nat.lt_trans v.toNat_lt (by decide)
  unfold emitDec decimal
  by_cases h0 : v = 0
  · rw [if_pos h0, h0, if_pos (by decide)]
    rfl
  · have hne : v.toNat ≠ 0 := fun he => h0 (UInt64.toNat_inj.mp he)
    rw [if_neg h0, if_neg hne, decLoop_eq 20 _ _ hlt, List.nil_append]
    dsimp only
    rw [← List.map_reverse]

theorem textOf_append (es es' : List Emit) : textOf (es ++ es') = textOf es ++ textOf es' :=
  List.flatMap_append

theorem textOf_cons (e : Emit) (es : List Emit) : textOf (e :: es) = e.text ++ textOf es := rfl

/-- A prefix has a shorter text. -/
theorem textOf_prefix_le (before after : List Emit) :
    (textOf before).length ≤ (textOf (before ++ after)).length := by
  rw [textOf_append, List.length_append]
  exact Nat.le_add_right _ _

theorem emits_append (cap : Nat) (es es' : List Emit) (st : Nat × Out) :
    emits cap (es ++ es') st = emits cap es' (emits cap es st) := List.foldl_append

/-! ## The two states -/

/-- Everything has gone well so far: the text `pre` is in the buffer. -/
structure At (cap : Nat) (st : Nat × Out) (pre : List UInt8) : Prop where
  pos : st.1 = pre.length
  le : pre.length ≤ cap
  text : ∀ (k : Nat) (hk : k < pre.length), st.2.mem k = pre[k]
  inside : ∀ i ∈ st.2.stores, i < cap

/-- The text has come to its end before. -/
structure Over (cap : Nat) (st : Nat × Out) : Prop where
  pos : st.1 = overflow
  inside : ∀ i ∈ st.2.stores, i < cap

section

variable {cap : Nat} (hcap : cap + 2 < 2 ^ 64)
include hcap

/-- One byte. -/
theorem At.put {st : Nat × Out} {pre : List UInt8} (h : At cap st pre) (hlt : pre.length < cap)
    (c : UInt8) : At cap ((st.1 + 1) % 2 ^ 64, st.2.put st.1 c) (pre ++ [c]) := by
  have hpos := h.pos
  have hlen : (pre ++ [c]).length = pre.length + 1 := by simp
  refine ⟨?_, by rw [hlen]; exact hlt, fun k hk => ?_, fun i hi => ?_⟩
  · rw [hpos, hlen, Nat.mod_eq_of_lt (by omega)]
  · show (if k = st.1 then c else st.2.mem k) = (pre ++ [c])[k]
    rw [hlen] at hk
    by_cases hend : k = pre.length
    · subst hend
      rw [if_pos hpos.symm, List.getElem_concat_length rfl]
    · have hk' : k < pre.length := by omega
      rw [if_neg (by omega), List.getElem_append_left hk', h.text k hk']
  · rcases List.mem_append.mp hi with hi | hi
    · exact h.inside i hi
    · rw [List.mem_singleton.mp hi, hpos]
      exact hlt

theorem emitLoop_at : ∀ (cs : List UInt8) {st : Nat × Out} {pre : List UInt8}, At cap st pre →
    (pre.length + cs.length ≤ cap → At cap (emitLoop cap cs st.1 st.2) (pre ++ cs)) ∧
      (cap < pre.length + cs.length → Over cap (emitLoop cap cs st.1 st.2))
  | [], st, pre, h => by
    have hle := h.le
    rw [List.append_nil, List.length_nil]
    exact ⟨fun _ => h, fun hlt => by omega⟩
  | c :: cs, st, pre, h => by
    have hpos := h.pos
    rw [List.length_cons, emitLoop]
    by_cases hlt : pre.length < cap
    · have hput := h.put hcap hlt c
      obtain ⟨hfits, hover⟩ := emitLoop_at cs hput
      rw [List.length_append, List.length_singleton, List.append_assoc, List.singleton_append]
        at hfits
      rw [List.length_append, List.length_singleton] at hover
      rw [if_neg (by omega)]
      exact ⟨fun hle => hfits (by omega), fun hgt => hover (by omega)⟩
    · rw [if_pos (by omega)]
      exact ⟨fun hle => by omega, fun _ => ⟨rfl, h.inside⟩⟩

/-- **A call while all goes well** appends its text, or the text has come to its end. -/
theorem emit_at (e : Emit) {st : Nat × Out} {pre : List UInt8} (h : At cap st pre) :
    (pre.length + e.text.length ≤ cap → At cap (e.run cap st) (pre ++ e.text)) ∧
      (cap < pre.length + e.text.length → Over cap (e.run cap st)) := by
  cases e with
  | str s => exact emitLoop_at hcap s h
  | dec v =>
    have hrun : Emit.run cap (.dec v) st = emitLoop cap (decimal v.toNat) st.1 st.2 :=
      emitDec_eq cap v st.1 st.2
    rw [hrun]
    exact emitLoop_at hcap (decimal v.toNat) h
  | hex v =>
    have hle := h.le
    have hpos := h.pos
    have hmod : (st.1 + 2) % 2 ^ 64 = pre.length + 2 := by
      rw [hpos, Nat.mod_eq_of_lt (by omega)]
    show (pre.length + 2 ≤ cap → At cap (emitHex cap v st.1 st.2) (pre ++ [_, _])) ∧
      (cap < pre.length + 2 → Over cap (emitHex cap v st.1 st.2))
    unfold emitHex
    rw [hmod]
    -- while all goes well the sum does not wrap, and the test is the right one
    by_cases hfits : pre.length + 2 ≤ cap
    · rw [if_neg (by omega)]
      refine ⟨fun _ => ?_, fun hgt => by omega⟩
      have h1 := h.put hcap (by omega) (hexDigit (v.toNat / 16 % 16))
      have h2 := h1.put hcap (by rw [List.length_append, List.length_singleton]; omega)
        (hexDigit (v.toNat % 16))
      rw [List.append_assoc] at h2
      exact h2
    · rw [if_pos (by omega)]
      exact ⟨fun hno => absurd hno hfits, fun _ => ⟨rfl, h.inside⟩⟩

/-- **A call after the end** does nothing and returns all ones again, unless it is `emit_hex` and
`cap` is not 0. -/
theorem emit_over {e : Emit} (he : cap = 0 ∨ ∀ v, e ≠ .hex v) {st : Nat × Out}
    (h : Over cap st) : e.run cap st = (overflow, st.2) := by
  have hpos := h.pos
  have hge : ¬ overflow < cap := by
    unfold overflow
    omega
  have hloop : ∀ cs, emitLoop cap cs st.1 st.2 = (overflow, st.2) := by
    intro cs
    cases cs with
    | nil => rw [emitLoop, hpos]
    | cons c cs => rw [emitLoop, if_pos (by omega)]
  cases e with
  | str s => exact hloop s
  | dec v => exact (emitDec_eq cap v st.1 st.2).trans (hloop _)
  | hex v =>
    rcases he with h0 | hno
    · show emitHex cap v st.1 st.2 = _
      rw [emitHex, hpos, h0, if_pos (by decide)]
    · exact absurd rfl (hno v)

end

/-- `emit_hex` after the end stores in front of the buffer. -/
theorem emit_hex_over {cap : Nat} (h0 : cap ≠ 0) (v : UInt32) {st : Nat × Out} (h : Over cap st) :
    (Emit.run cap (.hex v) st).1 = 1 ∧ (Emit.run cap (.hex v) st).2.stores =
      st.2.stores ++ [overflow] ++ [0] := by
  show (emitHex cap v st.1 st.2).1 = 1 ∧ (emitHex cap v st.1 st.2).2.stores = _
  have hwrap : ¬ (overflow + 2) % 2 ^ 64 > cap := by
    have : (overflow + 2) % 2 ^ 64 = 1 := by decide
    omega
  rw [emitHex, h.pos, if_neg hwrap]
  exact ⟨rfl, rfl⟩

/-- Nothing that was stored to is forgotten. -/
theorem emit_stores (cap : Nat) (e : Emit) (st : Nat × Out) {i : Nat} (hi : i ∈ st.2.stores) :
    i ∈ (e.run cap st).2.stores := by
  have hput : ∀ {o : Out} {pos : Nat} {c : UInt8}, i ∈ o.stores → i ∈ (o.put pos c).stores :=
    fun h => List.mem_append_left _ h
  have hloop : ∀ (cs : List UInt8) {pos : Nat} {o : Out}, i ∈ o.stores →
      i ∈ (emitLoop cap cs pos o).2.stores := by
    intro cs
    induction cs with
    | nil => exact fun h => h
    | cons c cs ih =>
      intro pos o h
      rw [emitLoop]
      split
      · exact h
      · exact ih (hput h)
  cases e with
  | str s => exact hloop s hi
  | dec v => exact hloop _ hi
  | hex v =>
    show i ∈ (emitHex cap v st.1 st.2).2.stores
    unfold emitHex
    split
    · exact hi
    · exact hput (hput hi)

theorem emits_stores (cap : Nat) (es : List Emit) : ∀ {st : Nat × Out} {i : Nat},
    i ∈ st.2.stores → i ∈ (emits cap es st).2.stores := by
  induction es with
  | nil => exact fun h => h
  | cons e es ih => exact fun h => ih (emit_stores cap e _ h)

/-! ## Sequences of calls -/

section

variable {cap : Nat} (hcap : cap + 2 < 2 ^ 64)
include hcap

/-- Calls after the end, without an `emit_hex` among them. -/
theorem emits_over : ∀ {es : List Emit} {st : Nat × Out}, (cap = 0 ∨ ∀ v, .hex v ∉ es) →
    Over cap st → Over cap (emits cap es st)
  | [], _, _, h => h
  | e :: es, st, hes, h => by
    have hrun := emit_over hcap (e := e) (hes.imp_right fun hno v he => hno v (by simp [he])) h
    have hcons : emits cap (e :: es) st = emits cap es (overflow, st.2) := by
      rw [← hrun]
      rfl
    rw [hcons]
    exact emits_over (hes.imp_right fun hno v hm => hno v (List.mem_cons_of_mem _ hm))
      ⟨rfl, h.inside⟩

/-- Calls without an `emit_hex` among them append their text, or the text comes to its end. -/
theorem emits_at : ∀ {es : List Emit} {st : Nat × Out} {pre : List UInt8},
    (cap = 0 ∨ ∀ v, .hex v ∉ es) → At cap st pre →
    (pre.length + (textOf es).length ≤ cap → At cap (emits cap es st) (pre ++ textOf es)) ∧
      (cap < pre.length + (textOf es).length → Over cap (emits cap es st))
  | [], st, pre, _, h => by
    have hle := h.le
    show (pre.length + 0 ≤ cap → At cap st (pre ++ [])) ∧ (cap < pre.length + 0 → Over cap st)
    rw [List.append_nil]
    exact ⟨fun _ => h, fun hlt => by omega⟩
  | e :: es, st, pre, hes, h => by
    obtain ⟨hfits, hover⟩ := emit_at hcap e h
    have hes' : cap = 0 ∨ ∀ v, .hex v ∉ es :=
      hes.imp_right fun hno v hm => hno v (List.mem_cons_of_mem _ hm)
    have hcons : emits cap (e :: es) st = emits cap es (e.run cap st) := rfl
    rw [hcons, textOf_cons, List.length_append]
    by_cases hle : pre.length + e.text.length ≤ cap
    · obtain ⟨ihfits, ihover⟩ := emits_at hes' (hfits hle)
      rw [List.length_append] at ihfits ihover
      rw [← List.append_assoc]
      exact ⟨fun hall => ihfits (by omega), fun hgt => ihover (by omega)⟩
    · exact ⟨fun hall => by omega, fun _ => emits_over hcap hes' (hover (by omega))⟩

end

/-- The first position, in a buffer to which nothing has been stored. -/
def emitStart (mem : Nat → UInt8) : Nat × Out := (0, ⟨mem, []⟩)

/-- One of the calls `es` has overflowed. -/
def Overflowed (cap : Nat) (es : List Emit) (mem : Nat → UInt8) : Prop :=
  ∃ before e after, es = before ++ e :: after ∧
    (emits cap (before ++ [e]) (emitStart mem)).1 = overflow

/-- Once one call has overflowed, all later calls return -1 and write nothing. -/
def OverflowStays (cap : Nat) (es : List Emit) (mem : Nat → UInt8) : Prop :=
  ∀ before e after, es = before ++ e :: after → Overflowed cap before mem →
    e.run cap (emits cap before (emitStart mem)) =
      (overflow, (emits cap before (emitStart mem)).2)

/-- No `emit_hex` comes after text that does not fit. -/
def HexFits (cap : Nat) (es : List Emit) : Prop :=
  ∀ before v after, es = before ++ .hex v :: after → (textOf before).length ≤ cap

/-- What the calls `es` have come to. -/
structure EmitSpec (cap : Nat) (es : List Emit) (mem : Nat → UInt8) : Prop where
  fits : (textOf es).length ≤ cap → At cap (emits cap es (emitStart mem)) (textOf es)
  past : cap < (textOf es).length → Over cap (emits cap es (emitStart mem))

theorem emitSpec_nil (cap : Nat) (mem : Nat → UInt8) : EmitSpec cap [] mem :=
  ⟨fun h => ⟨rfl, h, fun k hk => absurd hk (Nat.not_lt_zero k), fun _ hi => by
    exact absurd hi List.not_mem_nil⟩, fun h => absurd h (Nat.not_lt_zero cap)⟩

section

variable {cap : Nat} (hcap : cap + 2 < 2 ^ 64) {es : List Emit} {mem : Nat → UInt8}
include hcap

/-- One more call. -/
theorem EmitSpec.step (h : EmitSpec cap es mem) {e : Emit}
    (he : cap < (textOf es).length → e.run cap (emits cap es (emitStart mem)) =
      (overflow, (emits cap es (emitStart mem)).2)) : EmitSpec cap (es ++ [e]) mem := by
  have htext : textOf (es ++ [e]) = textOf es ++ e.text := by
    rw [textOf_append, textOf_cons]
    simp [textOf]
  have hrun : emits cap (es ++ [e]) (emitStart mem) = e.run cap (emits cap es (emitStart mem)) :=
    emits_append cap es [e] _
  refine ⟨fun hle => ?_, fun hgt => ?_⟩
  · rw [htext, List.length_append] at hle
    rw [hrun, htext]
    exact (emit_at hcap e (h.fits (by omega))).1 (by omega)
  · rw [htext, List.length_append] at hgt
    rw [hrun]
    by_cases hover : cap < (textOf es).length
    · rw [he hover]
      exact ⟨rfl, (h.past hover).inside⟩
    · exact (emit_at hcap e (h.fits (by omega))).2 hgt

/-- A call that has overflowed went past the end. -/
theorem EmitSpec.not_overflow (h : EmitSpec cap es mem)
    (hpos : (emits cap es (emitStart mem)).1 = overflow) : cap < (textOf es).length := by
  by_contra hle
  have hat := h.fits (by omega)
  have hle' := hat.le
  rw [hat.pos] at hpos
  unfold overflow at hpos
  omega

theorem emitSpec_of_hexFits (mem : Nat → UInt8) : ∀ es : List Emit, cap = 0 ∨ HexFits cap es →
    EmitSpec cap es mem := by
  intro es
  induction es using List.reverseRecOn with
  | nil => exact fun _ => emitSpec_nil cap mem
  | append_singleton es e ih =>
    intro hcond
    have hspec := ih (hcond.imp_right fun hf before v after heq =>
      hf before v (after ++ [e]) (by rw [heq, List.append_assoc]; rfl))
    refine hspec.step hcap fun hgt => emit_over hcap ?_ (hspec.past hgt)
    refine hcond.imp_right fun hf v he => ?_
    have hle := hf es v [] (by rw [he])
    omega

theorem emitSpec_of_stays (mem : Nat → UInt8) : ∀ es : List Emit, OverflowStays cap es mem →
    EmitSpec cap es mem ∧ (cap < (textOf es).length → Overflowed cap es mem) := by
  intro es
  induction es using List.reverseRecOn with
  | nil => exact fun _ => ⟨emitSpec_nil cap mem, fun h => absurd h (Nat.not_lt_zero cap)⟩
  | append_singleton es e ih =>
    intro hstays
    obtain ⟨hspec, hover⟩ := ih fun before x after heq =>
      hstays before x (after ++ [e]) (by rw [heq, List.append_assoc]; rfl)
    have hspec' := hspec.step hcap fun hgt => hstays es e [] rfl (hover hgt)
    exact ⟨hspec', fun hgt => ⟨es, e, [], rfl, (hspec'.past hgt).pos⟩⟩

/-- **An overflow stays** in the sequences in which no `emit_hex` comes after it, or with no room
at all, and in no other. -/
theorem overflowStays_iff (es : List Emit) (mem : Nat → UInt8) :
    OverflowStays cap es mem ↔ cap = 0 ∨ HexFits cap es := by
  constructor
  · intro hstays
    by_contra hno
    obtain ⟨h0, hhex⟩ := not_or.mp hno
    unfold HexFits at hhex
    push Not at hhex
    obtain ⟨before, v, after, heq, hgt⟩ := hhex
    have hbefore : OverflowStays cap before mem := fun xs x ys hxs =>
      hstays xs x (ys ++ .hex v :: after) (by rw [heq, hxs, List.append_assoc]; rfl)
    obtain ⟨hspec, hover⟩ := emitSpec_of_stays hcap mem before hbefore
    have hrun := hstays before (.hex v) after heq (hover hgt)
    obtain ⟨hone, -⟩ := emit_hex_over h0 v (hspec.past hgt)
    rw [hrun] at hone
    exact absurd hone (show overflow ≠ 1 by decide)
  · intro hcond before e after heq hov
    obtain ⟨xs, x, ys, hxs, hpos⟩ := hov
    have hspec : ∀ p q, es = p ++ q → EmitSpec cap p mem := fun p q hpq =>
      emitSpec_of_hexFits hcap mem p (hcond.imp_right fun hf b v a hb =>
        hf b v (a ++ q) (by rw [hpq, hb, List.append_assoc]; rfl))
    have hx := hspec (xs ++ [x]) (ys ++ e :: after) (by
      rw [heq, hxs, List.append_assoc, List.append_assoc]
      rfl)
    have hgt := hx.not_overflow hcap hpos
    have hle : (textOf (xs ++ [x])).length ≤ (textOf before).length := by
      have hsplit : before = (xs ++ [x]) ++ ys := by
        rw [hxs, List.append_assoc]
        rfl
      rw [hsplit]
      exact textOf_prefix_le (xs ++ [x]) ys
    refine emit_over hcap (hcond.imp_right fun hf v he => ?_)
      ((hspec before (e :: after) heq).past (by omega))
    have hfits := hf before v after (by rw [heq, he])
    omega

end

end InaneOS.Kernel
