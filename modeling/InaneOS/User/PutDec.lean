import InaneOS.User.Grammar
import Mathlib.Data.List.Induction

/-!
# Printing a result: `put_dec` of `user/calc.c`

`put_dec` collects the digits of the magnitude in a buffer of 20 bytes, the last digit
first, and writes them backwards. The magnitude of a negative number is worked out as an
`unsigned long`, so `-2 ^ 63` has one, too. Every store is checked: nothing is returned
if the code would leave the buffer.

What is written is the one canonical numeral of the number (`Canonical`,
`canonical_unique`), and `expr_eval` reads it back (`putDec_reads_back`).
-/

namespace InaneOS.User

/-- `while (u) { tmp[i++] = '0' + (u % 10); u /= 10; }` with `n` of the 20 places left. -/
def putLoop : Nat → Nat → List UInt8 → Option (List UInt8)
  | 0, u, tmp => if u = 0 then some tmp else none
  | n + 1, u, tmp =>
    if u = 0 then some tmp else putLoop n (u / 10) (tmp ++ [UInt8.ofNat (48 + u % 10)])

/-- The sign `put_dec` writes. -/
def sign (z : Int) : List UInt8 := if z < 0 then [45] else []

/-- `put_dec(v)`: all that it writes. -/
def putDec (v : BitVec 64) : Option (List UInt8) := do
  let u := if v.toInt < 0 then -(v + 1) + 1 else v
  let tmp := if u = 0 then [48] else []
  let tmp ← putLoop (20 - tmp.length) u.toNat tmp
  some (sign v.toInt ++ tmp.reverse ++ [10])

/-! ## Numerals -/

/-- The digits `ds` write the number `n` without a leading zero. -/
structure Canonical (n : Nat) (ds : List UInt8) : Prop where
  ne : ds ≠ []
  digits : ∀ d ∈ ds, isDigit d = true
  value : decimal ds = n
  lead : ds.head? = some 48 → ds = [48]

/-- Digits that do not start with 0; for the number 0 there are none. -/
structure Plain (ds : List UInt8) : Prop where
  digits : ∀ d ∈ ds, isDigit d = true
  lead : ds.head? ≠ some 48

theorem decimal_concat (ds : List UInt8) (d : UInt8) :
    decimal (ds ++ [d]) = decimal ds * 10 + (d.toNat - 48) := by
  unfold decimal
  rw [List.foldl_append]
  rfl

theorem isDigit_iff {d : UInt8} : isDigit d = true ↔ 48 ≤ d.toNat ∧ d.toNat ≤ 57 := by
  rw [isDigit, Bool.and_eq_true, decide_eq_true_iff, decide_eq_true_iff]
  exact Iff.rfl

theorem Plain.front {ds : List UInt8} {d : UInt8} (h : Plain (ds ++ [d])) : Plain ds := by
  refine ⟨fun e he => h.digits e (List.mem_append_left _ he), fun hlead => h.lead ?_⟩
  rw [List.head?_append, hlead]
  rfl

/-- One digit more; the first one must not be 0. -/
theorem Plain.concat {ds : List UInt8} {d : UInt8} (h : Plain ds) (hd : isDigit d = true)
    (h0 : ds = [] → d ≠ 48) : Plain (ds ++ [d]) := by
  refine ⟨fun e he => ?_, ?_⟩
  · rcases List.mem_append.mp he with he | he
    · exact h.digits e he
    · rw [List.mem_singleton.mp he]
      exact hd
  · rw [List.head?_append]
    cases hhead : ds.head? with
    | some e =>
      have hlead := h.lead
      rw [hhead] at hlead
      exact hlead
    | none => exact fun he => h0 (List.head?_eq_none_iff.mp hhead) (Option.some.inj he)

/-- A number that starts with another digit than 0 is not 0. -/
theorem Plain.pos {ds : List UInt8} (hne : ds ≠ []) (h : Plain ds) : 0 < decimal ds := by
  induction ds using List.reverseRecOn with
  | nil => exact absurd rfl hne
  | append_singleton ds d ih =>
    rw [decimal_concat]
    by_cases hnil : ds = []
    · subst hnil
      have hlo := (isDigit_iff.mp (h.digits d (by simp))).1
      have hd : d.toNat ≠ 48 := fun he => h.lead (congrArg some (UInt8.toNat_inj.mp he))
      omega
    · have hpos := ih hnil h.front
      omega

/-- The number determines the digits. -/
theorem plain_unique (xs : List UInt8) : ∀ {ys : List UInt8}, Plain xs → Plain ys →
    decimal xs = decimal ys → xs = ys := by
  induction xs using List.reverseRecOn with
  | nil =>
    intro ys _ hy hv
    by_contra hne
    have hpos := hy.pos (Ne.symm hne)
    rw [← hv] at hpos
    exact Nat.lt_irrefl 0 hpos
  | append_singleton xs d ih =>
    intro ys hx hy hv
    rcases List.eq_nil_or_concat' ys with rfl | ⟨ys, e, rfl⟩
    · have hpos := hx.pos (by simp)
      rw [hv] at hpos
      exact absurd hpos (Nat.lt_irrefl 0)
    · have hd := isDigit_iff.mp (hx.digits d (by simp))
      have he := isDigit_iff.mp (hy.digits e (by simp))
      rw [decimal_concat, decimal_concat] at hv
      have hde : d = e := UInt8.toNat_inj.mp (by omega)
      rw [ih hx.front hy.front (by omega), hde]

/-- A canonical numeral is a 0, or it is plain. -/
theorem Canonical.cases {n : Nat} {ds : List UInt8} (h : Canonical n ds) :
    ds = [48] ∧ n = 0 ∨ Plain ds ∧ n ≠ 0 := by
  by_cases hlead : ds.head? = some 48
  · have hds := h.lead hlead
    have hval := h.value
    rw [hds] at hval
    exact Or.inl ⟨hds, hval.symm⟩
  · have hplain : Plain ds := ⟨h.digits, hlead⟩
    have hpos := hplain.pos h.ne
    rw [h.value] at hpos
    exact Or.inr ⟨hplain, Nat.pos_iff_ne_zero.mp hpos⟩

/-- A number has one canonical numeral. -/
theorem canonical_unique {n : Nat} {xs ys : List UInt8} (hx : Canonical n xs)
    (hy : Canonical n ys) : xs = ys := by
  rcases hx.cases with ⟨rfl, h0⟩ | ⟨hpx, h0⟩
  · rcases hy.cases with ⟨rfl, -⟩ | ⟨-, hne⟩
    · rfl
    · exact absurd h0 hne
  · rcases hy.cases with ⟨-, hz⟩ | ⟨hpy, -⟩
    · exact absurd hz h0
    · exact plain_unique xs hpx hpy (hx.value.trans hy.value.symm)

/-! ## The digits -/

/-- The character of a digit. -/
theorem digit_char (u : Nat) : (UInt8.ofNat (48 + u % 10)).toNat = 48 + u % 10 := by
  rw [UInt8.toNat_ofNat']
  omega

/-- The loop adds the digits of `u`, the last one first, and stays in the buffer. -/
theorem putLoop_eq : ∀ {n u : Nat} (tmp : List UInt8), u < 10 ^ n →
    ∃ ds, putLoop n u tmp = some (tmp ++ ds) ∧ Plain ds.reverse ∧ decimal ds.reverse = u
  | 0, u, tmp, hu => by
    have h0 : u = 0 := by omega
    exact ⟨[], by rw [putLoop, if_pos h0, List.append_nil], ⟨by simp, by simp⟩, h0.symm⟩
  | n + 1, u, tmp, hu => by
    rw [putLoop]
    by_cases h0 : u = 0
    · exact ⟨[], by rw [if_pos h0, List.append_nil], ⟨by simp, by simp⟩, h0.symm⟩
    · have hdiv : u / 10 < 10 ^ n := by
        rw [Nat.div_lt_iff_lt_mul (by omega)]
        rw [Nat.pow_succ] at hu
        exact hu
      have hchar := digit_char u
      obtain ⟨ds, hrun, hplain, hval⟩ := putLoop_eq (tmp ++ [UInt8.ofNat (48 + u % 10)]) hdiv
      refine ⟨UInt8.ofNat (48 + u % 10) :: ds, ?_, ?_, ?_⟩
      · rw [if_neg h0, hrun, List.append_assoc, List.singleton_append]
      · rw [List.reverse_cons]
        refine hplain.concat (isDigit_iff.mpr (by omega)) fun hnil hzero => ?_
        -- the digit is the first one, so it is all of `u`
        rw [hnil] at hval
        have hsmall : u / 10 = 0 := hval.symm
        have h48 : (48 : UInt8).toNat = 48 := rfl
        rw [hzero] at hchar
        omega
      · rw [List.reverse_cons, decimal_concat, hval, hchar]
        omega

/-! ## The round trip -/

/-- The magnitude, as an `unsigned long`. -/
theorem magnitude_toNat (v : BitVec 64) :
    (if v.toInt < 0 then -(v + 1) + 1 else v).toNat = v.toInt.natAbs := by
  have hlt := v.isLt
  have hval := BitVec.toInt_eq_toNat_cond v
  by_cases hneg : v.toInt < 0
  · have hminus : -(v + 1) + 1 = -v := by
      rw [BitVec.neg_add, BitVec.sub_add_cancel]
    rw [if_pos hneg, hminus, BitVec.toNat_neg]
    split at hval <;> omega
  · rw [if_neg hneg]
    split at hval <;> omega

/-- What is written is a canonical numeral, and the digits have their place. -/
theorem putDec_canonical (v : BitVec 64) :
    ∃ ds, putDec v = some (sign v.toInt ++ ds ++ [10]) ∧ Canonical v.toInt.natAbs ds := by
  have hmag := magnitude_toNat v
  unfold putDec
  generalize (if v.toInt < 0 then -(v + 1) + 1 else v) = u at hmag
  rw [← hmag]
  dsimp only
  by_cases h0 : u = 0
  · rw [if_pos h0, h0]
    exact ⟨[48], rfl, ⟨by simp, by simp [isDigit], rfl, fun _ => rfl⟩⟩
  · have hpos : u.toNat ≠ 0 := fun he => h0 (BitVec.eq_of_toNat_eq he)
    have hlt : u.toNat < 10 ^ 20 := Nat.lt_trans u.isLt (by decide)
    obtain ⟨ds, hrun, hplain, hval⟩ := putLoop_eq [] hlt
    rw [if_neg h0]
    refine ⟨ds.reverse, ?_, ⟨fun hnil => ?_, hplain.digits, hval, fun h => absurd h hplain.lead⟩⟩
    · show (putLoop 20 u.toNat [] >>= _) = _
      rw [hrun]
      rfl
    · rw [hnil] at hval
      exact hpos hval.symm

/-- No blanks. -/
def noBlanks : Blanks := ⟨[], by simp⟩

/-- A factor alone is evaluated. -/
theorem exprEval_factor (f : Factor) {z : Int} (hz : f.eval = some z) {n : Nat}
    (hn : 3 * f.text.length + 3 ≤ n) :
    ∃ v : BitVec 64, v.toInt = z ∧ exprEval n f.text true = some (v, true) := by
  have htext : (Expr.mk (.mk f .nil) .nil).text ++ noBlanks.1 = f.text := by
    simp [Expr.text, Term.text, Factors.text, Terms.text, noBlanks]
  have heval : (Expr.mk (.mk f .nil) .nil).eval = some z := by
    rw [Expr.eval, Term.eval, hz]
    rfl
  have hfuel : 3 * ((Expr.mk (.mk f .nil) .nil).text ++ noBlanks.1).length + 3 ≤ n := by
    rw [htext]
    exact hn
  have hread := exprEval_text hfuel
  rw [heval, htext] at hread
  exact hread

/-- A 64-bit number is what is kept of it. -/
theorem wrap_toInt (v : BitVec 64) : wrap v.toInt = v.toInt := by
  have hlo := BitVec.le_toInt v
  have hhi := BitVec.toInt_lt (x := v)
  unfold wrap
  exact Int.bmod_eq_of_le (by omega) (by omega)

/-- **What `put_dec` writes reads back**: for every `v` it stays in its buffer and writes the
canonical numeral of `v` and a newline, and `expr_eval` gives `v` for the numeral. -/
theorem putDec_reads_back (v : BitVec 64) :
    ∃ ds, putDec v = some (sign v.toInt ++ ds ++ [10]) ∧ Canonical v.toInt.natAbs ds ∧
      ∀ fuel ≥ 3 * (sign v.toInt ++ ds).length + 3,
        exprEval fuel (sign v.toInt ++ ds) true = some (v, true) := by
  obtain ⟨ds, hrun, hcan⟩ := putDec_canonical v
  refine ⟨ds, hrun, hcan, fun fuel hfuel => ?_⟩
  let num : Factor := .num noBlanks ⟨ds, hcan.ne, hcan.digits⟩
  have hnum : num.eval = some (wrap v.toInt.natAbs) := by
    rw [← hcan.value]
    rfl
  have hread : ∀ f : Factor, f.text = sign v.toInt ++ ds → f.eval = some v.toInt →
      exprEval fuel (sign v.toInt ++ ds) true = some (v, true) := by
    intro f htext heval
    obtain ⟨w, hw, hev⟩ := exprEval_factor f heval (n := fuel) (by rw [htext]; exact hfuel)
    rw [← htext, hev, BitVec.toInt_inj.mp hw]
  by_cases hneg : v.toInt < 0
  · refine hread (.neg noBlanks num) ?_ ?_
    · rw [sign, if_pos hneg]
      rfl
    · have habs : -(v.toInt.natAbs : Int) = v.toInt := by omega
      rw [Factor.eval, hnum, Option.map_some, wrap, wrap, Int.bmod_neg_bmod, habs]
      exact congrArg some (wrap_toInt v)
  · refine hread num ?_ ?_
    · rw [sign, if_neg hneg]
      rfl
    · have habs : (v.toInt.natAbs : Int) = v.toInt := by omega
      rw [hnum, habs, wrap_toInt]

end InaneOS.User
