import Mathlib.Tactic.Ring
import InaneOS.User.Expr

/-!
# What the evaluator accepts and computes

The grammar is a family of syntax trees that keep their blanks and digits, so a tree
has one text (`Expr.text`); a string is derived from the grammar when it is the text of
a tree with blanks behind it. A tree has one value (`Expr.eval`), worked out from left
to right in integers that wrap at 64 bits, or none if a divisor is 0.

- `parseExpr_sound` and its companions: the parser returns, and when the flag is still
  set it has read the text of a tree and holds its value. Induction on the fuel.
- `parseExpr_text` and its companions: on the text of a tree, with something behind it
  that does not continue it, the parser reads just that text, and ends with the flag set
  exactly when the tree has a value. Induction on the tree.
-/

namespace InaneOS.User

/-- Spaces and tabs. -/
abbrev Blanks : Type := { b : List UInt8 // ∀ c ∈ b, isBlank c = true }

abbrev Digits : Type := { ds : List UInt8 // ds ≠ [] ∧ ∀ d ∈ ds, isDigit d = true }

inductive MulOp
  | mul
  | div
  | mod

inductive AddOp
  | plus
  | minus

mutual

inductive Factor
  | paren (b : Blanks) (e : Expr) (c : Blanks)
  | neg (b : Blanks) (f : Factor)
  | num (b : Blanks) (ds : Digits)

inductive Term
  | mk (f : Factor) (fs : Factors)

/-- `(('*'|'/'|'%') factor)*` -/
inductive Factors
  | nil
  | cons (b : Blanks) (op : MulOp) (f : Factor) (fs : Factors)

inductive Expr
  | mk (t : Term) (ts : Terms)

/-- `(('+'|'-') term)*` -/
inductive Terms
  | nil
  | cons (b : Blanks) (op : AddOp) (t : Term) (ts : Terms)

end

/-! ## Texts -/

def MulOp.char : MulOp → UInt8
  | mul => 42
  | div => 47
  | mod => 37

def AddOp.char : AddOp → UInt8
  | plus => 43
  | minus => 45

mutual

def Factor.text : Factor → List UInt8
  | .paren b e c => b.1 ++ 40 :: (e.text ++ (c.1 ++ [41]))
  | .neg b f => b.1 ++ 45 :: f.text
  | .num b ds => b.1 ++ ds.1

def Term.text : Term → List UInt8
  | .mk f fs => f.text ++ fs.text

def Factors.text : Factors → List UInt8
  | .nil => []
  | .cons b op f fs => b.1 ++ op.char :: (f.text ++ fs.text)

def Expr.text : Expr → List UInt8
  | .mk t ts => t.text ++ ts.text

def Terms.text : Terms → List UInt8
  | .nil => []
  | .cons b op t ts => b.1 ++ op.char :: (t.text ++ ts.text)

end

/-! ## Values -/

/-- A 64-bit two's complement number is all that is kept of an integer. -/
def wrap (z : Int) : Int := z.bmod (2 ^ 64)

/-- The number written by some digits. -/
def decimal (ds : List UInt8) : Nat := ds.foldl (fun n d => n * 10 + (d.toNat - 48)) 0

/-- Division truncates; a remainder has the sign of the dividend and never overflows. -/
def MulOp.apply : MulOp → Int → Int → Option Int
  | mul, a, b => some (wrap (a * b))
  | div, a, b => if b = 0 then none else some (wrap (a.tdiv b))
  | mod, a, b => if b = 0 then none else some (a.tmod b)

def AddOp.apply : AddOp → Int → Int → Int
  | plus, a, b => wrap (a + b)
  | minus, a, b => wrap (a - b)

mutual

def Factor.eval : Factor → Option Int
  | .paren _ e _ => e.eval
  | .neg _ f => f.eval.map fun z => wrap (-z)
  | .num _ ds => some (wrap (decimal ds.1))

def Term.eval : Term → Option Int
  | .mk f fs => f.eval.bind fun z => fs.eval z

/-- The value of a chain of factors behind something with the value `z`. -/
def Factors.eval : Factors → Int → Option Int
  | .nil, z => some z
  | .cons _ op f fs, z => f.eval.bind fun r => (op.apply z r).bind fun z => fs.eval z

def Expr.eval : Expr → Option Int
  | .mk t ts => t.eval.bind fun z => ts.eval z

def Terms.eval : Terms → Int → Option Int
  | .nil, z => some z
  | .cons _ op t ts, z => t.eval.bind fun r => ts.eval (op.apply z r)

end

/-! ## The machine's arithmetic -/

theorem foldl_digits : ∀ (ds : List UInt8) (n : Nat),
    ds.foldl (fun v d => v * 10 + BitVec.ofNat 64 (d.toNat - 48)) (BitVec.ofNat 64 n) =
      BitVec.ofNat 64 (ds.foldl (fun n d => n * 10 + (d.toNat - 48)) n)
  | [], _ => rfl
  | d :: ds, n => by
    rw [List.foldl_cons, List.foldl_cons, ← foldl_digits ds, BitVec.ofNat_add, BitVec.ofNat_mul]
    rfl

theorem toInt_digits (ds : List UInt8) :
    (ds.foldl (fun v d => v * 10 + BitVec.ofNat 64 (d.toNat - 48)) 0).toInt =
      wrap (decimal ds) := by
  rw [show (0 : BitVec 64) = BitVec.ofNat 64 0 from rfl, foldl_digits, BitVec.toInt_ofNat']
  rfl

theorem toInt_eq_zero {r : BitVec 64} : r.toInt = 0 ↔ r = 0 := by
  rw [← BitVec.toInt_inj]
  rfl

/-- What `parse_term` does to `v` for an operator and a right operand. -/
def MulOp.machine (op : MulOp) (v r : BitVec 64) : Option (BitVec 64) :=
  match op with
  | mul => some (v * r)
  | div => if r = 0 then none else some (v.sdiv r)
  | mod => if r = 0 then none else some (v.srem r)

theorem MulOp.machine_apply (op : MulOp) (v r : BitVec 64) :
    (op.machine v r).map BitVec.toInt = op.apply v.toInt r.toInt := by
  cases op with
  | mul => exact congrArg some (BitVec.toInt_mul v r)
  | div =>
    rw [MulOp.machine, MulOp.apply]
    by_cases hr : r = 0
    · rw [if_pos hr, if_pos (toInt_eq_zero.mpr hr)]
      rfl
    · rw [if_neg hr, if_neg (mt toInt_eq_zero.mp hr)]
      exact congrArg some (BitVec.toInt_sdiv v r)
  | mod =>
    rw [MulOp.machine, MulOp.apply]
    by_cases hr : r = 0
    · rw [if_pos hr, if_pos (toInt_eq_zero.mpr hr)]
      rfl
    · rw [if_neg hr, if_neg (mt toInt_eq_zero.mp hr)]
      exact congrArg some (BitVec.toInt_srem v r)

theorem AddOp.machine_apply (op : AddOp) (v r : BitVec 64) :
    (if op.char = 43 then v + r else v - r).toInt = op.apply v.toInt r.toInt := by
  cases op with
  | plus => exact BitVec.toInt_add v r
  | minus => exact BitVec.toInt_sub

/-- One round of `parse_term` at an operator. -/
theorem termLoop_op {n : Nat} {v : BitVec 64} {s : Scan} {op : MulOp}
    (h : (skip s).peek = op.char) :
    termLoop (n + 1) v s =
      match parseFactor n (skip s).next with
      | none => none
      | some (r, s) =>
        if s.ok = false then some (0, s)
        else
          match op.machine v r with
          | none => termLoop n v s.fail
          | some v => termLoop n v s := by
  rw [termLoop]
  simp only [h]
  cases op with
  | mul => rfl
  | div | mod =>
    rw [if_neg (by decide)]
    cases parseFactor n (skip s).next with
    | none => rfl
    | some p =>
      simp only [MulOp.machine]
      by_cases hr : p.1 = 0
      · rw [if_pos hr, if_pos hr]
        rfl
      · rw [if_neg hr, if_neg hr]
        rfl

/-- One round of `parse_expr` at an operator. -/
theorem exprLoop_op {n : Nat} {v : BitVec 64} {s : Scan} {op : AddOp}
    (h : (skip s).peek = op.char) :
    exprLoop (n + 1) v s =
      match parseTerm n (skip s).next with
      | none => none
      | some (r, s) =>
        if s.ok = false then some (0, s)
        else exprLoop n (if op.char = 43 then v + r else v - r) s := by
  rw [exprLoop]
  simp only [h]
  cases op with
  | plus => rfl
  | minus => rfl

theorem exists_mulOp {c : UInt8} (h : ¬ (c ≠ 42 ∧ c ≠ 47 ∧ c ≠ 37)) :
    ∃ op : MulOp, c = op.char := by
  by_cases h1 : c = 42
  · exact ⟨.mul, h1⟩
  · by_cases h2 : c = 47
    · exact ⟨.div, h2⟩
    · by_cases h3 : c = 37
      · exact ⟨.mod, h3⟩
      · exact absurd ⟨h1, h2, h3⟩ h

theorem exists_addOp {c : UInt8} (h : ¬ (c ≠ 43 ∧ c ≠ 45)) : ∃ op : AddOp, c = op.char := by
  by_cases h1 : c = 43
  · exact ⟨.plus, h1⟩
  · by_cases h2 : c = 45
    · exact ⟨.minus, h2⟩
    · exact absurd ⟨h1, h2⟩ h

/-! ## Soundness -/

/-- The parser returns from `s`, does not move back, and if it leaves the flag set then
the flag was set and `P` holds of the value and the place it stopped at. -/
def Sound (r : Option (BitVec 64 × Scan)) (s : Scan) (P : BitVec 64 → Scan → Prop) : Prop :=
  ∃ v s', r = some (v, s') ∧ s'.pos.length ≤ s.pos.length ∧
    (s'.ok = true → s.ok = true ∧ P v s')

def FactorRead (s : Scan) (v : BitVec 64) (s' : Scan) : Prop :=
  ∃ f : Factor, s.pos = f.text ++ s'.pos ∧ f.eval = some v.toInt

/-- The loops of `parse_term` and `parse_expr` also read the blanks behind. -/
def TermRead (s : Scan) (v : BitVec 64) (s' : Scan) : Prop :=
  ∃ (t : Term) (b : Blanks), s.pos = t.text ++ (b.1 ++ s'.pos) ∧ t.eval = some v.toInt

def FactorsRead (v : BitVec 64) (s : Scan) (w : BitVec 64) (s' : Scan) : Prop :=
  ∃ (fs : Factors) (b : Blanks), s.pos = fs.text ++ (b.1 ++ s'.pos) ∧
    fs.eval v.toInt = some w.toInt

def ExprRead (s : Scan) (v : BitVec 64) (s' : Scan) : Prop :=
  ∃ (e : Expr) (b : Blanks), s.pos = e.text ++ (b.1 ++ s'.pos) ∧ e.eval = some v.toInt

def TermsRead (v : BitVec 64) (s : Scan) (w : BitVec 64) (s' : Scan) : Prop :=
  ∃ (ts : Terms) (b : Blanks), s.pos = ts.text ++ (b.1 ++ s'.pos) ∧
    ts.eval v.toInt = some w.toInt

theorem parseNum_skip (s : Scan) : parseNum (skip s) = parseNum s := by
  unfold parseNum
  rw [skip_skip]

theorem parseNum_sound (s : Scan) : Sound (some (parseNum s)) s (FactorRead s) := by
  obtain ⟨b, hb, hpos⟩ := exists_blanks s
  obtain ⟨ds, rest, hds, hrest, hsplit⟩ := exists_digits (skip s).pos
  have hlen := skip_length s
  unfold parseNum
  simp only [hsplit, digitLoop_digits 0 0 hds hrest]
  rw [hsplit] at hlen
  by_cases hd : ds = []
  · rw [if_pos (by rw [hd]; rfl)]
    refine ⟨_, _, rfl, ?_, fun hok => absurd hok (by simp)⟩
    rw [hd] at hlen
    exact hlen
  · have hk : ¬ (0 + ds.length = 0) := by
      rw [Nat.zero_add]
      exact fun h => hd (List.length_eq_zero_iff.mp h)
    rw [if_neg hk]
    refine ⟨_, _, rfl, ?_, fun hok => ⟨hok, .num ⟨b, hb⟩ ⟨ds, hd, hds⟩, ?_, ?_⟩⟩
    · rw [List.length_append] at hlen
      exact Nat.le_trans (Nat.le_add_left _ _) hlen
    · rw [hpos, hsplit, Factor.text, List.append_assoc]
    · rw [Factor.eval, toInt_digits]

/-- Two lots of blanks in a row are one. -/
def Blanks.append (b c : Blanks) : Blanks :=
  ⟨b.1 ++ c.1, fun x hx => (List.mem_append.mp hx).elim (b.2 x) (c.2 x)⟩

/-- Blanks before a chain of terms belong to it, or to the blanks behind it. -/
theorem Terms.pad (c : Blanks) (ts : Terms) (b : Blanks) : ∃ (ts' : Terms) (b' : Blanks),
    c.1 ++ (ts.text ++ b.1) = ts'.text ++ b'.1 ∧ ∀ z, ts'.eval z = ts.eval z := by
  cases ts with
  | nil => exact ⟨.nil, c.append b, rfl, fun _ => rfl⟩
  | cons d op t ts =>
    refine ⟨.cons (c.append d) op t ts, b, ?_, fun z => by rw [Terms.eval, Terms.eval]⟩
    simp [Terms.text, Blanks.append]

/-- A later call's answer read as an answer to the whole. -/
theorem Sound.after {r : Option (BitVec 64 × Scan)} {s t : Scan} {P Q : BitVec 64 → Scan → Prop}
    (h : Sound r t Q) (hlen : t.pos.length ≤ s.pos.length) (hok : t.ok = true → s.ok = true)
    (hP : t.ok = true → ∀ v s', s'.ok = true → Q v s' → P v s') : Sound r s P := by
  obtain ⟨v, s', hr, hl, hq⟩ := h
  refine ⟨v, s', hr, Nat.le_trans hl hlen, fun hok' => ?_⟩
  obtain ⟨ht, hQ⟩ := hq hok'
  exact ⟨hok ht, hP ht v s' hok' hQ⟩

mutual

theorem parseFactor_sound : ∀ (n : Nat) (s : Scan), 3 * s.pos.length + 1 ≤ n →
    Sound (parseFactor n s) s (FactorRead s)
  | 0, s, hn => by omega
  | n + 1, s, hn => by
    have hlen := skip_length s
    obtain ⟨b, hb, hpos⟩ := exists_blanks s
    rw [parseFactor]
    by_cases h1 : (skip s).peek = 40
    · have hnext := next_length h1 (by decide)
      have hcons := pos_eq_cons h1 (by decide)
      obtain ⟨v, t, hrun, hl, hread⟩ := parseExpr_sound n (skip s).next (by omega)
      have hlt := skip_length t
      simp only [if_pos h1, hrun]
      by_cases h2 : (skip t).peek = 41
      · rw [if_neg (not_not.mpr h2)]
        have hnext2 := next_length h2 (by decide)
        refine ⟨v, _, rfl, by omega, fun hok => ?_⟩
        obtain ⟨hok1, e, c, htext, heval⟩ := hread hok
        obtain ⟨d, hd, hdpos⟩ := exists_blanks t
        refine ⟨hok1, .paren ⟨b, hb⟩ e (c.append ⟨d, hd⟩), ?_, heval⟩
        rw [hpos, hcons, htext, hdpos, pos_eq_cons h2 (by decide)]
        simp [Factor.text, Blanks.append]
      · rw [if_pos h2]
        exact ⟨v, _, rfl, by rw [fail_pos]; omega, fun hok => absurd hok (by simp)⟩
    · simp only [if_neg h1]
      by_cases h2 : (skip s).peek = 45
      · have hnext := next_length h2 (by decide)
        have hcons := pos_eq_cons h2 (by decide)
        obtain ⟨v, t, hrun, hl, hread⟩ := parseFactor_sound n (skip s).next (by omega)
        simp only [if_pos h2, hrun]
        refine ⟨_, t, rfl, by omega, fun hok => ?_⟩
        obtain ⟨hok1, f, htext, heval⟩ := hread hok
        refine ⟨hok1, .neg ⟨b, hb⟩ f, ?_, ?_⟩
        · rw [hpos, hcons, htext]
          simp [Factor.text]
        · rw [Factor.eval, heval, BitVec.toInt_neg]
          rfl
      · rw [if_neg h2]
        exact parseNum_skip s ▸ parseNum_sound s

theorem parseTerm_sound : ∀ (n : Nat) (s : Scan), 3 * s.pos.length + 2 ≤ n →
    Sound (parseTerm n s) s (TermRead s)
  | 0, s, hn => by omega
  | n + 1, s, hn => by
    obtain ⟨v, t, hrun, hl, hread⟩ := parseFactor_sound n s (by omega)
    rw [parseTerm]
    simp only [hrun]
    refine (termLoop_sound n v t (by omega)).after hl (fun hok => (hread hok).1) ?_
    intro hok w s' _ h
    obtain ⟨fs, b, htext, heval⟩ := h
    obtain ⟨-, f, hf, hfe⟩ := hread hok
    refine ⟨.mk f fs, b, ?_, ?_⟩
    · rw [hf, htext, Term.text, List.append_assoc]
    · rw [Term.eval, hfe]
      exact heval

theorem termLoop_sound : ∀ (n : Nat) (v : BitVec 64) (s : Scan), 3 * s.pos.length + 1 ≤ n →
    Sound (termLoop n v s) s (FactorsRead v s)
  | 0, _, s, hn => by omega
  | n + 1, v, s, hn => by
    have hlen := skip_length s
    obtain ⟨b, hb, hpos⟩ := exists_blanks s
    by_cases hop : (skip s).peek ≠ 42 ∧ (skip s).peek ≠ 47 ∧ (skip s).peek ≠ 37
    · rw [termLoop]
      simp only [if_pos hop]
      exact ⟨v, _, rfl, hlen, fun hok => ⟨hok, .nil, ⟨b, hb⟩, hpos, rfl⟩⟩
    · obtain ⟨op, hc⟩ := exists_mulOp hop
      have hc0 : op.char ≠ 0 := by cases op <;> decide
      have hnext := next_length hc hc0
      have hcons := pos_eq_cons hc hc0
      obtain ⟨r, t, hrun, hl, hread⟩ := parseFactor_sound n (skip s).next (by omega)
      rw [termLoop_op hc]
      simp only [hrun]
      by_cases hok : t.ok = false
      · rw [if_pos hok]
        exact ⟨0, t, rfl, by omega, fun h => absurd h (by rw [hok]; simp)⟩
      · rw [if_neg hok]
        obtain ⟨hok1, f, hf, hfe⟩ := hread (by simpa using hok)
        cases hm : op.machine v r with
        | none =>
          -- the flag is cleared and stays so
          refine (termLoop_sound n v t.fail (by rw [fail_pos]; omega)).after
            (by rw [fail_pos]; omega) (fun h => absurd h (by simp)) (fun h => absurd h (by simp))
        | some w =>
          refine (termLoop_sound n w t (by omega)).after (by omega) (fun _ => hok1) ?_
          intro _ x s' _ h
          obtain ⟨fs, c, htext, heval⟩ := h
          have happly := op.machine_apply v r
          rw [hm] at happly
          refine ⟨.cons ⟨b, hb⟩ op f fs, c, ?_, ?_⟩
          · rw [hpos, hcons, hf, htext]
            simp [Factors.text]
          · rw [Factors.eval, hfe, Option.bind_some, ← happly]
            exact heval

theorem parseExpr_sound : ∀ (n : Nat) (s : Scan), 3 * s.pos.length + 3 ≤ n →
    Sound (parseExpr n s) s (ExprRead s)
  | 0, s, hn => by omega
  | n + 1, s, hn => by
    obtain ⟨v, t, hrun, hl, hread⟩ := parseTerm_sound n s (by omega)
    rw [parseExpr]
    simp only [hrun]
    refine (exprLoop_sound n v t (by omega)).after hl (fun hok => (hread hok).1) ?_
    intro hok w s' _ h
    obtain ⟨ts, b, htext, heval⟩ := h
    obtain ⟨-, u, c, hu, hue⟩ := hread hok
    obtain ⟨ts', b', hpad, hsame⟩ := ts.pad c b
    refine ⟨.mk u ts', b', ?_, ?_⟩
    · rw [hu, htext, Expr.text, List.append_assoc, ← List.append_assoc ts'.text, ← hpad]
      simp
    · rw [Expr.eval, hue, Option.bind_some, hsame]
      exact heval

theorem exprLoop_sound : ∀ (n : Nat) (v : BitVec 64) (s : Scan), 3 * s.pos.length + 2 ≤ n →
    Sound (exprLoop n v s) s (TermsRead v s)
  | 0, _, s, hn => by omega
  | n + 1, v, s, hn => by
    have hlen := skip_length s
    obtain ⟨b, hb, hpos⟩ := exists_blanks s
    by_cases hop : (skip s).peek ≠ 43 ∧ (skip s).peek ≠ 45
    · rw [exprLoop]
      simp only [if_pos hop]
      exact ⟨v, _, rfl, hlen, fun hok => ⟨hok, .nil, ⟨b, hb⟩, hpos, rfl⟩⟩
    · obtain ⟨op, hc⟩ := exists_addOp hop
      have hc0 : op.char ≠ 0 := by cases op <;> decide
      have hnext := next_length hc hc0
      have hcons := pos_eq_cons hc hc0
      obtain ⟨r, t, hrun, hl, hread⟩ := parseTerm_sound n (skip s).next (by omega)
      rw [exprLoop_op hc]
      simp only [hrun]
      by_cases hok : t.ok = false
      · rw [if_pos hok]
        exact ⟨0, t, rfl, by omega, fun h => absurd h (by rw [hok]; simp)⟩
      · rw [if_neg hok]
        obtain ⟨hok1, u, c, hu, hue⟩ := hread (by simpa using hok)
        refine (exprLoop_sound n _ t (by omega)).after (by omega) (fun _ => hok1) ?_
        intro _ x s' _ h
        obtain ⟨ts, d, htext, heval⟩ := h
        obtain ⟨ts', d', hpad, hsame⟩ := ts.pad c d
        refine ⟨.cons ⟨b, hb⟩ op u ts', d', ?_, ?_⟩
        · rw [hpos, hcons, hu, htext, Terms.text, List.append_assoc, List.cons_append,
            List.append_assoc, ← List.append_assoc ts'.text, ← hpad]
          simp
        · rw [Terms.eval, hue, Option.bind_some, hsame, ← op.machine_apply]
          exact heval

end

/-! ## Completeness -/

/-- A text with the value `e` was read: the parser stopped at `rest` with the value, or the
flag was cleared. -/
def Reads (r : Option (BitVec 64 × Scan)) (e : Option Int) (rest : List UInt8) : Prop :=
  match e with
  | some z => ∃ v : BitVec 64, v.toInt = z ∧ r = some (v, ⟨rest, true⟩)
  | none => ∃ v s', r = some (v, s') ∧ s'.ok = false

theorem reads_of_failed {r : Option (BitVec 64 × Scan)} {s : Scan}
    {P : BitVec 64 → Scan → Prop} (h : Sound r s P) (hok : s.ok = false) (rest : List UInt8) :
    Reads r none rest := by
  obtain ⟨v, s', hr, -, hs⟩ := h
  refine ⟨v, s', hr, Bool.eq_false_iff.mpr fun hok' => ?_⟩
  rw [(hs hok').1] at hok
  exact absurd hok (by simp)

/-- `rest` does not continue a number. -/
def NumEnds (rest : List UInt8) : Prop := isDigit (rest.headD 0) = false

/-- `rest` does not continue a term. -/
structure TermEnds (rest : List UInt8) : Prop where
  num : NumEnds rest
  op : ∀ op : MulOp, (skip ⟨rest, true⟩).peek ≠ op.char

/-- `rest` does not continue an expression. -/
structure ExprEnds (rest : List UInt8) : Prop extends TermEnds rest where
  addOp : ∀ op : AddOp, (skip ⟨rest, true⟩).peek ≠ op.char

theorem numEnds_blanks (b : Blanks) {c : UInt8} (hc : isDigit c = false) (rest : List UInt8) :
    NumEnds (b.1 ++ c :: rest) := by
  obtain ⟨b, hb⟩ := b
  cases b with
  | nil => exact hc
  | cons d b => exact isDigit_of_isBlank (hb d (by simp))

theorem skip_blanks_cons (b : Blanks) {c : UInt8} (hc : isBlank c = false) (rest : List UInt8)
    (ok : Bool) : skip ⟨b.1 ++ c :: rest, ok⟩ = ⟨c :: rest, ok⟩ := by
  rw [skip_blanks b.2, skip_cons hc]

theorem Factors.numEnds (fs : Factors) {rest : List UInt8} (h : NumEnds rest) :
    NumEnds (fs.text ++ rest) := by
  cases fs with
  | nil => exact h
  | cons b op f fs =>
    rw [Factors.text, List.append_assoc]
    exact numEnds_blanks b (by cases op <;> rfl) _

theorem Terms.termEnds (ts : Terms) {rest : List UInt8} (h : TermEnds rest) :
    TermEnds (ts.text ++ rest) := by
  cases ts with
  | nil => exact h
  | cons b op t ts =>
    rw [Terms.text, List.append_assoc]
    refine ⟨numEnds_blanks b (by cases op <;> rfl) _, fun op' => ?_⟩
    rw [List.cons_append, skip_blanks_cons b (by cases op <;> rfl)]
    show op.char ≠ op'.char
    cases op <;> cases op' <;> decide

theorem exprEnds_paren (c : Blanks) (rest : List UInt8) : ExprEnds (c.1 ++ 41 :: rest) := by
  have hskip := skip_blanks_cons c (show isBlank 41 = false by rfl) rest true
  refine ⟨⟨numEnds_blanks c rfl rest, fun op => ?_⟩, fun op => ?_⟩
  · rw [hskip]
    show 41 ≠ op.char
    cases op <;> decide
  · rw [hskip]
    show 41 ≠ op.char
    cases op <;> decide

theorem skip_all (b : Blanks) (ok : Bool) : skip ⟨b.1, ok⟩ = ⟨[], ok⟩ := by
  have h := @skip_blanks b.1 [] b.2 ok
  rwa [List.append_nil] at h

theorem exprEnds_blanks (b : Blanks) : ExprEnds b.1 := by
  have hskip := skip_all b true
  have hnum : NumEnds b.1 := by
    have h := numEnds_blanks b (show isDigit 0 = false by rfl) []
    obtain ⟨b, hb⟩ := b
    cases b with
    | nil => rfl
    | cons d b => exact h
  refine ⟨⟨hnum, fun op => ?_⟩, fun op => ?_⟩
  · rw [hskip]
    cases op <;> decide
  · rw [hskip]
    cases op <;> decide

/-- A number starts behind its blanks, with a digit. -/
theorem skip_num (b : Blanks) (ds : Digits) (rest : List UInt8) :
    skip ⟨b.1 ++ ds.1 ++ rest, true⟩ = ⟨ds.1 ++ rest, true⟩ ∧
      isDigit ((skip ⟨b.1 ++ ds.1 ++ rest, true⟩).peek) = true := by
  obtain ⟨ds, hne, hds⟩ := ds
  obtain ⟨d, ds, rfl⟩ := List.exists_cons_of_ne_nil hne
  have hd := hds d (by simp)
  have hskip := skip_blanks_cons b (isBlank_of_isDigit hd) (ds ++ rest) true
  rw [← List.cons_append, ← List.append_assoc] at hskip
  refine ⟨hskip, ?_⟩
  rw [hskip]
  exact hd

theorem parseNum_text (b : Blanks) (ds : Digits) {rest : List UInt8} (h : NumEnds rest) :
    Reads (some (parseNum ⟨b.1 ++ ds.1 ++ rest, true⟩)) (some (wrap (decimal ds.1))) rest := by
  have hskip := (skip_num b ds rest).1
  obtain ⟨ds, hne, hds⟩ := ds
  have hk : ¬ (0 + ds.length = 0) := by
    rw [Nat.zero_add]
    exact fun h => hne (List.length_eq_zero_iff.mp h)
  refine ⟨_, toInt_digits ds, ?_⟩
  unfold parseNum
  simp only [hskip, digitLoop_digits 0 0 hds h, if_neg hk]

theorem exprLoop_skip (n : Nat) (v : BitVec 64) (s : Scan) :
    exprLoop n v (skip s) = exprLoop n v s := by
  cases n with
  | zero => rw [exprLoop, exprLoop]
  | succ n => rw [exprLoop, exprLoop, skip_skip]

mutual

theorem parseFactor_text : ∀ (f : Factor) (n : Nat) (rest : List UInt8),
    3 * (f.text ++ rest).length + 1 ≤ n → NumEnds rest →
    Reads (parseFactor n ⟨f.text ++ rest, true⟩) f.eval rest
  | _, 0, _, hn, _ => by omega
  | .paren b e c, n + 1, rest, hn, _ => by
    have htext : (Factor.paren b e c).text ++ rest =
        b.1 ++ 40 :: (e.text ++ (c.1 ++ 41 :: rest)) := by
      simp [Factor.text]
    rw [htext] at hn ⊢
    have hexpr := parseExpr_text e n (c.1 ++ 41 :: rest)
      (by rw [List.length_append, List.length_cons] at hn; omega) (exprEnds_paren c rest)
    rw [skip_blanks_cons c (by rfl)] at hexpr
    rw [parseFactor, skip_blanks_cons b (by rfl), Factor.eval]
    simp only [peek_cons, next_cons, if_true]
    cases he : e.eval with
    | none =>
      rw [he] at hexpr
      obtain ⟨v, s, hrun, hok⟩ := hexpr
      simp only [hrun]
      by_cases hclose : (skip s).peek ≠ 41
      · rw [if_pos hclose]
        exact ⟨v, _, rfl, rfl⟩
      · rw [if_neg hclose]
        exact ⟨v, _, rfl, hok⟩
    | some z =>
      rw [he] at hexpr
      obtain ⟨v, hv, hrun⟩ := hexpr
      refine ⟨v, hv, ?_⟩
      simp only [hrun, skip_cons (show isBlank 41 = false by rfl)]
      rfl
  | .neg b f, n + 1, rest, hn, h => by
    have htext : (Factor.neg b f).text ++ rest = b.1 ++ 45 :: (f.text ++ rest) := by
      simp [Factor.text]
    rw [htext] at hn ⊢
    have hfactor := parseFactor_text f n rest
      (by rw [List.length_append, List.length_cons] at hn; omega) h
    rw [parseFactor, skip_blanks_cons b (by rfl), Factor.eval]
    simp only [peek_cons, next_cons]
    rw [if_neg (by decide), if_pos trivial]
    cases he : f.eval with
    | none =>
      rw [he] at hfactor
      obtain ⟨v, s, hrun, hok⟩ := hfactor
      simp only [hrun]
      exact ⟨_, s, rfl, hok⟩
    | some z =>
      rw [he] at hfactor
      obtain ⟨v, hv, hrun⟩ := hfactor
      refine ⟨-v, ?_, by simp only [hrun]⟩
      rw [BitVec.toInt_neg, hv]
      rfl
  | .num b ds, n + 1, rest, _, h => by
    obtain ⟨hskip, hdig⟩ := skip_num b ds rest
    have h40 : (skip ⟨b.1 ++ ds.1 ++ rest, true⟩).peek ≠ 40 := by
      intro he
      rw [he] at hdig
      exact absurd hdig (by decide)
    have h45 : (skip ⟨b.1 ++ ds.1 ++ rest, true⟩).peek ≠ 45 := by
      intro he
      rw [he] at hdig
      exact absurd hdig (by decide)
    rw [Factor.text, parseFactor, Factor.eval]
    simp only [if_neg h40, if_neg h45, parseNum_skip]
    exact parseNum_text b ds h

theorem parseTerm_text : ∀ (t : Term) (n : Nat) (rest : List UInt8),
    3 * (t.text ++ rest).length + 2 ≤ n → TermEnds rest →
    Reads (parseTerm n ⟨t.text ++ rest, true⟩) t.eval (skip ⟨rest, true⟩).pos
  | _, 0, _, hn, _ => by omega
  | .mk f fs, n + 1, rest, hn, h => by
    rw [Term.text, List.append_assoc] at hn ⊢
    have hfactor := parseFactor_text f n (fs.text ++ rest) (by omega) (fs.numEnds h.num)
    rw [parseTerm, Term.eval]
    cases he : f.eval with
    | none =>
      rw [he] at hfactor
      obtain ⟨v, s, hrun, hok⟩ := hfactor
      obtain ⟨v', s', hrun', hl, -⟩ := parseFactor_sound n ⟨f.text ++ (fs.text ++ rest), true⟩
        (by simp only; omega)
      rw [hrun] at hrun'
      cases hrun'
      simp only [hrun]
      exact reads_of_failed (termLoop_sound n v s (by simp only at hl; omega)) hok _
    | some z =>
      rw [he] at hfactor
      obtain ⟨v, hv, hrun⟩ := hfactor
      simp only [hrun, ← hv]
      exact termLoop_text fs n v rest (by rw [List.length_append] at hn; omega) h

theorem termLoop_text : ∀ (fs : Factors) (n : Nat) (v : BitVec 64) (rest : List UInt8),
    3 * (fs.text ++ rest).length + 1 ≤ n → TermEnds rest →
    Reads (termLoop n v ⟨fs.text ++ rest, true⟩) (fs.eval v.toInt) (skip ⟨rest, true⟩).pos
  | _, 0, _, _, hn, _ => by omega
  | .nil, n + 1, v, rest, _, h => by
    have hstop : (skip ⟨rest, true⟩).peek ≠ 42 ∧ (skip ⟨rest, true⟩).peek ≠ 47 ∧
        (skip ⟨rest, true⟩).peek ≠ 37 := ⟨h.op .mul, h.op .div, h.op .mod⟩
    rw [Factors.text, List.nil_append, termLoop]
    simp only [if_pos hstop]
    exact ⟨v, rfl, rfl⟩
  | .cons b op f fs, n + 1, v, rest, hn, h => by
    have htext : (Factors.cons b op f fs).text ++ rest =
        b.1 ++ op.char :: (f.text ++ (fs.text ++ rest)) := by
      simp [Factors.text]
    rw [htext] at hn ⊢
    have hskip := skip_blanks_cons b (show isBlank op.char = false by cases op <;> rfl)
      (f.text ++ (fs.text ++ rest)) true
    have hlen : 3 * (f.text ++ (fs.text ++ rest)).length + 3 ≤ n := by
      rw [List.length_append, List.length_cons] at hn
      omega
    have hfactor := parseFactor_text f n (fs.text ++ rest) (by omega) (fs.numEnds h.num)
    rw [termLoop_op (by rw [hskip]; rfl), hskip, Factors.eval]
    simp only [next_cons]
    cases he : f.eval with
    | none =>
      rw [he] at hfactor
      obtain ⟨r, s, hrun, hok⟩ := hfactor
      simp only [hrun, if_pos hok]
      exact ⟨0, s, rfl, hok⟩
    | some z =>
      rw [he] at hfactor
      obtain ⟨r, hr, hrun⟩ := hfactor
      simp only [hrun]
      rw [if_neg (by decide), Option.bind_some, ← hr, ← op.machine_apply]
      rw [List.length_append] at hlen
      cases op.machine v r with
      | none =>
        exact reads_of_failed (termLoop_sound n v _ (by simp only [fail_pos]; omega)) rfl _
      | some w => exact termLoop_text fs n w rest (by omega) h

theorem parseExpr_text : ∀ (e : Expr) (n : Nat) (rest : List UInt8),
    3 * (e.text ++ rest).length + 3 ≤ n → ExprEnds rest →
    Reads (parseExpr n ⟨e.text ++ rest, true⟩) e.eval (skip ⟨rest, true⟩).pos
  | _, 0, _, hn, _ => by omega
  | .mk t ts, n + 1, rest, hn, h => by
    rw [Expr.text, List.append_assoc] at hn ⊢
    have hterm := parseTerm_text t n (ts.text ++ rest) (by omega) (ts.termEnds h.toTermEnds)
    rw [parseExpr, Expr.eval]
    cases he : t.eval with
    | none =>
      rw [he] at hterm
      obtain ⟨v, s, hrun, hok⟩ := hterm
      obtain ⟨v', s', hrun', hl, -⟩ := parseTerm_sound n ⟨t.text ++ (ts.text ++ rest), true⟩
        (by simp only; omega)
      rw [hrun] at hrun'
      cases hrun'
      simp only [hrun]
      exact reads_of_failed (exprLoop_sound n v s (by simp only at hl; omega)) hok _
    | some z =>
      rw [he] at hterm
      obtain ⟨v, hv, hrun⟩ := hterm
      have hloop := exprLoop_text ts n v rest (by rw [List.length_append] at hn; omega) h
      rw [← exprLoop_skip] at hloop
      simp only [hrun, ← hv]
      exact hloop

theorem exprLoop_text : ∀ (ts : Terms) (n : Nat) (v : BitVec 64) (rest : List UInt8),
    3 * (ts.text ++ rest).length + 2 ≤ n → ExprEnds rest →
    Reads (exprLoop n v ⟨ts.text ++ rest, true⟩) (ts.eval v.toInt) (skip ⟨rest, true⟩).pos
  | _, 0, _, _, hn, _ => by omega
  | .nil, n + 1, v, rest, _, h => by
    have hstop : (skip ⟨rest, true⟩).peek ≠ 43 ∧ (skip ⟨rest, true⟩).peek ≠ 45 :=
      ⟨h.addOp .plus, h.addOp .minus⟩
    rw [Terms.text, List.nil_append, exprLoop]
    simp only [if_pos hstop]
    exact ⟨v, rfl, rfl⟩
  | .cons b op t ts, n + 1, v, rest, hn, h => by
    have htext : (Terms.cons b op t ts).text ++ rest =
        b.1 ++ op.char :: (t.text ++ (ts.text ++ rest)) := by
      simp [Terms.text]
    rw [htext] at hn ⊢
    have hskip := skip_blanks_cons b (show isBlank op.char = false by cases op <;> rfl)
      (t.text ++ (ts.text ++ rest)) true
    have hlen : 3 * (t.text ++ (ts.text ++ rest)).length + 4 ≤ n := by
      rw [List.length_append, List.length_cons] at hn
      omega
    have hterm := parseTerm_text t n (ts.text ++ rest) (by omega) (ts.termEnds h.toTermEnds)
    rw [exprLoop_op (by rw [hskip]; rfl), hskip, Terms.eval]
    simp only [next_cons]
    cases he : t.eval with
    | none =>
      rw [he] at hterm
      obtain ⟨r, s, hrun, hok⟩ := hterm
      simp only [hrun, if_pos hok]
      exact ⟨0, s, rfl, hok⟩
    | some z =>
      rw [he] at hterm
      obtain ⟨r, hr, hrun⟩ := hterm
      have hloop := exprLoop_text ts n (if op.char = 43 then v + r else v - r) rest
        (by rw [List.length_append] at hlen; omega) h
      rw [← exprLoop_skip] at hloop
      simp only [hrun]
      rw [if_neg (by decide), Option.bind_some, ← hr, ← op.machine_apply]
      exact hloop

end

/-! ## The evaluator -/

/-- `s` is the text of `e`, with blanks behind it. -/
def Derives (e : Expr) (s : List UInt8) : Prop := ∃ b : Blanks, s = e.text ++ b.1

theorem exprEval_text {e : Expr} {b : Blanks} {fuel : Nat}
    (hf : 3 * (e.text ++ b.1).length + 3 ≤ fuel) :
    match e.eval with
    | some z => ∃ v : BitVec 64, v.toInt = z ∧ exprEval fuel (e.text ++ b.1) true = some (v, true)
    | none => ∃ v, exprEval fuel (e.text ++ b.1) true = some (v, false) := by
  have hread := parseExpr_text e fuel b.1 hf (exprEnds_blanks b)
  have hend : skip ⟨b.1, true⟩ = ⟨[], true⟩ := skip_all b true
  rw [hend] at hread
  cases he : e.eval with
  | none =>
    rw [he] at hread
    obtain ⟨v, s, hrun, hok⟩ := hread
    refine ⟨v, ?_⟩
    unfold exprEval
    simp only [hrun, skip_ok, hok]
    split <;> rfl
  | some z =>
    rw [he] at hread
    obtain ⟨v, hv, hrun⟩ := hread
    refine ⟨v, hv, ?_⟩
    unfold exprEval
    simp only [hrun]
    rfl

/-- With the flag still set, the whole string was read. -/
theorem exprEval_sound {s : List UInt8} (h0 : 0 ∉ s) {fuel : Nat} (hf : 3 * s.length + 3 ≤ fuel) :
    ∃ v ok, exprEval fuel s true = some (v, ok) ∧
      (ok = true → ∃ e, Derives e s ∧ e.eval = some v.toInt) := by
  obtain ⟨v, t, hrun, -, hread⟩ := parseExpr_sound fuel ⟨s, true⟩ hf
  obtain ⟨c, hc, hpos⟩ := exists_blanks t
  unfold exprEval
  simp only [hrun]
  by_cases hend : (skip t).peek = 0
  · rw [if_neg (not_not.mpr hend)]
    refine ⟨v, t.ok, rfl, fun hok => ?_⟩
    obtain ⟨-, e, b, htext, heval⟩ := hread hok
    have hnil : (skip t).pos = [] := by
      cases hp : (skip t).pos with
      | nil => rfl
      | cons d rest =>
        have hd : d = 0 := by
          rw [Scan.peek, hp] at hend
          exact hend
        have hmem : d ∈ s := by
          have hs : s = e.text ++ (b.1 ++ t.pos) := htext
          rw [hs, hpos, hp]
          simp
        exact absurd (hd ▸ hmem) h0
    refine ⟨e, ⟨b.append ⟨c, hc⟩, ?_⟩, heval⟩
    have hs : s = e.text ++ (b.1 ++ t.pos) := htext
    rw [hs, hpos, hnil, List.append_nil]
    rfl
  · rw [if_pos hend]
    exact ⟨v, false, rfl, fun hok => absurd hok (by simp)⟩

/-- **The evaluator accepts its grammar and computes its meaning**: it returns, the flag stays
set exactly when the string is derived from the grammar without a division by 0, and then the
result is the value of the derivation. -/
theorem exprEval_grammar (s : CString) {fuel : Nat} (hf : 3 * s.1.length + 3 ≤ fuel) :
    ∃ v ok, exprEval fuel s.1 true = some (v, ok) ∧
      (ok = true ↔ ∃ e, Derives e s.1 ∧ e.eval ≠ none) ∧
      ∀ e, Derives e s.1 → e.eval = if ok then some v.toInt else none := by
  obtain ⟨v, ok, hrun, hsound⟩ := exprEval_sound s.2 hf
  have hvalue : ∀ e, Derives e s.1 → e.eval = if ok then some v.toInt else none := by
    intro e h
    obtain ⟨b, hb⟩ := h
    have htext := exprEval_text (hb ▸ hf)
    rw [← hb] at htext
    cases he : e.eval with
    | none =>
      rw [he] at htext
      obtain ⟨w, hw⟩ := htext
      rw [hrun] at hw
      cases hw
      rfl
    | some z =>
      rw [he] at htext
      obtain ⟨w, hz, hw⟩ := htext
      rw [hrun] at hw
      cases hw
      rw [← hz]
      rfl
  refine ⟨v, ok, hrun, ⟨fun hok => ?_, ?_⟩, hvalue⟩
  · obtain ⟨e, hd, he⟩ := hsound hok
    exact ⟨e, hd, by rw [he]; simp⟩
  · intro h
    obtain ⟨e, hd, he⟩ := h
    cases ok with
    | false => exact absurd (hvalue e hd) he
    | true => rfl

/-- `-(2 - 9) % 4` is accepted, with the value 3. -/
theorem exprEval_grammar_sample :
    0 ∉ [45, 40, 50, 32, 45, 32, 57, 41, 32, 37, 32, (52 : UInt8)] ∧
    ∃ e, Derives e [45, 40, 50, 32, 45, 32, 57, 41, 32, 37, 32, 52] ∧ e.eval = some 3 := by
  have h0 : 0 ∉ [45, 40, 50, 32, 45, 32, 57, 41, 32, 37, 32, (52 : UInt8)] := by decide
  obtain ⟨v, ok, hrun, hok, hval⟩ := exprEval_grammar ⟨_, h0⟩ (Nat.le_refl 39)
  have hcomp : exprEval 39 [45, 40, 50, 32, 45, 32, 57, 41, 32, 37, 32, 52] true =
    some (3, true) := by
    decide +kernel
  rw [hcomp] at hrun
  cases hrun
  obtain ⟨e, hd, -⟩ := hok.mp rfl
  exact ⟨h0, e, hd, hval e hd⟩

end InaneOS.User
