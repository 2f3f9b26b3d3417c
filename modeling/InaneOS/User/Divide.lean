import InaneOS.User.Grammar

/-!
# The divisions of the evaluator

`parse_term` divides only while the flag is set, so everything to the left has been read
and has a value. `mem_exprDivs` says which divisions are carried out: those of a term by
a factor behind it, where the term stands at a place the grammar allows.

The machine stops a program that divides by 0, or the least number by -1. The first is
tested for, the second is not: `noFault_iff` says for which strings it does not come up.
-/

namespace InaneOS.User

/-- The two operands of `v /= r` or `v %= r`. -/
abbrev Division : Type := BitVec 64 × BitVec 64

mutual

/-- The divisions carried out in a call of `parse_factor`. -/
def factorDivs : Nat → Scan → List Division
  | 0, _ => []
  | n + 1, s =>
    let s := skip s
    if s.peek = 40 then exprDivs n s.next
    else if s.peek = 45 then factorDivs n s.next
    else []

def termDivs : Nat → Scan → List Division
  | 0, _ => []
  | n + 1, s =>
    factorDivs n s ++
      match parseFactor n s with
      | none => []
      | some (v, s) => termLoopDivs n v s

/-- Those of the loop of `parse_term`: its own, and those of the factors it reads. -/
def termLoopDivs : Nat → BitVec 64 → Scan → List Division
  | 0, _, _ => []
  | n + 1, v, s =>
    let s := skip s
    let op := s.peek
    if op ≠ 42 ∧ op ≠ 47 ∧ op ≠ 37 then []
    else
      factorDivs n s.next ++
        match parseFactor n s.next with
        | none => []
        | some (r, s) =>
          if s.ok = false then []
          else if op = 42 then termLoopDivs n (v * r) s
          else if r = 0 then termLoopDivs n v s.fail
          else if op = 47 then (v, r) :: termLoopDivs n (v.sdiv r) s
          else (v, r) :: termLoopDivs n (v.srem r) s

def exprDivs : Nat → Scan → List Division
  | 0, _ => []
  | n + 1, s =>
    termDivs n s ++
      match parseTerm n s with
      | none => []
      | some (v, s) => exprLoopDivs n v s

def exprLoopDivs : Nat → BitVec 64 → Scan → List Division
  | 0, _, _ => []
  | n + 1, v, s =>
    let s := skip s
    let op := s.peek
    -- no term follows: the loop ends
    if op ≠ 43 ∧ op ≠ 45 then []
    else
      termDivs n s.next ++
        match parseTerm n s.next with
        | none => []
        | some (r, s) =>
          if s.ok = false then []
          else exprLoopDivs n (if op = 43 then v + r else v - r) s

end

/-! ## Where a division is written -/

inductive Level
  | expr
  | term
  | factor

/-- After the text `p` an expression, a term or a factor is read, and all that stands before
it has a value. -/
inductive Before : Level → List UInt8 → Prop
  | start : Before .expr []
  | paren {p : List UInt8} (h : Before .factor p) (b : Blanks) : Before .expr (p ++ (b.1 ++ [40]))
  | neg {p : List UInt8} (h : Before .factor p) (b : Blanks) : Before .factor (p ++ (b.1 ++ [45]))
  | term {p : List UInt8} (h : Before .expr p) : Before .term p
  | nextTerm {p : List UInt8} (h : Before .expr p) {e : Expr} (he : e.eval ≠ none) (b : Blanks)
      (op : AddOp) : Before .term (p ++ (e.text ++ (b.1 ++ [op.char])))
  | factor {p : List UInt8} (h : Before .term p) : Before .factor p
  | nextFactor {p : List UInt8} (h : Before .term p) {t : Term} (ht : t.eval ≠ none) (b : Blanks)
      (op : MulOp) : Before .factor (p ++ (t.text ++ (b.1 ++ [op.char])))

/-- The factor ends with a parenthesis. -/
def Factor.closed : Factor → Bool
  | .paren _ _ _ => true
  | .neg _ f => f.closed
  | .num _ _ => false

/-- `rest` does not go on with the factor. -/
def Factor.Ends (f : Factor) (rest : List UInt8) : Prop := f.closed = true ∨ NumEnds rest

/-- In `s` a term of the value `v` is divided by a factor of the value `r`, which is not 0. -/
def Divides (s : List UInt8) (v r : Int) : Prop :=
  ∃ (p : List UInt8) (t : Term) (b : Blanks) (op : MulOp) (f : Factor) (rest : List UInt8),
    Before .term p ∧ s = p ++ (t.text ++ (b.1 ++ op.char :: (f.text ++ rest))) ∧ op ≠ .mul ∧
      f.Ends rest ∧ t.eval = some v ∧ f.eval = some r ∧ r ≠ 0

/-! ## A factor more, a term more -/

def Factors.snoc : Factors → Blanks → MulOp → Factor → Factors
  | .nil, b, op, f => .cons b op f .nil
  | .cons b' op' f' fs, b, op, f => .cons b' op' f' (fs.snoc b op f)

theorem Factors.snoc_text : ∀ (fs : Factors) (b : Blanks) (op : MulOp) (f : Factor),
    (fs.snoc b op f).text = fs.text ++ (b.1 ++ op.char :: f.text)
  | .nil, b, op, f => by simp [Factors.snoc, Factors.text]
  | .cons b' op' f' fs, b, op, f => by
    simp [Factors.snoc, Factors.text, fs.snoc_text b op f]

theorem Factors.snoc_eval : ∀ (fs : Factors) (b : Blanks) (op : MulOp) (f : Factor) (z : Int),
    (fs.snoc b op f).eval z = (fs.eval z).bind fun x => f.eval.bind fun r => op.apply x r
  | .nil, b, op, f, z => by simp [Factors.snoc, Factors.eval]
  | .cons b' op' f' fs, b, op, f, z => by
    simp only [Factors.snoc, Factors.eval, fs.snoc_eval b op f, Option.bind_assoc]

def Term.snoc : Term → Blanks → MulOp → Factor → Term
  | .mk g fs, b, op, f => .mk g (fs.snoc b op f)

theorem Term.snoc_text (t : Term) (b : Blanks) (op : MulOp) (f : Factor) :
    (t.snoc b op f).text = t.text ++ (b.1 ++ op.char :: f.text) := by
  cases t with
  | mk g fs => simp [Term.snoc, Term.text, fs.snoc_text]

theorem Term.snoc_eval (t : Term) (b : Blanks) (op : MulOp) (f : Factor) :
    (t.snoc b op f).eval = t.eval.bind fun x => f.eval.bind fun r => op.apply x r := by
  cases t with
  | mk g fs => simp only [Term.snoc, Term.eval, fs.snoc_eval, Option.bind_assoc]

def Terms.snoc : Terms → Blanks → AddOp → Term → Terms
  | .nil, b, op, t => .cons b op t .nil
  | .cons b' op' t' ts, b, op, t => .cons b' op' t' (ts.snoc b op t)

theorem Terms.snoc_text : ∀ (ts : Terms) (b : Blanks) (op : AddOp) (t : Term),
    (ts.snoc b op t).text = ts.text ++ (b.1 ++ op.char :: t.text)
  | .nil, b, op, t => by simp [Terms.snoc, Terms.text]
  | .cons b' op' t' ts, b, op, t => by
    simp [Terms.snoc, Terms.text, ts.snoc_text b op t]

theorem Terms.snoc_eval : ∀ (ts : Terms) (b : Blanks) (op : AddOp) (t : Term) (z : Int),
    (ts.snoc b op t).eval z = (ts.eval z).bind fun x => t.eval.map fun r => op.apply x r
  | .nil, b, op, t, z => by simp [Terms.snoc, Terms.eval, Option.map_eq_bind]
  | .cons b' op' t' ts, b, op, t, z => by
    simp only [Terms.snoc, Terms.eval, ts.snoc_eval b op t, Option.bind_assoc]

def Expr.snoc : Expr → Blanks → AddOp → Term → Expr
  | .mk u ts, b, op, t => .mk u (ts.snoc b op t)

theorem Expr.snoc_text (e : Expr) (b : Blanks) (op : AddOp) (t : Term) :
    (e.snoc b op t).text = e.text ++ (b.1 ++ op.char :: t.text) := by
  cases e with
  | mk u ts => simp [Expr.snoc, Expr.text, ts.snoc_text]

theorem Expr.snoc_eval (e : Expr) (b : Blanks) (op : AddOp) (t : Term) :
    (e.snoc b op t).eval = e.eval.bind fun x => t.eval.map fun r => op.apply x r := by
  cases e with
  | mk u ts => simp only [Expr.snoc, Expr.eval, ts.snoc_eval, Option.bind_assoc]

/-! ## One round of a loop -/

/-- The division of a round of `parse_term`, if it is one. -/
def MulOp.divs (op : MulOp) (v r : BitVec 64) : List Division :=
  match op with
  | mul => []
  | div => [(v, r)]
  | mod => [(v, r)]

theorem termLoopDivs_op {n : Nat} {v : BitVec 64} {s : Scan} {op : MulOp}
    (h : (skip s).peek = op.char) :
    termLoopDivs (n + 1) v s =
      factorDivs n (skip s).next ++
        match parseFactor n (skip s).next with
        | none => []
        | some (r, s) =>
          if s.ok = false then []
          else
            match op.machine v r with
            | none => termLoopDivs n v s.fail
            | some w => op.divs v r ++ termLoopDivs n w s := by
  rw [termLoopDivs]
  simp only [h]
  cases op with
  | mul => rfl
  | div | mod =>
    rw [if_neg (by decide)]
    cases parseFactor n (skip s).next with
    | none => rfl
    | some p =>
      simp only [MulOp.machine]
      by_cases hr : p.1 = 0
      · rw [if_pos hr, if_pos hr]
        rfl
      · rw [if_neg hr, if_neg hr]
        rfl

theorem exprLoopDivs_op {n : Nat} {v : BitVec 64} {s : Scan} {op : AddOp}
    (h : (skip s).peek = op.char) :
    exprLoopDivs (n + 1) v s =
      termDivs n (skip s).next ++
        match parseTerm n (skip s).next with
        | none => []
        | some (r, s) =>
          if s.ok = false then []
          else exprLoopDivs n (if op.char = 43 then v + r else v - r) s := by
  rw [exprLoopDivs]
  simp only [h]
  cases op with
  | plus => rfl
  | minus => rfl

/-- The same where the text of the round is known. -/
theorem termLoopDivs_text (n : Nat) (v : BitVec 64) (b : Blanks) (op : MulOp) (w : List UInt8) :
    termLoopDivs (n + 1) v ⟨b.1 ++ op.char :: w, true⟩ =
      factorDivs n ⟨w, true⟩ ++
        match parseFactor n ⟨w, true⟩ with
        | none => []
        | some (r, s) =>
          if s.ok = false then []
          else
            match op.machine v r with
            | none => termLoopDivs n v s.fail
            | some x => op.divs v r ++ termLoopDivs n x s := by
  have hskip := skip_blanks_cons b (show isBlank op.char = false by cases op <;> rfl) w true
  rw [termLoopDivs_op (by rw [hskip]; rfl), hskip]
  rfl

theorem exprLoopDivs_text (n : Nat) (v : BitVec 64) (b : Blanks) (op : AddOp) (w : List UInt8) :
    exprLoopDivs (n + 1) v ⟨b.1 ++ op.char :: w, true⟩ =
      termDivs n ⟨w, true⟩ ++
        match parseTerm n ⟨w, true⟩ with
        | none => []
        | some (r, s) =>
          if s.ok = false then []
          else exprLoopDivs n (if op.char = 43 then v + r else v - r) s := by
  have hskip := skip_blanks_cons b (show isBlank op.char = false by cases op <;> rfl) w true
  rw [exprLoopDivs_op (by rw [hskip]; rfl), hskip]
  rfl

/-! ## Every division carried out is written -/

/-- The parser stops behind a factor only where it does not go on. -/
theorem parseFactor_ends : ∀ (f : Factor) (n : Nat) {rest : List UInt8} {v : BitVec 64} {s' : Scan},
    parseFactor n ⟨f.text ++ rest, true⟩ = some (v, s') → s'.pos = rest → f.Ends rest
  | .paren _ _ _, _, _, _, _, _, _ => Or.inl rfl
  | .neg b f, 0, rest, v, s', hrun, _ => by
    rw [parseFactor] at hrun
    exact absurd hrun (by simp)
  | .neg b f, n + 1, rest, v, s', hrun, hpos => by
    have htext : (Factor.neg b f).text ++ rest = b.1 ++ 45 :: (f.text ++ rest) := by
      simp [Factor.text]
    rw [htext, parseFactor, skip_blanks_cons b (by rfl)] at hrun
    simp only [peek_cons, next_cons] at hrun
    rw [if_neg (by decide), if_pos trivial] at hrun
    split at hrun
    · exact absurd hrun (by simp)
    · next r t hr =>
      obtain ⟨-, rfl⟩ := Prod.mk.inj (Option.some.inj hrun)
      exact parseFactor_ends f n hr hpos
  | .num b ds, 0, rest, v, s', hrun, _ => by
    rw [parseFactor] at hrun
    exact absurd hrun (by simp)
  | .num b ds, n + 1, rest, v, s', hrun, hpos => by
    obtain ⟨hskip, hdig⟩ := skip_num b ds rest
    have hother : ∀ c : UInt8, isDigit c = false → (skip ⟨b.1 ++ ds.1 ++ rest, true⟩).peek ≠ c := by
      intro c hc he
      rw [he, hc] at hdig
      exact absurd hdig (by decide)
    rw [Factor.text, parseFactor] at hrun
    simp only [if_neg (hother 40 rfl), if_neg (hother 45 rfl), parseNum_skip] at hrun
    -- the digits at the front of `rest` would be read, too
    obtain ⟨ds', rest', hds', hrest', hsplit⟩ := exists_digits rest
    have hall : ∀ d ∈ ds.1 ++ ds', isDigit d = true := by
      intro d hd
      exact (List.mem_append.mp hd).elim (ds.2.2 d) (hds' d)
    have hread : (parseNum ⟨b.1 ++ ds.1 ++ rest, true⟩).2.pos = rest' := by
      unfold parseNum
      rw [hskip, hsplit]
      simp only [← List.append_assoc, digitLoop_digits 0 0 hall hrest']
      split <;> rfl
    rw [Option.some.inj hrun] at hread
    refine Or.inr ?_
    rw [← hpos, show s'.pos = rest' from hread]
    exact hrest'

/-- A factor that was read, and is not followed by more of it. -/
theorem parseFactor_factor {n : Nat} {s s' : Scan} {v : BitVec 64}
    (hn : 3 * s.pos.length + 1 ≤ n) (hrun : parseFactor n s = some (v, s')) (hok' : s'.ok = true) :
    s.ok = true ∧ ∃ f : Factor, s.pos = f.text ++ s'.pos ∧ f.eval = some v.toInt ∧
      f.Ends s'.pos := by
  obtain ⟨v', t, hrun', -, hread⟩ := parseFactor_sound n s hn
  rw [hrun] at hrun'
  obtain ⟨rfl, rfl⟩ := Prod.mk.inj (Option.some.inj hrun')
  obtain ⟨hok, f, htext, heval⟩ := hread hok'
  have hagain : parseFactor n ⟨f.text ++ s'.pos, true⟩ = some (v, s') := by
    rw [← htext, ← hok]
    exact hrun
  exact ⟨hok, f, htext, heval, parseFactor_ends f n hagain rfl⟩

/-- With the flag set, the parser stands in `whole` at a place of the grammar. -/
def Here (whole : List UInt8) (l : Level) (s : Scan) : Prop :=
  s.ok = true → ∃ p, Before l p ∧ whole = p ++ s.pos

/-- With the flag set, it stands behind a term of the value `v`. -/
def AfterTerm (whole : List UInt8) (v : BitVec 64) (s : Scan) : Prop :=
  s.ok = true → ∃ (p : List UInt8) (t : Term), Before .term p ∧
    whole = p ++ (t.text ++ s.pos) ∧ t.eval = some v.toInt

/-- With the flag set, it stands behind an expression of the value `v` and blanks. -/
def AfterExpr (whole : List UInt8) (v : BitVec 64) (s : Scan) : Prop :=
  s.ok = true → ∃ (p : List UInt8) (e : Expr) (b : Blanks), Before .expr p ∧
    whole = p ++ (e.text ++ (b.1 ++ s.pos)) ∧ e.eval = some v.toInt

section Steps

variable {whole : List UInt8} {s s' : Scan} {v r w : BitVec 64}

/-- Blanks and a character are read. -/
theorem pos_step {c : UInt8} (h : (skip s).peek = c) (hc : c ≠ 0) :
    ∃ b : Blanks, s.pos = b.1 ++ c :: (skip s).next.pos := by
  obtain ⟨b, hb, hpos⟩ := exists_blanks s
  refine ⟨⟨b, hb⟩, ?_⟩
  rw [hpos, pos_eq_cons h hc]

theorem Here.paren (h : Here whole .factor s) (hc : (skip s).peek = 40) :
    Here whole .expr (skip s).next := by
  intro hok
  obtain ⟨p, hp, rfl⟩ := h hok
  obtain ⟨b, hpos⟩ := pos_step hc (by decide)
  refine ⟨_, hp.paren b, ?_⟩
  rw [hpos]
  simp

theorem Here.neg (h : Here whole .factor s) (hc : (skip s).peek = 45) :
    Here whole .factor (skip s).next := by
  intro hok
  obtain ⟨p, hp, rfl⟩ := h hok
  obtain ⟨b, hpos⟩ := pos_step hc (by decide)
  refine ⟨_, hp.neg b, ?_⟩
  rw [hpos]
  simp

theorem Here.term (h : Here whole .expr s) : Here whole .term s := by
  intro hok
  obtain ⟨p, hp, hw⟩ := h hok
  exact ⟨p, hp.term, hw⟩

theorem Here.factor (h : Here whole .term s) : Here whole .factor s := by
  intro hok
  obtain ⟨p, hp, hw⟩ := h hok
  exact ⟨p, hp.factor, hw⟩

theorem Here.afterTerm (h : Here whole .term s)
    (hread : s'.ok = true → s.ok = true ∧ FactorRead s v s') : AfterTerm whole v s' := by
  intro hok'
  obtain ⟨hok, f, htext, heval⟩ := hread hok'
  obtain ⟨p, hp, rfl⟩ := h hok
  refine ⟨p, .mk f .nil, hp, ?_, ?_⟩
  · rw [htext, Term.text, Factors.text, List.append_nil]
  · rw [Term.eval, heval]
    rfl

theorem Here.afterExpr (h : Here whole .expr s)
    (hread : s'.ok = true → s.ok = true ∧ TermRead s v s') : AfterExpr whole v s' := by
  intro hok'
  obtain ⟨hok, t, b, htext, heval⟩ := hread hok'
  obtain ⟨p, hp, rfl⟩ := h hok
  refine ⟨p, .mk t .nil, b, hp, ?_, ?_⟩
  · rw [htext, Expr.text, Terms.text, List.append_nil]
  · rw [Expr.eval, heval]
    rfl

theorem AfterTerm.op (h : AfterTerm whole v s) {op : MulOp} (hc : (skip s).peek = op.char) :
    Here whole .factor (skip s).next := by
  intro hok
  obtain ⟨p, t, hp, rfl, ht⟩ := h hok
  obtain ⟨b, hpos⟩ := pos_step hc (by cases op <;> decide)
  refine ⟨_, hp.nextFactor (show t.eval ≠ none by rw [ht]; simp) b op, ?_⟩
  rw [hpos]
  simp

theorem AfterExpr.op (h : AfterExpr whole v s) {op : AddOp} (hc : (skip s).peek = op.char) :
    Here whole .term (skip s).next := by
  intro hok
  obtain ⟨p, e, a, hp, rfl, he⟩ := h hok
  obtain ⟨b, hpos⟩ := pos_step hc (by cases op <;> decide)
  refine ⟨_, hp.nextTerm (show e.eval ≠ none by rw [he]; simp) (a.append b) op, ?_⟩
  rw [hpos]
  simp [Blanks.append]

/-- A factor more. -/
theorem AfterTerm.next (h : AfterTerm whole v s) {op : MulOp} (hc : (skip s).peek = op.char)
    (hread : s'.ok = true → (skip s).next.ok = true ∧ FactorRead (skip s).next r s')
    (hm : op.machine v r = some w) : AfterTerm whole w s' := by
  intro hok'
  obtain ⟨hok, f, htext, hfe⟩ := hread hok'
  obtain ⟨p, t, hp, rfl, ht⟩ := h hok
  obtain ⟨b, hpos⟩ := pos_step hc (by cases op <;> decide)
  have happly := op.machine_apply v r
  rw [hm] at happly
  refine ⟨p, t.snoc b op f, hp, ?_, ?_⟩
  · rw [hpos, htext, Term.snoc_text]
    simp
  · rw [Term.snoc_eval, ht, hfe]
    exact happly.symm

/-- A term more. -/
theorem AfterExpr.next (h : AfterExpr whole v s) {op : AddOp} (hc : (skip s).peek = op.char)
    (hread : s'.ok = true → (skip s).next.ok = true ∧ TermRead (skip s).next r s') :
    AfterExpr whole (if op.char = 43 then v + r else v - r) s' := by
  intro hok'
  obtain ⟨hok, t, c, htext, hte⟩ := hread hok'
  obtain ⟨p, e, a, hp, rfl, he⟩ := h hok
  obtain ⟨b, hpos⟩ := pos_step hc (by cases op <;> decide)
  refine ⟨p, e.snoc (a.append b) op t, c, hp, ?_, ?_⟩
  · rw [hpos, htext, Expr.snoc_text]
    simp [Blanks.append]
  · rw [Expr.snoc_eval, he, hte, op.machine_apply]
    rfl

/-- The division of one round. -/
theorem AfterTerm.divides (h : AfterTerm whole v s) {op : MulOp} (hc : (skip s).peek = op.char)
    {n : Nat} (hn : 3 * (skip s).next.pos.length + 1 ≤ n)
    (hrun : parseFactor n (skip s).next = some (r, s')) (hok' : s'.ok = true)
    (hm : op.machine v r = some w) {d : Division} (hd : d ∈ op.divs v r) :
    Divides whole d.1.toInt d.2.toInt := by
  obtain ⟨hok, f, hf, hfe, hends⟩ := parseFactor_factor hn hrun hok'
  obtain ⟨p, t, hp, rfl, ht⟩ := h hok
  obtain ⟨b, hpos⟩ := pos_step hc (by cases op <;> decide)
  have hdiv : op ≠ .mul ∧ d = (v, r) ∧ r ≠ 0 := by
    cases op with
    | mul => exact absurd hd (by simp [MulOp.divs])
    | div | mod =>
      refine ⟨by simp, by simpa [MulOp.divs] using hd, fun hr => ?_⟩
      rw [MulOp.machine, if_pos hr] at hm
      exact absurd hm (by simp)
  obtain ⟨hmul, rfl, hr⟩ := hdiv
  refine ⟨p, t, b, op, f, s'.pos, hp, ?_, hmul, hends, ht, hfe, mt toInt_eq_zero.mp hr⟩
  rw [hpos, hf]

end Steps

mutual

theorem factorDivs_written {whole : List UInt8} : ∀ (n : Nat) (s : Scan),
    3 * s.pos.length + 1 ≤ n → Here whole .factor s →
    ∀ d ∈ factorDivs n s, Divides whole d.1.toInt d.2.toInt
  | 0, s, hn, _ => by omega
  | n + 1, s, hn, h => by
    have hlen := skip_length s
    intro d hd
    rw [factorDivs] at hd
    by_cases h1 : (skip s).peek = 40
    · have hnext := next_length h1 (by decide)
      simp only [if_pos h1] at hd
      exact exprDivs_written n (skip s).next (by omega) (h.paren h1) d hd
    · simp only [if_neg h1] at hd
      by_cases h2 : (skip s).peek = 45
      · have hnext := next_length h2 (by decide)
        rw [if_pos h2] at hd
        exact factorDivs_written n (skip s).next (by omega) (h.neg h2) d hd
      · rw [if_neg h2] at hd
        exact absurd hd (by simp)

theorem termDivs_written {whole : List UInt8} : ∀ (n : Nat) (s : Scan),
    3 * s.pos.length + 2 ≤ n → Here whole .term s →
    ∀ d ∈ termDivs n s, Divides whole d.1.toInt d.2.toInt
  | 0, s, hn, _ => by omega
  | n + 1, s, hn, h => by
    intro d hd
    obtain ⟨v, s', hrun, hl, hread⟩ := parseFactor_sound n s (by omega)
    rw [termDivs, hrun] at hd
    rcases List.mem_append.mp hd with hd | hd
    · exact factorDivs_written n s (by omega) h.factor d hd
    · exact termLoopDivs_written n v s' (by omega) (h.afterTerm hread) d hd

theorem termLoopDivs_written {whole : List UInt8} : ∀ (n : Nat) (v : BitVec 64) (s : Scan),
    3 * s.pos.length + 1 ≤ n → AfterTerm whole v s →
    ∀ d ∈ termLoopDivs n v s, Divides whole d.1.toInt d.2.toInt
  | 0, _, s, hn, _ => by omega
  | n + 1, v, s, hn, h => by
    have hlen := skip_length s
    intro d hd
    by_cases hop : (skip s).peek ≠ 42 ∧ (skip s).peek ≠ 47 ∧ (skip s).peek ≠ 37
    · rw [termLoopDivs] at hd
      simp only [if_pos hop] at hd
      exact absurd hd (by simp)
    · obtain ⟨op, hc⟩ := exists_mulOp hop
      have hnext := next_length hc (by cases op <;> decide)
      have hfuel : 3 * (skip s).next.pos.length + 1 ≤ n := by omega
      obtain ⟨r, s', hrun, hl, hread⟩ := parseFactor_sound n (skip s).next hfuel
      rw [termLoopDivs_op hc, hrun] at hd
      rcases List.mem_append.mp hd with hd | hd
      · exact factorDivs_written n (skip s).next hfuel (h.op hc) d hd
      · -- the round goes on only if the factor was read and is not a divisor of 0
        dsimp only at hd
        by_cases hok' : s'.ok = false
        · rw [if_pos hok'] at hd
          exact absurd hd (by simp)
        · rw [if_neg hok'] at hd
          cases hm : op.machine v r with
          | none =>
            -- the flag is cleared, so no division follows
            rw [hm] at hd
            have hfail : AfterTerm whole v s'.fail := fun hok => absurd hok (by simp)
            exact termLoopDivs_written n v s'.fail (by rw [fail_pos]; omega) hfail d hd
          | some w =>
            rw [hm] at hd
            rcases List.mem_append.mp hd with hd | hd
            · exact h.divides hc hfuel hrun (by simpa using hok') hm hd
            · exact termLoopDivs_written n w s' (by omega) (h.next hc hread hm) d hd

theorem exprDivs_written {whole : List UInt8} : ∀ (n : Nat) (s : Scan),
    3 * s.pos.length + 3 ≤ n → Here whole .expr s →
    ∀ d ∈ exprDivs n s, Divides whole d.1.toInt d.2.toInt
  | 0, s, hn, _ => by omega
  | n + 1, s, hn, h => by
    intro d hd
    obtain ⟨v, s', hrun, hl, hread⟩ := parseTerm_sound n s (by omega)
    rw [exprDivs, hrun] at hd
    rcases List.mem_append.mp hd with hd | hd
    · exact termDivs_written n s (by omega) h.term d hd
    · exact exprLoopDivs_written n v s' (by omega) (h.afterExpr hread) d hd

theorem exprLoopDivs_written {whole : List UInt8} : ∀ (n : Nat) (v : BitVec 64) (s : Scan),
    3 * s.pos.length + 2 ≤ n → AfterExpr whole v s →
    ∀ d ∈ exprLoopDivs n v s, Divides whole d.1.toInt d.2.toInt
  | 0, _, s, hn, _ => by omega
  | n + 1, v, s, hn, h => by
    have hlen := skip_length s
    intro d hd
    by_cases hop : (skip s).peek ≠ 43 ∧ (skip s).peek ≠ 45
    · rw [exprLoopDivs] at hd
      simp only [if_pos hop] at hd
      exact absurd hd (by simp)
    · obtain ⟨op, hc⟩ := exists_addOp hop
      have hnext := next_length hc (by cases op <;> decide)
      obtain ⟨r, s', hrun, hl, hread⟩ := parseTerm_sound n (skip s).next (by omega)
      rw [exprLoopDivs_op hc, hrun] at hd
      rcases List.mem_append.mp hd with hd | hd
      · exact termDivs_written n (skip s).next (by omega) (h.op hc) d hd
      · dsimp only at hd
        by_cases hok' : s'.ok = false
        · rw [if_pos hok'] at hd
          exact absurd hd (by simp)
        · rw [if_neg hok'] at hd
          exact exprLoopDivs_written n _ s' (by omega) (h.next hc hread) d hd

end

/-! ## Every division written is carried out -/

/-- A factor with a value is read, whatever follows a closing parenthesis. -/
theorem parseFactor_reads : ∀ (f : Factor) (n : Nat) {rest : List UInt8} {z : Int},
    3 * (f.text ++ rest).length + 1 ≤ n → f.Ends rest → f.eval = some z →
    ∃ v : BitVec 64, v.toInt = z ∧ parseFactor n ⟨f.text ++ rest, true⟩ = some (v, ⟨rest, true⟩)
  | _, 0, _, _, hn, _, _ => by omega
  | .paren b e c, n + 1, rest, z, hn, _, he => by
    have htext : (Factor.paren b e c).text ++ rest =
        b.1 ++ 40 :: (e.text ++ (c.1 ++ 41 :: rest)) := by
      simp [Factor.text]
    rw [htext] at hn ⊢
    have hexpr := parseExpr_text e n (c.1 ++ 41 :: rest)
      (by rw [List.length_append, List.length_cons] at hn; omega) (exprEnds_paren c rest)
    have hval : e.eval = some z := he
    rw [skip_blanks_cons c (by rfl), hval] at hexpr
    obtain ⟨v, hv, hrun⟩ := hexpr
    refine ⟨v, hv, ?_⟩
    rw [parseFactor, skip_blanks_cons b (by rfl)]
    simp only [peek_cons, next_cons, if_true, hrun, skip_cons (show isBlank 41 = false by rfl)]
    rfl
  | .neg b f, n + 1, rest, z, hn, h, he => by
    have htext : (Factor.neg b f).text ++ rest = b.1 ++ 45 :: (f.text ++ rest) := by
      simp [Factor.text]
    rw [htext] at hn ⊢
    rw [Factor.eval, Option.map_eq_some_iff] at he
    obtain ⟨x, hx, rfl⟩ := he
    obtain ⟨v, hv, hrun⟩ := parseFactor_reads f n
      (by rw [List.length_append, List.length_cons] at hn; omega) h hx
    refine ⟨-v, by rw [BitVec.toInt_neg, hv]; rfl, ?_⟩
    rw [parseFactor, skip_blanks_cons b (by rfl)]
    simp only [peek_cons, next_cons, hrun]
    rfl
  | .num b ds, n + 1, rest, z, hn, h, he => by
    have hread := parseFactor_text (.num b ds) (n + 1) rest hn (h.resolve_left Bool.false_ne_true)
    rw [he] at hread
    exact hread

/-- The loop of `parse_term` behind the factors `fs` that it has read. -/
theorem termLoopDivs_behind : ∀ (fs : Factors) (n : Nat) {v : BitVec 64} {w : List UInt8} {z : Int},
    3 * (fs.text ++ w).length + 1 ≤ n → NumEnds w → fs.eval v.toInt = some z →
    ∃ (k : Nat) (x : BitVec 64), x.toInt = z ∧ 3 * w.length + 1 ≤ k ∧
      termLoopDivs k x ⟨w, true⟩ ⊆ termLoopDivs n v ⟨fs.text ++ w, true⟩
  | .nil, n, v, w, z, hn, _, he => ⟨n, v, Option.some.inj he, hn, List.Subset.refl _⟩
  | .cons _ _ _ _, 0, _, _, _, hn, _, _ => by omega
  | .cons b op f fs, n + 1, v, w, z, hn, hw, he => by
    have htext : (Factors.cons b op f fs).text ++ w =
        b.1 ++ op.char :: (f.text ++ (fs.text ++ w)) := by
      simp [Factors.text]
    rw [htext] at hn ⊢
    have hlen : 3 * (f.text ++ (fs.text ++ w)).length + 3 ≤ n := by
      rw [List.length_append, List.length_cons] at hn
      omega
    rw [Factors.eval, Option.bind_eq_some_iff] at he
    obtain ⟨r, hr, he⟩ := he
    obtain ⟨y, hy, he⟩ := Option.bind_eq_some_iff.mp he
    obtain ⟨r', rfl, hrun⟩ := parseFactor_reads f n (by omega) (Or.inr (fs.numEnds hw)) hr
    rw [← op.machine_apply, Option.map_eq_some_iff] at hy
    obtain ⟨y', hm, rfl⟩ := hy
    rw [List.length_append] at hlen
    obtain ⟨k, x, hx, hk, hsub⟩ := termLoopDivs_behind fs n (by omega) hw he
    refine ⟨k, x, hx, hk, fun d hd => ?_⟩
    simp only [termLoopDivs_text, hrun]
    rw [if_neg (by decide), hm]
    exact List.mem_append_right _ (List.mem_append_right _ (hsub hd))

theorem termDivs_behind (t : Term) {n : Nat} {w : List UInt8} {z : Int}
    (hn : 3 * (t.text ++ w).length + 2 ≤ n) (hw : NumEnds w) (ht : t.eval = some z) :
    ∃ (k : Nat) (x : BitVec 64), x.toInt = z ∧ 3 * w.length + 1 ≤ k ∧
      termLoopDivs k x ⟨w, true⟩ ⊆ termDivs n ⟨t.text ++ w, true⟩ := by
  cases t with
  | mk f fs =>
    rw [Term.text, List.append_assoc] at hn ⊢
    rw [Term.eval, Option.bind_eq_some_iff] at ht
    obtain ⟨y, hy, ht⟩ := ht
    cases n with
    | zero => omega
    | succ n =>
      obtain ⟨v, rfl, hrun⟩ := parseFactor_reads f n (by omega) (Or.inr (fs.numEnds hw)) hy
      rw [List.length_append] at hn
      obtain ⟨k, x, hx, hk, hsub⟩ := termLoopDivs_behind fs n (by omega) hw ht
      refine ⟨k, x, hx, hk, fun d hd => ?_⟩
      rw [termDivs, hrun]
      exact List.mem_append_right _ (hsub hd)

theorem exprLoopDivs_skip (n : Nat) (v : BitVec 64) (s : Scan) :
    exprLoopDivs n v (skip s) = exprLoopDivs n v s := by
  cases n with
  | zero => rw [exprLoopDivs, exprLoopDivs]
  | succ n => rw [exprLoopDivs, exprLoopDivs, skip_skip]

/-- The loop of `parse_expr` behind the terms `ts` that it has read. -/
theorem exprLoopDivs_behind : ∀ (ts : Terms) (n : Nat) {v : BitVec 64} {w : List UInt8} {z : Int},
    3 * (ts.text ++ w).length + 2 ≤ n → TermEnds w → ts.eval v.toInt = some z →
    ∃ (k : Nat) (x : BitVec 64), x.toInt = z ∧ 3 * w.length + 2 ≤ k ∧
      exprLoopDivs k x ⟨w, true⟩ ⊆ exprLoopDivs n v ⟨ts.text ++ w, true⟩
  | .nil, n, v, w, z, hn, _, he => ⟨n, v, Option.some.inj he, hn, List.Subset.refl _⟩
  | .cons _ _ _ _, 0, _, _, _, hn, _, _ => by omega
  | .cons b op t ts, n + 1, v, w, z, hn, hw, he => by
    have htext : (Terms.cons b op t ts).text ++ w =
        b.1 ++ op.char :: (t.text ++ (ts.text ++ w)) := by
      simp [Terms.text]
    rw [htext] at hn ⊢
    have hlen : 3 * (t.text ++ (ts.text ++ w)).length + 4 ≤ n := by
      rw [List.length_append, List.length_cons] at hn
      omega
    rw [Terms.eval, Option.bind_eq_some_iff] at he
    obtain ⟨r, hr, he⟩ := he
    have hread := parseTerm_text t n (ts.text ++ w) (by omega) (ts.termEnds hw)
    rw [hr] at hread
    obtain ⟨r', rfl, hrun⟩ := hread
    rw [← op.machine_apply v r'] at he
    rw [List.length_append] at hlen
    obtain ⟨k, x, hx, hk, hsub⟩ := exprLoopDivs_behind ts n (by omega) hw he
    refine ⟨k, x, hx, hk, fun d hd => ?_⟩
    simp only [exprLoopDivs_text, hrun]
    refine List.mem_append_right _ ?_
    rw [if_neg (by decide)]
    have hd' := hsub hd
    rw [← exprLoopDivs_skip] at hd'
    exact hd'

theorem exprDivs_behind (e : Expr) {n : Nat} {w : List UInt8} {z : Int}
    (hn : 3 * (e.text ++ w).length + 3 ≤ n) (hw : TermEnds w) (he : e.eval = some z) :
    ∃ (k : Nat) (x : BitVec 64), x.toInt = z ∧ 3 * w.length + 2 ≤ k ∧
      exprLoopDivs k x ⟨w, true⟩ ⊆ exprDivs n ⟨e.text ++ w, true⟩ := by
  cases e with
  | mk t ts =>
    rw [Expr.text, List.append_assoc] at hn ⊢
    rw [Expr.eval, Option.bind_eq_some_iff] at he
    obtain ⟨y, hy, he⟩ := he
    cases n with
    | zero => omega
    | succ n =>
      have hread := parseTerm_text t n (ts.text ++ w) (by omega) (ts.termEnds hw)
      rw [hy] at hread
      obtain ⟨v, rfl, hrun⟩ := hread
      rw [List.length_append] at hn
      obtain ⟨k, x, hx, hk, hsub⟩ := exprLoopDivs_behind ts n (by omega) hw he
      refine ⟨k, x, hx, hk, fun d hd => ?_⟩
      rw [exprDivs, hrun]
      have hd' := hsub hd
      rw [← exprLoopDivs_skip] at hd'
      exact List.mem_append_right _ hd'

/-- What is carried out for the rest of the string, and how much fuel that needs. -/
def Level.divs : Level → Nat → Scan → List Division
  | expr => exprDivs
  | term => termDivs
  | factor => factorDivs

def Level.fuel : Level → Nat
  | expr => 3
  | term => 2
  | factor => 1

/-- One step of the fuel pays for a character. -/
theorem fuel_succ (b : Blanks) (c : UInt8) (w : List UInt8) {k : Nat}
    (hk : 3 * (b.1 ++ c :: w).length + 1 ≤ k) : ∃ j, k = j + 1 ∧ 3 * w.length + 3 ≤ j := by
  rw [List.length_append, List.length_cons] at hk
  exact ⟨k - 1, by omega, by omega⟩

theorem termEnds_addOp (b : Blanks) (op : AddOp) (w : List UInt8) :
    TermEnds (b.1 ++ op.char :: w) := by
  refine ⟨numEnds_blanks b (by cases op <;> rfl) w, fun op' => ?_⟩
  rw [skip_blanks_cons b (by cases op <;> rfl)]
  show op.char ≠ op'.char
  cases op <;> cases op' <;> decide

/-- Where the grammar lets an expression, a term or a factor follow, the parser reads one. -/
theorem Before.reads {l : Level} {p : List UInt8} (h : Before l p) : ∀ {w : List UInt8} {n : Nat},
    3 * (p ++ w).length + 3 ≤ n → ∃ k, 3 * w.length + l.fuel ≤ k ∧
      l.divs k ⟨w, true⟩ ⊆ exprDivs n ⟨p ++ w, true⟩ := by
  induction h with
  | start => exact fun hn => ⟨_, hn, List.Subset.refl _⟩
  | @paren p _ b ih =>
    intro w n hn
    have htext : p ++ (b.1 ++ [40]) ++ w = p ++ (b.1 ++ 40 :: w) := by simp
    rw [htext] at hn ⊢
    obtain ⟨k, hk, hsub⟩ := ih hn
    obtain ⟨j, rfl, hj⟩ := fuel_succ b 40 w hk
    refine ⟨j, hj, ?_⟩
    have hrun : factorDivs (j + 1) ⟨b.1 ++ 40 :: w, true⟩ = exprDivs j ⟨w, true⟩ := by
      rw [factorDivs, skip_blanks_cons b (by rfl)]
      rfl
    rw [Level.divs, hrun] at hsub
    exact hsub
  | @neg p _ b ih =>
    intro w n hn
    have htext : p ++ (b.1 ++ [45]) ++ w = p ++ (b.1 ++ 45 :: w) := by simp
    rw [htext] at hn ⊢
    obtain ⟨k, hk, hsub⟩ := ih hn
    obtain ⟨j, rfl, hj⟩ := fuel_succ b 45 w hk
    refine ⟨j, Nat.le_trans (Nat.add_le_add_left (by decide) _) hj, ?_⟩
    have hrun : factorDivs (j + 1) ⟨b.1 ++ 45 :: w, true⟩ = factorDivs j ⟨w, true⟩ := by
      rw [factorDivs, skip_blanks_cons b (by rfl)]
      rfl
    rw [Level.divs, hrun] at hsub
    exact hsub
  | @term p _ ih =>
    intro w n hn
    obtain ⟨k, hk, hsub⟩ := ih hn
    cases k with
    | zero => exact absurd hk (by simp [Level.fuel])
    | succ j =>
      refine ⟨j, Nat.le_of_succ_le_succ hk, fun d hd => hsub ?_⟩
      rw [Level.divs, exprDivs]
      exact List.mem_append_left _ hd
  | @nextTerm p _ e he b op ih =>
    intro w n hn
    have htext : p ++ (e.text ++ (b.1 ++ [op.char])) ++ w =
        p ++ (e.text ++ (b.1 ++ op.char :: w)) := by simp
    rw [htext] at hn ⊢
    obtain ⟨k, hk, hsub⟩ := ih hn
    obtain ⟨z, hz⟩ := Option.ne_none_iff_exists'.mp he
    obtain ⟨k', x, -, hk', hbehind⟩ := exprDivs_behind e hk (termEnds_addOp b op w) hz
    obtain ⟨j, rfl, hj⟩ := fuel_succ b op.char w (Nat.le_of_succ_le hk')
    refine ⟨j, Nat.le_of_succ_le hj, fun d hd => hsub (hbehind ?_)⟩
    rw [exprLoopDivs_text]
    exact List.mem_append_left _ hd
  | @factor p _ ih =>
    intro w n hn
    obtain ⟨k, hk, hsub⟩ := ih hn
    cases k with
    | zero => exact absurd hk (by simp [Level.fuel])
    | succ j =>
      refine ⟨j, Nat.le_of_succ_le_succ hk, fun d hd => hsub ?_⟩
      rw [Level.divs, termDivs]
      exact List.mem_append_left _ hd
  | @nextFactor p _ t ht b op ih =>
    intro w n hn
    have htext : p ++ (t.text ++ (b.1 ++ [op.char])) ++ w =
        p ++ (t.text ++ (b.1 ++ op.char :: w)) := by simp
    rw [htext] at hn ⊢
    obtain ⟨k, hk, hsub⟩ := ih hn
    obtain ⟨z, hz⟩ := Option.ne_none_iff_exists'.mp ht
    have hends := numEnds_blanks b (show isDigit op.char = false by cases op <;> rfl) w
    obtain ⟨k', x, -, hk', hbehind⟩ := termDivs_behind t hk hends hz
    obtain ⟨j, rfl, hj⟩ := fuel_succ b op.char w hk'
    refine ⟨j, Nat.le_trans (Nat.add_le_add_left (by decide) _) hj, fun d hd => hsub (hbehind ?_)⟩
    rw [termLoopDivs_text]
    exact List.mem_append_left _ hd

/-- **The divisions that are carried out** are those the string writes. -/
theorem mem_exprDivs {s : List UInt8} {fuel : Nat} (hf : 3 * s.length + 3 ≤ fuel)
    (v r : BitVec 64) : (v, r) ∈ exprDivs fuel ⟨s, true⟩ ↔ Divides s v.toInt r.toInt := by
  constructor
  · exact exprDivs_written fuel ⟨s, true⟩ hf (fun _ => ⟨[], .start, rfl⟩) (v, r)
  · intro h
    obtain ⟨p, t, b, op, f, rest, hp, rfl, hop, hends, ht, hfe, hr⟩ := h
    obtain ⟨k, hk, hsub⟩ := hp.reads hf
    have hnum := numEnds_blanks b (show isDigit op.char = false by cases op <;> rfl)
      (f.text ++ rest)
    obtain ⟨k', x, hx, hk', hbehind⟩ := termDivs_behind t hk hnum ht
    obtain rfl := BitVec.toInt_inj.mp hx
    -- the round that reads the operator carries the division out
    obtain ⟨j, rfl, hj⟩ := fuel_succ b op.char (f.text ++ rest) hk'
    have hj' : 3 * (f.text ++ rest).length + 1 ≤ j :=
      Nat.le_trans (Nat.add_le_add_left (by decide) _) hj
    obtain ⟨r', hr', hrun⟩ := parseFactor_reads f j hj' hends hfe
    obtain rfl := BitVec.toInt_inj.mp hr'
    refine hsub (hbehind ?_)
    simp only [termLoopDivs_text, hrun]
    refine List.mem_append_right _ ?_
    rw [if_neg (by decide)]
    have hne : r' ≠ 0 := fun h => hr (toInt_eq_zero.mpr h)
    cases op with
    | mul => exact absurd rfl hop
    | div | mod =>
      rw [MulOp.machine, if_neg hne]
      exact List.mem_cons_self ..

/-! ## Divide errors -/

/-- The machine stops the program. -/
def Faults (d : Division) : Prop := d.2 = 0 ∨ d.1 = BitVec.intMin 64 ∧ d.2 = -1

theorem toInt_eq_intMin {v : BitVec 64} : v = BitVec.intMin 64 ↔ v.toInt = -(2 ^ 63) := by
  rw [← BitVec.toInt_inj]
  exact Iff.rfl

theorem toInt_eq_neg_one {r : BitVec 64} : r = -1 ↔ r.toInt = -1 := by
  rw [← BitVec.toInt_inj]
  exact Iff.rfl

/-- **Evaluation never faults** exactly for the strings in which no term of the value `-2 ^ 63`
stands before a `/` or a `%` and a factor of the value -1, at a place that is reached. -/
theorem noFault_iff (s : CString) {fuel : Nat} (hf : 3 * s.1.length + 3 ≤ fuel) :
    (∀ d ∈ exprDivs fuel ⟨s.1, true⟩, ¬ Faults d) ↔ ¬ Divides s.1 (-(2 ^ 63)) (-1) := by
  constructor
  · intro h hdiv
    have hmem := (mem_exprDivs hf (BitVec.intMin 64) (-1)).mpr hdiv
    exact h _ hmem (Or.inr ⟨rfl, rfl⟩)
  · intro h d hd hfault
    have hdiv := (mem_exprDivs hf d.1 d.2).mp hd
    rcases hfault with hzero | hleast
    · -- a divisor of 0 is tested for
      obtain ⟨p, t, b, op, f, rest, -, -, -, -, -, -, hr⟩ := hdiv
      exact hr (toInt_eq_zero.mpr hzero)
    · rw [toInt_eq_intMin.mp hleast.1, toInt_eq_neg_one.mp hleast.2] at hdiv
      exact h hdiv

/-- `(1-8)`, a slash and `-1` -/
theorem noFault_iff_sample : ¬ Divides [40, 49, 45, 56, 41, 47, 45, 49] (-(2 ^ 63)) (-1) := by
  have h0 : 0 ∉ ([40, 49, 45, 56, 41, 47, 45, 49] : List UInt8) := by decide
  have hdivs : exprDivs 27 ⟨[40, 49, 45, 56, 41, 47, 45, 49], true⟩ = [(-7, -1)] := by
    decide +kernel
  refine (noFault_iff ⟨_, h0⟩ (Nat.le_refl 27)).mp fun d hd => ?_
  rw [hdivs] at hd
  obtain rfl := List.mem_singleton.mp hd
  exact fun h => h.elim (by decide) fun h => absurd h.1 (by decide)

/-- `-9223372036854775808`, a slash and `-1` -/
def leastByMinusOne : CString :=
  ⟨[45, 57, 50, 50, 51, 51, 55, 50, 48, 51, 54, 56, 53, 52, 55, 55, 53, 56, 48, 56, 47, 45, 49],
    by decide⟩

/-- It is divided, and the machine stops the program. -/
theorem leastByMinusOne_faults :
    ∃ d ∈ exprDivs (3 * leastByMinusOne.1.length + 3) ⟨leastByMinusOne.1, true⟩, Faults d :=
  ⟨(BitVec.intMin 64, -1), by decide +kernel, Or.inr ⟨rfl, rfl⟩⟩

end InaneOS.User
