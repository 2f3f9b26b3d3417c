import Mathlib.Data.List.DropRight
import Mathlib.Tactic.Common

/-!
# The expression evaluator: `user/expr.c`

A recursive descent evaluator over a global position and an error flag that the
caller sets to 1. An error only clears the flag; parsing goes on until the position
stops moving.

The position is the list of bytes still to be read, and reading behind the last one
gives the NUL. `long` is `BitVec 64`: the machine's sums, products, negations and
quotients wrap. The functions call each other, so the recursion is on fuel;
`exprEval_grammar` (in `Grammar`) says how much is enough.
-/

namespace InaneOS.User

/-- A C string: the bytes before its NUL. -/
abbrev CString : Type := { s : List UInt8 // 0 ∉ s }

/-- The static `pos` and the caller's `*ok`. -/
structure Scan where
  pos : List UInt8
  ok : Bool

/-- `*pos` -/
def Scan.peek (s : Scan) : UInt8 := s.pos.headD 0

/-- `pos++` -/
def Scan.next (s : Scan) : Scan := { s with pos := s.pos.tail }

/-- `*ok = 0` -/
def Scan.fail (s : Scan) : Scan := { s with ok := false }

def isBlank (c : UInt8) : Bool := c == 32 || c == 9

def isDigit (c : UInt8) : Bool := 48 ≤ c && c ≤ 57

def skip (s : Scan) : Scan := { s with pos := s.pos.dropWhile isBlank }

/-- The loop of `parse_num`, with `v` and `digits`. The count is an `int` there, of which only
whether it is 0 matters: a number that made it come round does not fit into memory. -/
def digitLoop : List UInt8 → BitVec 64 → Nat → BitVec 64 × Nat × List UInt8
  | [], v, digits => (v, digits, [])
  | c :: cs, v, digits =>
    if isDigit c then digitLoop cs (v * 10 + BitVec.ofNat 64 (c.toNat - 48)) (digits + 1)
    else (v, digits, c :: cs)

def parseNum (s : Scan) : BitVec 64 × Scan :=
  let s := skip s
  let (v, digits, rest) := digitLoop s.pos 0 0
  let s := { s with pos := rest }
  if digits = 0 then (v, s.fail) else (v, s)

mutual

def parseFactor : Nat → Scan → Option (BitVec 64 × Scan)
  | 0, _ => none
  | n + 1, s =>
    let s := skip s
    if s.peek = 40 then
      match parseExpr n s.next with
      | none => none
      | some (v, s) =>
        let s := skip s
        if s.peek ≠ 41 then some (v, s.fail) else some (v, s.next)
    else if s.peek = 45 then
      match parseFactor n s.next with
      | none => none
      | some (v, s) => some (-v, s)
    else some (parseNum s)

def parseTerm : Nat → Scan → Option (BitVec 64 × Scan)
  | 0, _ => none
  | n + 1, s =>
    match parseFactor n s with
    | none => none
    | some (v, s) => termLoop n v s

/-- The `for (;;)` of `parse_term`. -/
def termLoop : Nat → BitVec 64 → Scan → Option (BitVec 64 × Scan)
  | 0, _, _ => none
  | n + 1, v, s =>
    let s := skip s
    let op := s.peek
    if op ≠ 42 ∧ op ≠ 47 ∧ op ≠ 37 then some (v, s)
    else
      match parseFactor n s.next with
      | none => none
      | some (r, s) =>
        if s.ok = false then some (0, s)
        else if op = 42 then termLoop n (v * r) s
        else if r = 0 then termLoop n v s.fail
        else if op = 47 then termLoop n (v.sdiv r) s
        else termLoop n (v.srem r) s

def parseExpr : Nat → Scan → Option (BitVec 64 × Scan)
  | 0, _ => none
  | n + 1, s =>
    match parseTerm n s with
    | none => none
    | some (v, s) => exprLoop n v s

/-- The `for (;;)` of `parse_expr`. -/
def exprLoop : Nat → BitVec 64 → Scan → Option (BitVec 64 × Scan)
  | 0, _, _ => none
  | n + 1, v, s =>
    let s := skip s
    let op := s.peek
    if op ≠ 43 ∧ op ≠ 45 then some (v, s)
    else
      match parseTerm n s.next with
      | none => none
      | some (r, s) =>
        if s.ok = false then some (0, s)
        else exprLoop n (if op = 43 then v + r else v - r) s

end

/-- `expr_eval(s, &ok)`: the value and what is left in `ok`. -/
def exprEval (fuel : Nat) (s : List UInt8) (ok : Bool) : Option (BitVec 64 × Bool) :=
  match parseExpr fuel ⟨s, ok⟩ with
  | none => none
  | some (v, s) =>
    let s := skip s
    if s.peek ≠ 0 then some (v, false) else some (v, s.ok)

/-! ## Blanks and digits -/

theorem isDigit_of_isBlank {c : UInt8} (h : isBlank c = true) : isDigit c = false := by
  simp only [isBlank, Bool.or_eq_true, beq_iff_eq] at h
  rcases h with rfl | rfl <;> rfl

theorem isBlank_of_isDigit {c : UInt8} (h : isDigit c = true) : isBlank c = false := by
  refine Bool.eq_false_iff.mpr fun hb => ?_
  rw [isDigit_of_isBlank hb] at h
  exact absurd h (by simp)

theorem skip_blanks {b rest : List UInt8} (hb : ∀ c ∈ b, isBlank c = true) (ok : Bool) :
    skip ⟨b ++ rest, ok⟩ = skip ⟨rest, ok⟩ := by
  unfold skip
  rw [List.dropWhile_append_of_pos hb]

theorem skip_cons {c : UInt8} (hc : isBlank c = false) (rest : List UInt8) (ok : Bool) :
    skip ⟨c :: rest, ok⟩ = ⟨c :: rest, ok⟩ := by
  unfold skip
  rw [List.dropWhile_cons_of_neg (by rw [hc]; simp)]

theorem skip_skip (s : Scan) : skip (skip s) = skip s := by
  unfold skip
  rw [List.dropWhile_idempotent]

theorem skip_length (s : Scan) : (skip s).pos.length ≤ s.pos.length :=
  (List.dropWhile_suffix _).length_le

@[simp] theorem peek_cons (c : UInt8) (rest : List UInt8) (ok : Bool) :
    Scan.peek ⟨c :: rest, ok⟩ = c := rfl

@[simp] theorem next_cons (c : UInt8) (rest : List UInt8) (ok : Bool) :
    Scan.next ⟨c :: rest, ok⟩ = ⟨rest, ok⟩ := rfl

@[simp] theorem skip_ok (s : Scan) : (skip s).ok = s.ok := rfl

@[simp] theorem next_ok (s : Scan) : s.next.ok = s.ok := rfl

@[simp] theorem fail_ok (s : Scan) : s.fail.ok = false := rfl

@[simp] theorem fail_pos (s : Scan) : s.fail.pos = s.pos := rfl

/-- What `skip` leaves out is blank. -/
theorem exists_blanks (s : Scan) :
    ∃ b : List UInt8, (∀ c ∈ b, isBlank c = true) ∧ s.pos = b ++ (skip s).pos := by
  refine ⟨s.pos.takeWhile isBlank, fun c hc => ?_, List.takeWhile_append_dropWhile.symm⟩
  exact List.all_eq_true.mp List.all_takeWhile c hc

/-- A character other than the NUL is the head of what is left. -/
theorem pos_eq_cons {s : Scan} {c : UInt8} (h : s.peek = c) (hc : c ≠ 0) :
    s.pos = c :: s.next.pos := by
  obtain ⟨pos, ok⟩ := s
  cases pos with
  | nil => exact absurd h.symm hc
  | cons d rest =>
    have hd : d = c := h
    rw [hd]
    rfl

theorem next_length {s : Scan} {c : UInt8} (h : s.peek = c) (hc : c ≠ 0) :
    s.next.pos.length + 1 = s.pos.length := by
  rw [pos_eq_cons h hc, List.length_cons]

/-- The loop reads the digits at the front, all of them. -/
theorem digitLoop_digits : ∀ {ds rest : List UInt8} (v : BitVec 64) (k : Nat),
    (∀ d ∈ ds, isDigit d = true) → isDigit (rest.headD 0) = false →
    digitLoop (ds ++ rest) v k =
      (ds.foldl (fun v d => v * 10 + BitVec.ofNat 64 (d.toNat - 48)) v, k + ds.length, rest)
  | [], rest, v, k, _, hr => by
    cases rest with
    | nil => rfl
    | cons c cs =>
      have hc : isDigit c = false := hr
      rw [List.nil_append, digitLoop, if_neg (by rw [hc]; simp)]
      rfl
  | d :: ds, rest, v, k, hd, hr => by
    rw [List.cons_append, digitLoop, if_pos (hd d (by simp)),
      digitLoop_digits _ _ (fun x hx => hd x (List.mem_cons_of_mem _ hx)) hr, List.foldl_cons,
      List.length_cons, Nat.add_right_comm, Nat.add_assoc k]

/-- Some digits are at the front, and then something else. -/
theorem exists_digits (s : List UInt8) :
    ∃ ds rest : List UInt8, (∀ d ∈ ds, isDigit d = true) ∧ isDigit (rest.headD 0) = false ∧
      s = ds ++ rest := by
  refine ⟨s.takeWhile isDigit, s.dropWhile isDigit, fun d hd => ?_, ?_,
    List.takeWhile_append_dropWhile.symm⟩
  · exact List.all_eq_true.mp List.all_takeWhile d hd
  · have hhead := List.head?_dropWhile_not isDigit s
    cases hcs : s.dropWhile isDigit with
    | nil => decide
    | cons c cs =>
      rw [hcs] at hhead
      exact hhead

end InaneOS.User
