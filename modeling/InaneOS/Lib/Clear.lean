import InaneOS.Lib.Chain
import Mathlib.Data.Finset.Card
import Mathlib.Logic.Function.Basic

/-!
# Following links and clearing them

A loop follows a table `next` from cell to cell and overwrites each entry it has read
with a fixed value `z` that leads nowhere. So it reads what it has written itself, and
that is why it ends: on a cycle it comes back to an entry that is cleared by then.

`passed` is the list of the cells it clears. They are the cells that can be reached in
the table as it was (`mem_passed`), and the loop needs at most one round for each entry
that leads on, and two more (`passed_some`). On a chain nothing of this matters
(`passed_chain`).
-/

namespace InaneOS.Lib

variable {α : Type}

/-- The cells that following `next` from `c` leads to, as long as each is one to go on from. -/
inductive Follows (next : α → α) (go : α → Prop) (c : α) : α → Prop
  | start (h : go c) : Follows next go c c
  | step {x : α} (h : Follows next go c x) (hx : go (next x)) : Follows next go c (next x)

variable {next : α → α} {go : α → Prop} {c x z : α}

theorem Follows.first (h : Follows next go c x) : go c := by
  induction h with
  | start hc => exact hc
  | step _ _ ih => exact ih

theorem Follows.last (h : Follows next go c x) : go x := by
  cases h with
  | start hc => exact hc
  | step _ hx => exact hx

/-- The first cell, and what is reached from the next one. -/
theorem follows_next (hc : go c) : Follows next go c x ↔ x = c ∨ Follows next go (next c) x := by
  constructor
  · intro h
    induction h with
    | start _ => exact Or.inl rfl
    | @step y _ hy ih =>
      rcases ih with rfl | ih
      · exact Or.inr (.start hy)
      · exact Or.inr (ih.step hy)
  · intro h
    rcases h with rfl | h
    · exact .start hc
    · induction h with
      | start hn => exact (Follows.start hc).step hn
      | step _ hy ih => exact ih.step hy

/-- Only cells of a set that the links do not leave. -/
theorem Follows.mem {s : Set α} (h : Follows next go c x) (hc : c ∈ s)
    (hs : ∀ y ∈ s, go (next y) → next y ∈ s) : x ∈ s := by
  induction h with
  | start _ => exact hc
  | step _ hy ih => exact hs _ ih hy

variable [DecidableEq α]

/-- Only an entry that was not cleared leads on. -/
theorem go_update (hz : ¬ go z) (h : go (Function.update next c z x)) : x ≠ c ∧ go (next x) := by
  by_cases hxc : x = c
  · rw [hxc, Function.update_self] at h
    exact absurd h hz
  · rw [Function.update_of_ne hxc] at h
    exact ⟨hxc, h⟩

/-- Clearing a cell opens no way. -/
theorem Follows.of_clear {a : α} (hz : ¬ go z) (h : Follows (Function.update next c z) go a x) :
    Follows next go a x := by
  induction h with
  | start ha => exact .start ha
  | @step y _ hy ih =>
    obtain ⟨hyc, hgo⟩ := go_update hz hy
    rw [Function.update_of_ne hyc]
    exact ih.step hgo

/-- Once `c` is cleared there is no way through it, and none is needed: what it led to is
where the loop is. -/
theorem follows_clear (hz : ¬ go z) : x = c ∨ Follows next go (next c) x ↔
    x = c ∨ Follows (Function.update next c z) go (next c) x := by
  constructor
  · intro h
    rcases h with rfl | h
    · exact Or.inl rfl
    · induction h with
      | start hn => exact Or.inr (.start hn)
      | @step y _ hy ih =>
        by_cases hyc : y = c
        · rw [hyc] at hy ⊢
          exact Or.inr (.start hy)
        · have hsame : Function.update next c z y = next y := Function.update_of_ne hyc z next
          rw [← hsame] at hy ⊢
          exact Or.inr ((ih.resolve_left hyc).step hy)
  · exact fun h => h.imp_right (Follows.of_clear hz)

variable [DecidablePred go]

/-- The cells that are cleared from `c` on, in this order; nothing if `n` rounds do not suffice. -/
def passed (z : α) (go : α → Prop) [DecidablePred go] : Nat → α → (α → α) → Option (List α)
  | 0, _, _ => none
  | n + 1, c, next =>
    if go c then (passed z go n (next c) (Function.update next c z)).map (c :: ·) else some []

/-- **Exactly the cells reached are cleared.** -/
theorem mem_passed (hz : ¬ go z) : ∀ {n : Nat} {c : α} {next : α → α} {l : List α},
    passed z go n c next = some l → (x ∈ l ↔ Follows next go c x)
  | 0, _, _, _, h => absurd h (by simp [passed])
  | n + 1, c, next, l, h => by
    rw [passed] at h
    by_cases hc : go c
    · rw [if_pos hc, Option.map_eq_some_iff] at h
      obtain ⟨l', hl', rfl⟩ := h
      rw [List.mem_cons, mem_passed hz hl', follows_next hc]
      exact (follows_clear hz).symm
    · rw [if_neg hc] at h
      obtain rfl := Option.some.inj h
      exact iff_of_false List.not_mem_nil fun hx => hc hx.first

/-- Clearing an entry that leads on leaves fewer of these. -/
theorem card_clear_lt {s : Finset α} (hz : ¬ go z) (hc : c ∈ s) (hnext : go (next c)) :
    (s.filter fun x => go (Function.update next c z x)).card <
      (s.filter fun x => go (next x)).card := by
  have hsub : (s.filter fun x => go (Function.update next c z x)) ⊆
      s.filter fun x => go (next x) := by
    intro x hx
    obtain ⟨hxs, hx⟩ := Finset.mem_filter.mp hx
    exact Finset.mem_filter.mpr ⟨hxs, (go_update hz hx).2⟩
  apply Finset.card_lt_card
  apply (Finset.ssubset_iff_of_subset hsub).mpr
  refine ⟨c, Finset.mem_filter.mpr ⟨hc, hnext⟩, fun hx => ?_⟩
  exact (go_update hz (Finset.mem_filter.mp hx).2).1 rfl

/-- **The loop ends.** Each round but the last two clears an entry that leads on. -/
theorem passed_some {s : Finset α} (hz : ¬ go z) : ∀ {n : Nat} {c : α} {next : α → α},
    (∀ x ∈ s, go (next x) → next x ∈ s) → (go c → c ∈ s) →
    (s.filter fun x => go (next x)).card + 2 ≤ n → ∃ l, passed z go n c next = some l
  | 0, _, _, _, _, hn => absurd hn (by omega)
  | n + 1, c, next, hs, hc, hn => by
    rw [passed]
    by_cases hgo : go c
    · rw [if_pos hgo]
      by_cases hnext : go (next c)
      · have hone := card_clear_lt hz (hc hgo) hnext
        have hs' : ∀ x ∈ s, go (Function.update next c z x) → Function.update next c z x ∈ s := by
          intro x hxs hx
          obtain ⟨hxc, hgo'⟩ := go_update hz hx
          rw [Function.update_of_ne hxc]
          exact hs x hxs hgo'
        obtain ⟨l, hl⟩ := passed_some hz hs' (fun _ => hs c (hc hgo) hnext)
          (show _ + 2 ≤ n by omega)
        exact ⟨c :: l, by rw [hl]; rfl⟩
      · -- the next round finds nothing to go on from
        cases n with
        | zero => omega
        | succ n => exact ⟨[c], by rw [passed, if_neg hnext]; rfl⟩
    · exact ⟨[], if_neg hgo⟩

/-- On a chain the loop clears the chain: no cell comes up twice. -/
theorem passed_chain {stop : α → Prop} (hstop : ∀ x, stop x → ¬ go x) (z : α) (cs : List α) :
    ∀ {n : Nat} {c : α} {next : α → α}, Chain next stop c cs → (∀ x ∈ cs, go x) →
      cs.length < n → passed z go n c next = some cs := by
  induction cs with
  | nil =>
    intro n c next h _ hn
    cases n with
    | zero => exact absurd hn (Nat.not_lt_zero _)
    | succ n => rw [passed, if_neg (hstop c h)]
  | cons a cs ih =>
    intro n c next h hgo hn
    cases n with
    | zero => exact absurd hn (Nat.not_lt_zero _)
    | succ n =>
      have hnot : a ∉ cs := (List.nodup_cons.mp h.nodup).1
      obtain ⟨rfl, -, hrest⟩ := h
      have hrest' : Chain (Function.update next c z) stop (next c) cs :=
        hrest.congr fun y hy => Function.update_of_ne (ne_of_mem_of_not_mem hy hnot) z next
      rw [passed, if_pos (hgo c (by simp)),
        ih hrest' (fun x hx => hgo x (List.mem_cons_of_mem _ hx)) (Nat.lt_of_succ_lt_succ hn)]
      rfl

end InaneOS.Lib
