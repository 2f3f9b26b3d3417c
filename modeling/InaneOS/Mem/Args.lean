import InaneOS.Mem.Filled
import InaneOS.Mem.Run

/-!
# The arguments on the stack

What `enter_program` puts into the upper stack page and what `_start` finds there. The
name goes to the top, the argument below it, each rounded up to 8 bytes; below both come
`argc`, the pointers and the closing null, rounded down to 16. `Stands` says that bytes
are in memory where a program sees them; a write keeps what stands elsewhere
(`putUserBytes_stands`), so what matters is that the regions are disjoint for every pair
of lengths (`argLayout_apart`).

`ArgPage` is what the writes need: the page leads to a frame that is no page table.
`Load.argPage` says that a call of `enter_program` has seen to it.
-/

namespace InaneOS.Mem

open InaneOS.Lib

/-! ## What a program reads -/

/-- The byte at a virtual address. -/
def userByte (m : Mach) (va : Nat) : Nat := byteAt m (vmmPhys va m)

/-- The number in the `n` bytes at a virtual address. -/
def userLe (m : Mach) : Nat → Nat → Nat
  | 0, _ => 0
  | n + 1, va => userByte m va + 256 * userLe m n (va + 1)

/-- A word of eight bytes. -/
def userWord (m : Mach) (va : Nat) : Nat := userLe m 8 va

/-- The bytes `bs` are in memory from `va` on. -/
def Stands (m : Mach) (va : Nat) (bs : List Nat) : Prop :=
  ∀ (k : Nat) (hk : k < bs.length), userByte m (va + k) = bs[k]

/-- The string `s` and its NUL are in memory at `va`. -/
def UserStr (m : Mach) (va : Nat) (s : List Nat) : Prop := Stands m va (s ++ [0])

/-- `_start`: `argc` is popped from the stack, and `argv` is the stack pointer behind it. -/
def startRegs (m : Mach) (sp : Nat) : Nat × Nat := (userWord m sp, sp + 8)

/-- `argv[i]` -/
def argvAt (m : Mach) (argv i : Nat) : Nat := userWord m (argv + 8 * i)

/-! ## The regions -/

/-- A region, by its start and its length, lies inside the two stack pages. -/
def InStack (r : Nat × Nat) : Prop := ustackBase ≤ r.1 ∧ r.1 + r.2 ≤ ustackTop

def RegionsApart (r r' : Nat × Nat) : Prop := r.1 + r.2 ≤ r'.1 ∨ r'.1 + r'.2 ≤ r.1

/-- The slots, the name and the argument: what the program was given, as `_start` finds it. -/
def argRegions (m : Mach) (sp : Nat) (name arg : List Nat) : List (Nat × Nat) :=
  let (argc, argv) := startRegs m sp
  (sp, 8 * (argc + 2)) :: (argvAt m argv 0, name.length + 1) ::
    if arg = [] then [] else [(argvAt m argv 1, arg.length + 1)]

/-- What a program finds behind the stack pointer `sp`. -/
structure ArgsAt (m : Mach) (sp : Nat) (name arg : List Nat) : Prop where
  argc : (startRegs m sp).1 = if arg = [] then 1 else 2
  argv0 : UserStr m (argvAt m (startRegs m sp).2 0) name
  argv1 : arg ≠ [] → UserStr m (argvAt m (startRegs m sp).2 1) arg
  null : argvAt m (startRegs m sp).2 (startRegs m sp).1 = 0
  aligned : sp % 16 = 0
  inside : ∀ r ∈ argRegions m sp name arg, InStack r
  apart : (argRegions m sp name arg).Pairwise RegionsApart

/-- The upper stack page leads to the frame `f`, which is no page table. -/
structure ArgPage (m : Mach) (f : Nat) : Prop where
  nonnull : f ≠ 0
  noTable : ¬ IsTable m f
  phys : ∀ va, va / 4096 = 0x40001 → vmmPhys va m = f * 4096 + va % 4096

/-! ## Writing -/

section Writing

variable {m : Mach} {f : Nat}

/-- One byte: it is there, and every other byte of the page is as before. -/
theorem ArgPage.put (h : ArgPage m f) {va b : Nat} (hva : va / 4096 = 0x40001) (hb : b < 256) :
    ArgPage (putUser va b m) f ∧ ∀ va', va' / 4096 = 0x40001 →
      userByte (putUser va b m) va' = if va' = va then b else userByte m va' := by
  have hphys := h.phys va hva
  have hput : putUser va b m = pokeByte (f * 4096 + va % 4096) b m := by
    have hne : f * 4096 + va % 4096 ≠ 0 := by
      have := h.nonnull
      omega
    rw [putUser, hphys, if_neg hne]
  -- the frame is no page table, so the way to the page stays the same
  have hsame : SameTables m (putUser va b m) := by
    rw [hput]
    refine sameTables_of_frame h.noTable rfl fun g hg => pokeByte_frame b m ?_
    rw [show (f * 4096 + va % 4096) / 4096 = f by omega]
    exact hg
  have hkeep : ∀ va', va' / 4096 = 0x40001 → vmmPhys va' (putUser va b m) = f * 4096 + va' % 4096 :=
    fun va' hva' => (hsame.phys va').trans (h.phys va' hva')
  refine ⟨⟨h.nonnull, fun ht => h.noTable ((hsame.isTable f).mp ht), hkeep⟩, fun va' hva' => ?_⟩
  unfold userByte
  rw [hkeep va' hva', h.phys va' hva', hput]
  have hbyte := byteAt_storeByte (f * 4096 + va % 4096) hb m (f * 4096 + va' % 4096)
  have hmem : byteAt (storeByte (f * 4096 + va % 4096) b m) (f * 4096 + va' % 4096) =
      byteAt (pokeByte (f * 4096 + va % 4096) b m) (f * 4096 + va' % 4096) := rfl
  rw [← hmem, hbyte]
  by_cases heq : va' = va
  · rw [if_pos heq, if_pos (by rw [heq])]
  · rw [if_neg heq, if_neg (by omega)]

/-- Several bytes. -/
theorem ArgPage.puts : ∀ (bs : List Nat) {va : Nat} {m : Mach}, ArgPage m f →
    (∀ b ∈ bs, b < 256) → 0x40001000 ≤ va → va + bs.length ≤ 0x40002000 →
    ArgPage (putUserBytes bs va m) f ∧ Stands (putUserBytes bs va m) va bs ∧
      ∀ va', va' / 4096 = 0x40001 → (va' < va ∨ va + bs.length ≤ va') →
        userByte (putUserBytes bs va m) va' = userByte m va'
  | [], va, m, h, _, _, _ => ⟨h, fun k hk => absurd hk (Nat.not_lt_zero k), fun _ _ _ => rfl⟩
  | b :: bs, va, m, h, hb, hlo, hhi => by
    rw [List.length_cons] at hhi
    obtain ⟨hone, hbyte⟩ := h.put (show va / 4096 = 0x40001 by omega) (hb b (by simp))
    have hlo' : 0x40001000 ≤ va + 1 := Nat.le_succ_of_le hlo
    obtain ⟨hpage, hstands, hkeep⟩ := ArgPage.puts bs hone
      (fun b' hb' => hb b' (List.mem_cons_of_mem _ hb')) hlo' (by omega)
    refine ⟨hpage, fun k hk => ?_, fun va' hva' hout => ?_⟩
    · rw [putUserBytes]
      cases k with
      | zero =>
        show userByte (putUserBytes bs (va + 1) (putUser va b m)) va = b
        -- the bytes behind it leave the first one alone
        rw [hkeep va (by omega) (Or.inl (by omega)), hbyte va (by omega), if_pos rfl]
      | succ k =>
        rw [show va + (k + 1) = va + 1 + k by omega]
        exact hstands k (Nat.lt_of_succ_lt_succ hk)
    · rw [List.length_cons] at hout
      rw [putUserBytes, hkeep va' hva' (by omega), hbyte va' hva', if_neg (by omega)]

/-- Regions written one after the other. -/
def putAll (ws : List (Nat × List Nat)) (m : Mach) : Mach :=
  ws.foldl (fun m w => putUserBytes w.2 w.1 m) m

/-- The bytes of a write, inside the upper stack page. -/
def InPage (w : Nat × List Nat) : Prop :=
  (∀ b ∈ w.2, b < 256) ∧ 0x40001000 ≤ w.1 ∧ w.1 + w.2.length ≤ 0x40002000

/-- What stands in the page stays while other regions of it are written. -/
theorem putAll_keeps {va : Nat} {bs : List Nat} (hlo : 0x40001000 ≤ va)
    (hhi : va + bs.length ≤ 0x40002000) : ∀ (ws : List (Nat × List Nat)) {m : Mach},
    ArgPage m f → (∀ w ∈ ws, InPage w) →
    (∀ w ∈ ws, RegionsApart (va, bs.length) (w.1, w.2.length)) → Stands m va bs →
    Stands (putAll ws m) va bs
  | [], _, _, _, _, hst => hst
  | w :: ws, m, h, hin, hapart, hst => by
    obtain ⟨hb, h0, h1⟩ := hin w (by simp)
    obtain ⟨hpage, -, hkeep⟩ := ArgPage.puts w.2 h hb h0 h1
    have hw := hapart w (by simp)
    unfold RegionsApart at hw
    dsimp only at hw
    refine putAll_keeps hlo hhi ws hpage (fun x hx => hin x (List.mem_cons_of_mem _ hx))
      (fun x hx => hapart x (List.mem_cons_of_mem _ hx)) fun k hk => ?_
    rw [hkeep _ (by omega) (by omega)]
    exact hst k hk

/-- **The last write to a region stands.** -/
theorem putAll_stands {va : Nat} {bs : List Nat} : ∀ (before : List (Nat × List Nat))
    {after : List (Nat × List Nat)} {m : Mach}, ArgPage m f →
    (∀ w ∈ before ++ (va, bs) :: after, InPage w) →
    (∀ w ∈ after, RegionsApart (va, bs.length) (w.1, w.2.length)) →
    Stands (putAll (before ++ (va, bs) :: after) m) va bs
  | [], after, m, h, hin, hapart => by
    obtain ⟨hb, h0, h1⟩ := hin (va, bs) (by simp)
    obtain ⟨hpage, hst, -⟩ := ArgPage.puts bs h hb h0 h1
    exact putAll_keeps h0 h1 after hpage (fun w hw => hin w (by simp [hw])) hapart hst
  | w :: before, after, m, h, hin, hapart => by
    obtain ⟨hb, h0, h1⟩ := hin w (by simp)
    obtain ⟨hpage, -, -⟩ := ArgPage.puts w.2 h hb h0 h1
    exact putAll_stands before hpage (fun x hx => hin x (List.mem_cons_of_mem _ hx)) hapart

end Writing

/-! ## Slots -/

theorem userLe_eq {m : Mach} : ∀ (n : Nat) {va w : Nat},
    (∀ k < n, userByte m (va + k) = w / 256 ^ k % 256) → userLe m n va = w % 256 ^ n
  | 0, va, w, _ => (Nat.mod_one w).symm
  | n + 1, va, w, h => by
    have hfirst := h 0 (Nat.succ_pos n)
    rw [Nat.add_zero, Nat.pow_zero, Nat.div_one] at hfirst
    have hrest : userLe m n (va + 1) = w / 256 % 256 ^ n := by
      refine userLe_eq n fun k hk => ?_
      rw [show va + 1 + k = va + (k + 1) by omega, h (k + 1) (Nat.succ_lt_succ hk), Nat.pow_succ',
        Nat.div_div_eq_div_mul]
    rw [userLe, hfirst, hrest, Nat.pow_succ', Nat.mod_mul]

/-- A slot is read as it was written. -/
theorem userWord_slot {m : Mach} {va w : Nat} (h : Stands m va (leBytes w)) (hw : w < 2 ^ 64) :
    userWord m va = w := by
  have hbytes : ∀ k < 8, userByte m (va + k) = w / 256 ^ k % 256 := by
    intro k hk
    rw [h k (by rw [leBytes_length]; exact hk)]
    simp only [leBytes, List.getElem_map, List.getElem_range]
  rw [userWord, userLe_eq 8 hbytes]
  exact Nat.mod_eq_of_lt hw

theorem leBytes_lt (w : Nat) : ∀ b ∈ leBytes w, b < 256 := by
  intro b hb
  obtain ⟨k, -, rfl⟩ := List.mem_map.mp hb
  exact Nat.mod_lt _ (by decide)

/-! ## The layout -/

/-- The addresses `enter_program` computes: the name, the argument and the slots. -/
def namePtr (name : List Nat) : Nat := ustackTop - (name.length + 8) / 8 * 8

def argPtr (name arg : List Nat) : Nat := namePtr name - (arg.length + 8) / 8 * 8

def slotPtr (name arg : List Nat) : Nat :=
  if arg = [] then (namePtr name - (1 + 2) * 8) / 16 * 16
  else (argPtr name arg - (2 + 2) * 8) / 16 * 16

/-- **The regions do not meet**, whatever the lengths are. -/
theorem argLayout {name arg : List Nat} (hname : name.length ≤ 31) (harg : arg.length ≤ 127) :
    slotPtr name arg % 16 = 0 ∧ 0x40001000 ≤ slotPtr name arg ∧
    namePtr name + (name.length + 1) ≤ 0x40002000 ∧
    (arg = [] → slotPtr name arg + 24 ≤ namePtr name) ∧
    (arg ≠ [] → slotPtr name arg + 32 ≤ argPtr name arg ∧
      argPtr name arg + (arg.length + 1) ≤ namePtr name) := by
  unfold slotPtr argPtr namePtr ustackTop
  by_cases hnil : arg = []
  · rw [if_pos hnil]
    exact ⟨by omega, by omega, by omega, fun _ => by omega, fun hne => absurd hnil hne⟩
  · rw [if_neg hnil]
    exact ⟨by omega, by omega, by omega, fun h => absurd h hnil, fun _ => ⟨by omega, by omega⟩⟩

/-- What `enter_program` writes, in this order. -/
def argWrites (name arg : List Nat) : List (Nat × List Nat) :=
  let s := slotPtr name arg
  if arg = [] then
    [(namePtr name, name ++ [0]), (s, leBytes 1), (s + 8, leBytes (namePtr name)),
      (s + 16, leBytes 0), (s + 16, leBytes 0), (s + 8 * (1 + 1), leBytes 0)]
  else
    [(namePtr name, name ++ [0]), (argPtr name arg, arg ++ [0]), (s, leBytes 2),
      (s + 8, leBytes (namePtr name)), (s + 16, leBytes (argPtr name arg)),
      (s + 8 * (1 + 2), leBytes 0)]

theorem pushArgs_eq (name arg : List Nat) (m : Mach) :
    pushArgs name arg m = (slotPtr name arg, putAll (argWrites name arg) m) := by
  unfold pushArgs argWrites slotPtr argPtr namePtr
  dsimp only
  by_cases hnil : arg = []
  · rw [if_pos hnil, if_pos hnil, if_pos hnil]
    simp only [putAll, List.foldl_cons, List.foldl_nil, show (1 : Nat) < 2 by decide, if_true]
  · rw [if_neg hnil, if_neg hnil, if_neg hnil]
    simp only [putAll, List.foldl_cons, List.foldl_nil, Nat.lt_irrefl, if_false]

theorem inPage_slot {va : Nat} (w : Nat) (hlo : 0x40001000 ≤ va) (hhi : va + 8 ≤ 0x40002000) :
    InPage (va, leBytes w) :=
  ⟨leBytes_lt w, hlo, by rw [leBytes_length]; exact hhi⟩

theorem inPage_str {va : Nat} {s : List Nat} (hs : ∀ b ∈ s, b < 256) (hlo : 0x40001000 ≤ va)
    (hhi : va + (s.length + 1) ≤ 0x40002000) : InPage (va, s ++ [0]) := by
  refine ⟨fun b hb => ?_, hlo, by rw [List.length_append, List.length_singleton]; exact hhi⟩
  rcases List.mem_append.mp hb with hb | hb
  · exact hs b hb
  · rw [List.mem_singleton.mp hb]
    decide

section Push

variable {m : Mach} {f : Nat} {name arg : List Nat}

/-- The stack without an argument: three slots below the name. -/
theorem argWrites_name (h : ArgPage m f) (hname : name.length ≤ 31) (hb : ∀ b ∈ name, b < 256) :
    let m' := putAll (argWrites name []) m
    userWord m' (slotPtr name []) = 1 ∧ userWord m' (slotPtr name [] + 8) = namePtr name ∧
      userWord m' (slotPtr name [] + 16) = 0 ∧ UserStr m' (namePtr name) name := by
  obtain ⟨-, hlo, htop, hslots, -⟩ := @argLayout name [] hname (by decide)
  have hslots := hslots rfl
  unfold argWrites UserStr
  rw [if_pos rfl]
  -- from here on only the bounds of `argLayout` count, not the rounding
  obtain ⟨s, hs⟩ : ∃ s, slotPtr name [] = s := ⟨_, rfl⟩
  obtain ⟨n, hn⟩ : ∃ n, namePtr name = n := ⟨_, rfl⟩
  have hlen : (name ++ [0]).length = name.length + 1 := by simp
  rw [hs] at hlo hslots ⊢
  rw [hn] at htop hslots ⊢
  have hin : ∀ w ∈ [(n, name ++ [0]), (s, leBytes 1), (s + 8, leBytes n), (s + 16, leBytes 0),
      (s + 16, leBytes 0), (s + 8 * (1 + 1), leBytes 0)], InPage w := by
    simp only [List.forall_mem_cons]
    refine ⟨inPage_str hb (by omega) (by omega), inPage_slot _ (by omega) (by omega),
      inPage_slot _ (by omega) (by omega), inPage_slot _ (by omega) (by omega),
      inPage_slot _ (by omega) (by omega), inPage_slot _ (by omega) (by omega), by simp⟩
  refine ⟨userWord_slot (putAll_stands [(n, name ++ [0])] h hin ?_) (by decide),
    userWord_slot (putAll_stands [(n, name ++ [0]), (s, leBytes 1)] h hin ?_) (by omega),
    userWord_slot (putAll_stands [(n, name ++ [0]), (s, leBytes 1), (s + 8, leBytes n),
      (s + 16, leBytes 0), (s + 16, leBytes 0)] h hin ?_) (by decide),
    putAll_stands [] h hin ?_⟩
  · simp only [List.forall_mem_cons, leBytes_length]
    exact ⟨Or.inl (by omega), Or.inl (by omega), Or.inl (by omega), Or.inl (by omega), by simp⟩
  · simp only [List.forall_mem_cons, leBytes_length]
    exact ⟨Or.inl (by omega), Or.inl (by omega), Or.inl (by omega), by simp⟩
  · simp
  · simp only [List.forall_mem_cons, leBytes_length, hlen]
    exact ⟨Or.inr (by omega), Or.inr (by omega), Or.inr (by omega), Or.inr (by omega),
      Or.inr (by omega), by simp⟩

/-- With an argument: four slots below the argument. -/
theorem argWrites_arg (h : ArgPage m f) (hname : name.length ≤ 31) (hb : ∀ b ∈ name, b < 256)
    (harg : arg.length ≤ 127) (hb' : ∀ b ∈ arg, b < 256) (hne : arg ≠ []) :
    let m' := putAll (argWrites name arg) m
    userWord m' (slotPtr name arg) = 2 ∧ userWord m' (slotPtr name arg + 8) = namePtr name ∧
      userWord m' (slotPtr name arg + 16) = argPtr name arg ∧
      userWord m' (slotPtr name arg + 24) = 0 ∧ UserStr m' (namePtr name) name ∧
      UserStr m' (argPtr name arg) arg := by
  obtain ⟨-, hlo, htop, -, hslots⟩ := argLayout hname harg
  obtain ⟨hbelow, hmid⟩ := hslots hne
  unfold argWrites UserStr
  rw [if_neg hne]
  obtain ⟨s, hs⟩ : ∃ s, slotPtr name arg = s := ⟨_, rfl⟩
  obtain ⟨n, hn⟩ : ∃ n, namePtr name = n := ⟨_, rfl⟩
  obtain ⟨a, ha⟩ : ∃ a, argPtr name arg = a := ⟨_, rfl⟩
  have hlen : (name ++ [0]).length = name.length + 1 := by simp
  have hlen' : (arg ++ [0]).length = arg.length + 1 := by simp
  rw [hs] at hlo hbelow ⊢
  rw [hn] at htop hmid ⊢
  rw [ha] at hbelow hmid ⊢
  have hin : ∀ w ∈ [(n, name ++ [0]), (a, arg ++ [0]), (s, leBytes 2), (s + 8, leBytes n),
      (s + 16, leBytes a), (s + 8 * (1 + 2), leBytes 0)], InPage w := by
    simp only [List.forall_mem_cons]
    refine ⟨inPage_str hb (by omega) (by omega), inPage_str hb' (by omega) (by omega),
      inPage_slot _ (by omega) (by omega), inPage_slot _ (by omega) (by omega),
      inPage_slot _ (by omega) (by omega), inPage_slot _ (by omega) (by omega), by simp⟩
  refine ⟨userWord_slot (putAll_stands [(n, name ++ [0]), (a, arg ++ [0])] h hin ?_) (by decide),
    userWord_slot (putAll_stands [(n, name ++ [0]), (a, arg ++ [0]), (s, leBytes 2)] h hin ?_)
      (by omega),
    userWord_slot (putAll_stands [(n, name ++ [0]), (a, arg ++ [0]), (s, leBytes 2),
      (s + 8, leBytes n)] h hin ?_) (by omega),
    userWord_slot (putAll_stands [(n, name ++ [0]), (a, arg ++ [0]), (s, leBytes 2),
      (s + 8, leBytes n), (s + 16, leBytes a)] h hin ?_) (by decide),
    putAll_stands [] h hin ?_, putAll_stands [(n, name ++ [0])] h hin ?_⟩
  · simp only [List.forall_mem_cons, leBytes_length]
    exact ⟨Or.inl (by omega), Or.inl (by omega), Or.inl (by omega), by simp⟩
  · simp only [List.forall_mem_cons, leBytes_length]
    exact ⟨Or.inl (by omega), Or.inl (by omega), by simp⟩
  · simp only [List.forall_mem_cons, leBytes_length]
    exact ⟨Or.inl (by omega), by simp⟩
  · simp
  · simp only [List.forall_mem_cons, leBytes_length, hlen, hlen']
    exact ⟨Or.inr (by omega), Or.inr (by omega), Or.inr (by omega), Or.inr (by omega),
      Or.inr (by omega), by simp⟩
  · simp only [List.forall_mem_cons, leBytes_length, hlen']
    exact ⟨Or.inr (by omega), Or.inr (by omega), Or.inr (by omega), Or.inr (by omega), by simp⟩

/-- **What the program finds.** -/
theorem pushArgs_argsAt (h : ArgPage m f) (hname : name.length ≤ 31) (hb : ∀ b ∈ name, b < 256)
    (harg : arg.length ≤ 127) (hb' : ∀ b ∈ arg, b < 256) :
    ArgsAt (putAll (argWrites name arg) m) (slotPtr name arg) name arg := by
  obtain ⟨halign, hlo, htop, hslots, hslots'⟩ := argLayout hname harg
  by_cases hnil : arg = []
  · subst hnil
    have hslots := hslots rfl
    obtain ⟨hargc, hname0, hnull, hstr⟩ := argWrites_name h hname hb
    have hregions : argRegions (putAll (argWrites name []) m) (slotPtr name []) name [] =
        [(slotPtr name [], 24), (namePtr name, name.length + 1)] := by
      unfold argRegions startRegs argvAt
      dsimp only
      rw [hargc, Nat.mul_zero, Nat.add_zero, hname0, if_pos rfl]
    refine ⟨hargc, ?_, fun hne => absurd rfl hne, ?_, halign, ?_, ?_⟩
    · show UserStr _ (userWord _ (slotPtr name [] + 8 + 8 * 0)) name
      rw [Nat.mul_zero, Nat.add_zero, hname0]
      exact hstr
    · show userWord _ (slotPtr name [] + 8 + 8 * userWord _ (slotPtr name [])) = 0
      rw [hargc]
      exact hnull
    · rw [hregions]
      unfold InStack ustackBase ustackTop
      simp only [List.forall_mem_cons]
      exact ⟨⟨by omega, by omega⟩, ⟨by omega, by omega⟩, by simp⟩
    · rw [hregions]
      unfold RegionsApart
      simp only [List.pairwise_cons, List.forall_mem_cons]
      exact ⟨⟨Or.inl (by omega), by simp⟩, by simp⟩
  · obtain ⟨hbelow, hmid⟩ := hslots' hnil
    obtain ⟨hargc, hname0, harg1, hnull, hstr, hstr'⟩ := argWrites_arg h hname hb harg hb' hnil
    have hregions : argRegions (putAll (argWrites name arg) m) (slotPtr name arg) name arg =
        [(slotPtr name arg, 32), (namePtr name, name.length + 1),
          (argPtr name arg, arg.length + 1)] := by
      unfold argRegions startRegs argvAt
      dsimp only
      rw [hargc, Nat.mul_zero, Nat.add_zero, hname0, if_neg hnil, Nat.mul_one, Nat.add_assoc, harg1]
    refine ⟨?_, ?_, fun _ => ?_, ?_, halign, ?_, ?_⟩
    · rw [if_neg hnil]
      exact hargc
    · show UserStr _ (userWord _ (slotPtr name arg + 8 + 8 * 0)) name
      rw [Nat.mul_zero, Nat.add_zero, hname0]
      exact hstr
    · show UserStr _ (userWord _ (slotPtr name arg + 8 + 8 * 1)) arg
      rw [Nat.mul_one, Nat.add_assoc, harg1]
      exact hstr'
    · show userWord _ (slotPtr name arg + 8 + 8 * userWord _ (slotPtr name arg)) = 0
      rw [hargc, Nat.add_assoc]
      exact hnull
    · rw [hregions]
      unfold InStack ustackBase ustackTop
      simp only [List.forall_mem_cons]
      exact ⟨⟨by omega, by omega⟩, ⟨by omega, by omega⟩, ⟨by omega, by omega⟩, by simp⟩
    · rw [hregions]
      unfold RegionsApart
      simp only [List.pairwise_cons, List.forall_mem_cons]
      exact ⟨⟨Or.inl (by omega), Or.inl (by omega), by simp⟩, ⟨Or.inr (by omega), by simp⟩, by simp⟩

end Push

/-! ## The call -/

/-- A load that has mapped the upper stack page leaves it ready for the arguments. -/
theorem Load.argPage {I : Nat → Prop} {m₁ m : Mach} {ms : List Mapping} {l : List Nat}
    (h : Load I m₁ ms l [] m) (hw₁ : Wf m₁) (hin : 0x40001 ∈ pages ms) : ∃ f, ArgPage m f := by
  obtain ⟨x, hx, -, hpte⟩ := h.pte_mapped (show 0x40001 < 2 ^ 36 by decide) hin
  have hframe : x.frame ∈ frames ms := List.mem_map.mpr ⟨x, hx, rfl⟩
  refine ⟨x.frame, h.nonnull _ (Or.inl hframe), h.frame_not_table hw₁ hframe, fun va hva => ?_⟩
  have hphys := vmmPhys_eq m (va / 4096) (show va % 4096 < 4096 from Nat.mod_lt _ (by omega))
  rw [hva, hpte, if_pos (leafEntry_present _ _), leafEntry_frame,
    Nat.mul_div_cancel _ (by decide : 0 < 4096), show 0x40001 * 4096 + va % 4096 = va by omega]
    at hphys
  exact hphys

/-- **Arguments reach the program**: whenever `enter_program` has the image and the stack page,
for every name and every argument that fit their buffers. -/
theorem enterProgram_args {mods : List Module} {idx : Int} {mod : Module} (h0 : 0 ≤ idx)
    (hmod : mods[idx.toNat]? = some mod) (hname : mod.name.length ≤ 31)
    (hb : ∀ b ∈ mod.name, b < 256) {arg : List Nat} (harg : arg.length ≤ 127)
    (hb' : ∀ b ∈ arg, b < 256) {m : Mach} {entry : Nat}
    (hload : (loadProgram mod.start (mod.fin - mod.start) m).1 = some entry) {f : Nat}
    (hstack : ArgPage (loadProgram mod.start (mod.fin - mod.start) m).2 f) :
    ∃ sp m', enterProgram mods idx arg m = (some (entry, sp), m') ∧
      ArgsAt m' sp mod.name arg := by
  have henter := enterProgram_some h0 hmod arg hload
  rw [pushArgs_eq] at henter
  exact ⟨_, _, henter, pushArgs_argsAt hstack hname hb harg hb'⟩

/-- The first call, with memory enough, comes to the arguments. -/
theorem Boot.first_argPage (b : Boot) {mod : Module} (hmod : mod ∈ b.mods)
    (hwrap : NoWrap b.mach mod.start (mod.fin - mod.start))
    (hacc : (elfPlan b.mach mod.start (mod.fin - mod.start)).2 = true)
    (hlen : 2 * (elfPlan b.mach mod.start (mod.fin - mod.start)).1.length + 3 ≤
      (stock b.mach).length) :
    ∃ entry f, (loadProgram mod.start (mod.fin - mod.start) b.mach).1 = some entry ∧
      ArgPage (loadProgram mod.start (mod.fin - mod.start) b.mach).2 f := by
  have hreg := b.pmm_spec.2.2.2 mod hmod
  obtain ⟨-, hw₁, ms, l, sp, hload, -, -, -, hdone, hfail⟩ := loadProgram_ready
    (b.running_mach.ready b.apart_mach hmod) hreg.bound.1 rfl hwrap (fun _ _ => trivial)
    (fun _ _ _ _ _ _ => in_true _ _)
    (@lasts_of_length (fun _ => True) True _ _ _ (fun _ _ => trivial) hlen)
  cases hres : (loadProgram mod.start (mod.fin - mod.start) b.mach).1 with
  | none =>
    rcases hfail hres with hno | hshort
    · exact absurd (hacc.symm.trans hno) (by decide)
    · omega
  | some entry =>
    obtain ⟨-, rfl, hin⟩ := hdone (by rw [hres]; rfl)
    obtain ⟨f, hpage⟩ := hload.argPage hw₁ hin
    exact ⟨entry, f, rfl, hpage⟩

/-- The program of the small machine, called with the argument `hi`. -/
theorem enterProgram_args_neighbours : ∃ entry sp m',
    enterProgram neighbours.mods 0 [104, 105] neighbours.mach = (some (entry, sp), m') ∧
      ArgsAt m' sp program.name [104, 105] := by
  have hmem : program ∈ neighbours.mods := by rw [neighbours_mods]; simp
  obtain ⟨entry, f, hload, hpage⟩ := neighbours.first_argPage hmem neighbours_noWrap
    (by rw [neighbours_plan]) neighbours_stock
  exact ⟨entry, enterProgram_args (Int.le_refl 0) (by rw [neighbours_mods]; rfl) (by decide)
    (by decide) (by decide) (by decide) hload hpage⟩

/-- In a run, every call that enters a program has given it its arguments. -/
theorem Boot.Running.args {b : Boot} {m : Mach} (h : b.Running m) {c : Call} {mod : Module}
    (ht : c.Target b mod) (hs : b.Sound m mod) (hb : ∀ x ∈ mod.name, x < 256)
    (hb' : ∀ x ∈ c.arg, x < 256) {entry sp : Nat} {m' : Mach}
    (henter : enterProgram b.mods c.idx c.arg m = (some (entry, sp), m')) :
    ArgsAt m' sp mod.name c.arg := by
  have hmod : mod ∈ b.mods := List.mem_of_getElem? ht.2
  have hreg := b.pmm_spec.2.2.2 mod hmod
  obtain ⟨-, hw₁, ms, l, sp', hload, -, -, -, hdone, -⟩ := loadProgram_ready
    (h.ready hs.apart hmod) hreg.bound.1 rfl hs.sums (fun _ _ => trivial)
    (fun _ _ _ _ _ _ => in_true _ _) hs.lasts
  cases hres : (loadProgram mod.start (mod.fin - mod.start) m).1 with
  | none =>
    rw [enterProgram_none ht.1 ht.2 c.arg hres] at henter
    exact absurd (congrArg Prod.fst henter) (Option.some_ne_none _).symm
  | some entry' =>
    obtain ⟨-, rfl, hin⟩ := hdone (by rw [hres]; rfl)
    obtain ⟨f, hstack⟩ := hload.argPage hw₁ hin
    rw [enterProgram_some ht.1 ht.2 c.arg hres, pushArgs_eq] at henter
    cases henter
    exact pushArgs_argsAt hstack hreg.name hb c.short hb'

end InaneOS.Mem
