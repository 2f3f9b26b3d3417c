import Mathlib.Tactic.Common

/-!
# The two searches of the PCI bus: `drivers/pci/pci.c` and `drivers/nic/nic.c`

A configuration space answers each address written to the address port with 32 bits; a
search only reads it. `find_device` looks for a vendor and a device, `find_nic` for the
class of a network card. The loops over bus, slot and function are the same
(`scanBus`), so each search stops at the first function its test accepts
(`findNic_eq`, `findDevice_eq`).

What they fill in is not the same. `find_nic` leaves `subclass` as it was and reads the
registers from `BAR0 + (i + 4)`, which the mask of `make_address` takes down to `0x14`
and `0x18`. `searchesAgree_iff` says when that makes no difference.
-/

namespace InaneOS.Drivers

/-- What the data port gives for an address. -/
def Config := UInt32 → UInt32

/-- The place of a function on the bus. -/
structure Fn where
  bus : UInt8
  slot : UInt8
  func : UInt8
deriving DecidableEq

/-- `device_s` -/
structure DeviceS where
  bus : UInt8
  slot : UInt8
  func : UInt8
  vendorId : UInt16
  deviceId : UInt16
  classCode : UInt8
  subclass : UInt8
  bar : Vector UInt32 6
deriving DecidableEq

/-! ## Reading a register -/

/-- `make_address(bus, slot, func, offset)` -/
def makeAddress (a : Fn) (offset : UInt8) : UInt32 :=
  (0x80000000 : UInt32) ||| a.bus.toUInt32 <<< 16 ||| a.slot.toUInt32 <<< 11 |||
    a.func.toUInt32 <<< 8 |||
    (offset &&& 0xFC).toUInt32

/-- `config_read32(bus, slot, func, offset)` -/
def configRead32 (cfg : Config) (a : Fn) (offset : UInt8) : UInt32 := cfg (makeAddress a offset)

/-- `config_read16(bus, slot, func, offset)` -/
def configRead16 (cfg : Config) (a : Fn) (offset : UInt8) : UInt16 :=
  let value := configRead32 cfg a offset
  let shift := (offset &&& 2) * 8
  (value >>> shift.toUInt32 &&& 0xFFFF).toUInt16

def vendorIdReg : UInt8 := 0x00
def deviceIdReg : UInt8 := 0x02
def bar0 : UInt8 := 0x10

/-- `(class_reg >> 16) & 0xFF` -/
def subclassOf (classReg : UInt32) : UInt8 := (classReg >>> 16 &&& 0xFF).toUInt8

/-- `(class_reg >> 24) & 0xFF` -/
def classCodeOf (classReg : UInt32) : UInt8 := (classReg >>> 24 &&& 0xFF).toUInt8

/-! ## The searches -/

/-- The three loops. A body that gives something returns from the search with it. -/
def scanBus {α : Type} (body : Fn → Option α) : Option α :=
  (List.range 256).findSome? fun bus =>
    (List.range 32).findSome? fun slot =>
      (List.range 8).findSome? fun func =>
        body ⟨UInt8.ofNat bus, UInt8.ofNat slot, UInt8.ofNat func⟩

/-- What `find_device` stores behind the pointer. -/
def deviceInfo (cfg : Config) (a : Fn) : DeviceS :=
  let classReg := configRead32 cfg a 0x08
  { bus := a.bus, slot := a.slot, func := a.func
    vendorId := configRead16 cfg a vendorIdReg
    deviceId := configRead16 cfg a deviceIdReg
    subclass := subclassOf classReg
    classCode := classCodeOf classReg
    bar := Vector.ofFn fun i => configRead32 cfg a (bar0 + UInt8.ofNat (i * 4)) }

/-- What `find_nic` stores behind the pointer: everything but `subclass`. -/
def nicInfo (cfg : Config) (a : Fn) (d : DeviceS) : DeviceS :=
  { d with
    bus := a.bus, slot := a.slot, func := a.func
    vendorId := configRead16 cfg a vendorIdReg
    deviceId := configRead16 cfg a deviceIdReg
    classCode := classCodeOf (configRead32 cfg a 0x08)
    -- `i + 4` stands where `find_device` has `i * 4`
    bar := Vector.ofFn fun i => configRead32 cfg a (bar0 + UInt8.ofNat (i + 4)) }

/-- `find_device(vendor_id, device_id, device)`: the result and what the pointer leads to,
unless it is null. -/
def findDevice (cfg : Config) (vendorId deviceId : UInt16) (device : Option DeviceS) :
    Int × Option DeviceS :=
  let found := scanBus fun a =>
    let vendor := configRead16 cfg a vendorIdReg
    if vendor = 0xFFFF then none
    else
      let foundDevice := configRead16 cfg a deviceIdReg
      if vendor ≠ vendorId ∨ foundDevice ≠ deviceId then none
      else some (device.map fun _ => deviceInfo cfg a)
  match found with
  | some device => (0, device)
  | none => (-1, device)

/-- `find_nic(device)` -/
def findNic (cfg : Config) (device : Option DeviceS) : Int × Option DeviceS :=
  let found := scanBus fun a =>
    let vendor := configRead16 cfg a vendorIdReg
    if vendor = 0xFFFF then none
    else
      let classReg := configRead32 cfg a 0x08
      if classCodeOf classReg ≠ 0x02 ∨ subclassOf classReg ≠ 0x00 then none
      else some (device.map fun d => nicInfo cfg a d)
  match found with
  | some device => (0, device)
  | none => (-1, device)

/-! ## The first function that a test accepts -/

/-- All functions in the order of the loops. -/
def functions : List Fn :=
  (List.range 256).flatMap fun bus =>
    (List.range 32).flatMap fun slot =>
      (List.range 8).map fun func => ⟨UInt8.ofNat bus, UInt8.ofNat slot, UInt8.ofNat func⟩

/-- The first one with the property `p`. -/
def firstFn (p : Fn → Bool) : Option Fn := functions.find? p

theorem findSome?_flatMap {α β γ : Type} (f : α → List β) (g : β → Option γ) : ∀ l : List α,
    (l.flatMap f).findSome? g = l.findSome? fun a => (f a).findSome? g
  | [] => rfl
  | a :: l => by
    rw [List.flatMap_cons, List.findSome?_append, List.findSome?_cons, findSome?_flatMap f g l]
    cases (f a).findSome? g with
    | none => rfl
    | some b => rfl

theorem findSome?_test {α β : Type} {p : α → Bool} {g : α → β} : ∀ l : List α,
    (l.findSome? fun a => if p a then some (g a) else none) = (l.find? p).map g
  | [] => rfl
  | a :: l => by
    rw [List.findSome?_cons, List.find?_cons, findSome?_test l]
    cases p a with
    | false => rfl
    | true => rfl

/-- The loops stop at the first function that the test accepts. -/
theorem scanBus_eq {α : Type} {p : Fn → Bool} {g : Fn → α} {body : Fn → Option α}
    (h : ∀ a, body a = if p a then some (g a) else none) : scanBus body = (firstFn p).map g := by
  have hbody : body = fun a => if p a then some (g a) else none := funext h
  have hall : functions.findSome? body = scanBus body := by
    simp only [functions, scanBus, findSome?_flatMap, List.findSome?_map, Function.comp_def]
  rw [← hall, firstFn, ← findSome?_test, hbody]

/-- There is a function, and it is a network card. -/
def isNic (cfg : Config) (a : Fn) : Bool :=
  configRead16 cfg a vendorIdReg ≠ 0xFFFF ∧ classCodeOf (configRead32 cfg a 0x08) = 0x02 ∧
    subclassOf (configRead32 cfg a 0x08) = 0x00

/-- There is a function, with this vendor and this device. -/
def hasIds (cfg : Config) (vendorId deviceId : UInt16) (a : Fn) : Bool :=
  configRead16 cfg a vendorIdReg ≠ 0xFFFF ∧ configRead16 cfg a vendorIdReg = vendorId ∧
    configRead16 cfg a deviceIdReg = deviceId

/-- What a search returns when it stopped at `a`, or nowhere. -/
def searchResult (found : Option Fn) (device : Option DeviceS) (info : Fn → DeviceS → DeviceS) :
    Int × Option DeviceS :=
  match found with
  | some a => (0, device.map (info a))
  | none => (-1, device)

theorem findNic_eq (cfg : Config) (device : Option DeviceS) :
    findNic cfg device = searchResult (firstFn (isNic cfg)) device (nicInfo cfg) := by
  unfold findNic searchResult
  rw [scanBus_eq (p := isNic cfg) (g := fun a => device.map (nicInfo cfg a)) fun a => ?_]
  · cases firstFn (isNic cfg) with
    | none => rfl
    | some a => rfl
  · unfold isNic
    dsimp only
    by_cases hv : configRead16 cfg a vendorIdReg = 0xFFFF
    · simp [hv]
    · by_cases hc : classCodeOf (configRead32 cfg a 0x08) = 0x02
      · by_cases hs : subclassOf (configRead32 cfg a 0x08) = 0x00 <;> simp [hv, hc, hs]
      · simp [hv, hc]

theorem findDevice_eq (cfg : Config) (vendorId deviceId : UInt16) (device : Option DeviceS) :
    findDevice cfg vendorId deviceId device =
      searchResult (firstFn (hasIds cfg vendorId deviceId)) device fun a _ => deviceInfo cfg a := by
  unfold findDevice searchResult
  rw [scanBus_eq (p := hasIds cfg vendorId deviceId)
    (g := fun a => device.map fun _ => deviceInfo cfg a) fun a => ?_]
  · cases firstFn (hasIds cfg vendorId deviceId) with
    | none => rfl
    | some a => rfl
  · unfold hasIds
    dsimp only
    by_cases hv : configRead16 cfg a vendorIdReg = 0xFFFF
    · simp [hv]
    · by_cases hi : configRead16 cfg a vendorIdReg = vendorId
      · by_cases hd : configRead16 cfg a deviceIdReg = deviceId <;> simp [← hi, hv, hd]
      · simp [hv, hi]

/-! ## Where they agree -/

/-- After `find_nic(&d)` has found a card: `find_device` with its numbers finds something, and
if that is at the same place, the two have stored the same, with the six registers from
`0x10` on in `bar`. -/
structure SearchesAgree (cfg : Config) (d₀ e₀ : DeviceS) : Prop where
  found : ∀ d, findNic cfg (some d₀) = (0, some d) →
    (findDevice cfg d.vendorId d.deviceId (some e₀)).1 = 0
  same : ∀ d e, findNic cfg (some d₀) = (0, some d) →
    findDevice cfg d.vendorId d.deviceId (some e₀) = (0, some e) →
    e.bus = d.bus → e.slot = d.slot → e.func = d.func →
    e = d ∧ ∀ (i : Nat) (hi : i < 6),
      d.bar[i] = configRead32 cfg ⟨d.bus, d.slot, d.func⟩ (0x10 + UInt8.ofNat (4 * i))

/-- The six registers from `0x10` on hold the same. -/
def BarsEqual (cfg : Config) (a : Fn) : Prop :=
  ∀ i < 6, configRead32 cfg a (bar0 + UInt8.ofNat (i * 4)) = configRead32 cfg a bar0

/-- `subclass` was 0 and the registers do not differ, unless another function with the same
numbers comes before the first card. -/
def AgreeWhen (cfg : Config) (d₀ : DeviceS) : Prop :=
  ∀ a, firstFn (isNic cfg) = some a →
    firstFn (hasIds cfg (configRead16 cfg a vendorIdReg) (configRead16 cfg a deviceIdReg)) =
      some a →
    d₀.subclass = 0 ∧ BarsEqual cfg a

theorem firstFn_holds {p : Fn → Bool} {a : Fn} (h : firstFn p = some a) : p a = true :=
  List.find?_some h

/-- What the two searches return after `find_nic` has stopped at `a`: the second one stops too. -/
theorem findDevice_finds {cfg : Config} {a : Fn} (h : firstFn (isNic cfg) = some a)
    (e₀ : DeviceS) : ∃ b, firstFn (hasIds cfg (configRead16 cfg a vendorIdReg)
        (configRead16 cfg a deviceIdReg)) = some b ∧
      findDevice cfg (configRead16 cfg a vendorIdReg) (configRead16 cfg a deviceIdReg) (some e₀) =
        (0, some (deviceInfo cfg b)) := by
  have hnic := firstFn_holds h
  have hmem : a ∈ functions := List.mem_of_find?_eq_some h
  have hids : hasIds cfg (configRead16 cfg a vendorIdReg) (configRead16 cfg a deviceIdReg) a =
    true := by
    simp only [isNic, decide_eq_true_eq] at hnic
    exact decide_eq_true ⟨hnic.1, rfl, rfl⟩
  obtain ⟨b, hb⟩ : ∃ b, firstFn (hasIds cfg (configRead16 cfg a vendorIdReg)
      (configRead16 cfg a deviceIdReg)) = some b :=
    Option.isSome_iff_exists.mp (List.find?_isSome.mpr ⟨a, hmem, hids⟩)
  refine ⟨b, hb, ?_⟩
  rw [findDevice_eq, hb]
  rfl

/-- The offsets `find_nic` reads: `0x14` four times and `0x18` twice. -/
theorem nicOffset (cfg : Config) (a : Fn) : ∀ i < 6,
    configRead32 cfg a (bar0 + UInt8.ofNat (i + 4)) =
      configRead32 cfg a (bar0 + UInt8.ofNat ((if i < 4 then 1 else 2) * 4)) := by
  intro i hi
  have hmask : ∀ i : Fin 6, (bar0 + UInt8.ofNat (i.val + 4)) &&& 0xFC =
      (bar0 + UInt8.ofNat ((if i.val < 4 then 1 else 2) * 4)) &&& 0xFC := by decide
  unfold configRead32 makeAddress
  rw [hmask ⟨i, hi⟩]

/-- At one place the two store the same exactly when what `find_nic` misses does not matter. -/
theorem infos_eq_iff {cfg : Config} {a : Fn} (hnic : isNic cfg a = true) (d₀ : DeviceS) :
    deviceInfo cfg a = nicInfo cfg a d₀ ↔ d₀.subclass = 0 ∧ BarsEqual cfg a := by
  simp only [isNic, decide_eq_true_eq] at hnic
  have hreg : ∀ i (hi : i < 6), (deviceInfo cfg a).bar[i] = configRead32 cfg a
      (bar0 + UInt8.ofNat (i * 4)) := fun i hi => Vector.getElem_ofFn hi
  have hnicReg : ∀ i (hi : i < 6), (nicInfo cfg a d₀).bar[i] = configRead32 cfg a
      (bar0 + UInt8.ofNat ((if i < 4 then 1 else 2) * 4)) := fun i hi =>
    (Vector.getElem_ofFn hi).trans (nicOffset cfg a i hi)
  constructor
  · intro heq
    have hsub : subclassOf (configRead32 cfg a 0x08) = d₀.subclass := congrArg DeviceS.subclass heq
    have hbar : ∀ i (hi : i < 6), configRead32 cfg a (bar0 + UInt8.ofNat (i * 4)) =
        configRead32 cfg a (bar0 + UInt8.ofNat ((if i < 4 then 1 else 2) * 4)) := by
      intro i hi
      rw [← hreg i hi, ← hnicReg i hi, heq]
    -- `0x10` and `0x18` are compared with `0x14`, and the others with one of them
    have h0 := hbar 0 (by decide)
    have h2 := hbar 2 (by decide)
    refine ⟨hsub.symm.trans hnic.2.2, fun i hi => ?_⟩
    rw [hbar i hi]
    by_cases h4 : i < 4
    · rw [if_pos h4]
      exact h0.symm
    · rw [if_neg h4]
      exact h2.trans h0.symm
  · intro hcond
    obtain ⟨hsub, hbars⟩ := hcond
    have hbar : (deviceInfo cfg a).bar = (nicInfo cfg a d₀).bar := by
      refine Vector.ext fun i hi => ?_
      rw [hreg i hi, hnicReg i hi, hbars i hi]
      by_cases h4 : i < 4
      · rw [if_pos h4, hbars 1 (by decide)]
      · rw [if_neg h4, hbars 2 (by decide)]
    have hsub' : subclassOf (configRead32 cfg a 0x08) = d₀.subclass := hnic.2.2.trans hsub.symm
    unfold deviceInfo nicInfo at hbar ⊢
    dsimp only at hbar ⊢
    rw [hsub', hbar]

/-- **The two searches agree** exactly when nothing is found, or another function has the same
numbers before the card, or what `find_nic` leaves out makes no difference. -/
theorem searchesAgree_iff (cfg : Config) (d₀ e₀ : DeviceS) :
    SearchesAgree cfg d₀ e₀ ↔ AgreeWhen cfg d₀ := by
  constructor
  · intro hagree a ha hids
    have hnic : findNic cfg (some d₀) = (0, some (nicInfo cfg a d₀)) := by
      rw [findNic_eq, ha]
      rfl
    obtain ⟨b, hb, hdev⟩ := findDevice_finds ha e₀
    rw [hids] at hb
    cases hb
    obtain ⟨heq, -⟩ := hagree.same _ _ hnic hdev rfl rfl rfl
    exact (infos_eq_iff (firstFn_holds ha) d₀).mp heq
  · intro hwhen
    have hstop : ∀ d, findNic cfg (some d₀) = (0, some d) → ∃ a, firstFn (isNic cfg) = some a ∧
        d = nicInfo cfg a d₀ := by
      intro d hd
      rw [findNic_eq] at hd
      cases ha : firstFn (isNic cfg) with
      | none =>
        rw [ha] at hd
        exact absurd (congrArg Prod.fst hd) (show (-1 : Int) ≠ 0 by decide)
      | some a =>
        rw [ha] at hd
        exact ⟨a, rfl, (Option.some.inj (congrArg Prod.snd hd)).symm⟩
    refine ⟨fun d hd => ?_, fun d e hd he h1 h2 h3 => ?_⟩
    · obtain ⟨a, ha, rfl⟩ := hstop d hd
      obtain ⟨b, -, hdev⟩ := findDevice_finds ha e₀
      exact congrArg Prod.fst hdev
    · obtain ⟨a, ha, rfl⟩ := hstop d hd
      obtain ⟨b, hb, hdev⟩ := findDevice_finds ha e₀
      have he' : deviceInfo cfg b = e := Option.some.inj (congrArg Prod.snd (hdev.symm.trans he))
      subst he'
      have hab : b = a := by
        cases b
        cases a
        cases h1
        cases h2
        cases h3
        rfl
      subst hab
      have heq := (infos_eq_iff (firstFn_holds ha) d₀).mpr (hwhen b ha hb)
      refine ⟨heq, fun i hi => ?_⟩
      rw [← heq, Nat.mul_comm]
      exact Vector.getElem_ofFn hi

/-- An Intel 82540EM in slot 3, with its registers behind `BAR0` and nothing else on the bus. -/
def oneCard : Config := fun address =>
  if address = 0x80001800 then 0x100E8086
  else if address = 0x80001808 then 0x02000003
  else if address = 0x80001810 then 0xFEB80000
  else if address = 0x80001814 then 0x0000C001
  else if 0x80001800 ≤ address ∧ address < 0x80001900 then 0
  else 0xFFFFFFFF

def noDevice : DeviceS := ⟨0, 0, 0, 0, 0, 0, 0, Vector.replicate 6 0⟩

/-- `find_nic` gives the port register `0x14` for the memory register `0x10`. -/
theorem oneCard_disagrees : ¬ SearchesAgree oneCard noDevice noDevice := by
  intro hagree
  have hd : findNic oneCard (some noDevice) = (0, some (nicInfo oneCard ⟨0, 3, 0⟩ noDevice)) := by
    decide
  have he : findDevice oneCard 0x8086 0x100E (some noDevice) =
      (0, some (deviceInfo oneCard ⟨0, 3, 0⟩)) := by
    decide
  obtain ⟨heq, -⟩ := hagree.same _ _ hd he rfl rfl rfl
  exact absurd (congrArg (fun d => d.bar[0]) heq) (by decide)

end InaneOS.Drivers
