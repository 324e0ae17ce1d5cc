import Volclava.Lib.Circular
import Volclava.Lib.Run

/-!
# The hash table

`lib.table.c` keeps the entries of a table on circular lists, one for every slot, and moves all of
them to a larger array of slots when there are too many. Entries are cells of memory: they are
linked and unlinked by their links alone, wherever they are, and a walk over the table holds a
pointer to the entry it will return next.

- `HashTab.Wf`: the lists hold the entries, each on the slot of its key.
- `HashTab.Wf.findEnt`, `HashTab.Wf.addEnt`, `HashTab.Wf.release`, `HashTab.Wf.resetTab`: the
  functions of the table.
- `HashTab.Wf.walk`: a walk that deletes behind itself.
- `table_refines_map`: the table is a finite map, in every run.
-/

namespace Volclava

open Circular List Function

namespace HashTab

/-! ## Memory -/

/-- The bytes of a string. -/
abbrev Key := List (BitVec 8)

/-- A cell with links: a slot of an array of slots, or an entry. -/
inductive Addr where
  | slot (tab i : Nat)
  | ent (n : Nat)
  deriving DecidableEq

/-- The table with the memory it uses; `ents` are the entries that are allocated. -/
structure HTab where
  links : Links Addr
  keyname : Nat → Key
  ents : Finset Nat
  slotPtr : Nat
  numEnts : Int
  size : Nat

/-- An allocator: it returns an entry that is not in use. -/
structure Malloc where
  alloc : Finset Nat → Nat
  fresh : ∀ ents, alloc ents ∉ ents

/-- `insList_`. -/
def insList (L : Links Addr) (elemPtr destPtr : Addr) : Links Addr :=
  let L := L.setBw elemPtr (L.bw destPtr)
  let L := L.setFw elemPtr destPtr
  let L := L.setFw (L.bw destPtr) elemPtr
  L.setBw destPtr elemPtr

/-- `remList_`. -/
def remList (L : Links Addr) (elemPtr : Addr) : Links Addr :=
  if elemPtr = L.bw elemPtr then L
  else
    let L := L.setBw (L.fw elemPtr) (L.bw elemPtr)
    L.setFw (L.bw elemPtr) (L.fw elemPtr)

/-- `initList_`. -/
def initList (L : Links Addr) (headPtr : Addr) : Links Addr :=
  (L.setBw headPtr headPtr).setFw headPtr headPtr

/-! ## The functions -/

def primes : List Nat := [101, 1009, 5009, 10007, 20011, 50021, 100003, 200003, 500009, 1030637]

def getClosestPrime (x : Int) : Nat := (primes.find? fun (p : Nat) => x < p).getD 1030637

/-- `getAddr`: characters are signed, the sum is an `unsigned int`. -/
def getAddr (size : Nat) (key : Key) : Nat :=
  key.foldl (fun ha c => (ha * 128 + (c.signExtend 32).toNat) % 2 ^ 32 % size) 0

/-- The loop of `h_initTab_` over the slots. -/
def initSlots (tab : Nat) : Nat → Links Addr → Links Addr
  | 0, L => L
  | n + 1, L => initList (initSlots tab n L) (.slot tab n)

/-- `h_initTab_`: a new array of slots. -/
def initTab (t : HTab) (numSlots : Int) : HTab :=
  { t with
    numEnts := 0
    size := getClosestPrime numSlots
    slotPtr := t.slotPtr + 1
    links := initSlots (t.slotPtr + 1) (getClosestPrime numSlots) t.links }

/-- The loop of `h_findEnt`; `none` when it does not end or leaves the list. -/
def findLoop (t : HTab) (key : Key) (hList : Addr) : Nat → Addr → Option (Option Nat)
  | 0, _ => none
  | fuel + 1, p =>
    if p = hList then some none
    else
      match p with
      | .slot _ _ => none
      | .ent n => if t.keyname n = key then some (some n)
          else findLoop t key hList fuel (t.links.bw p)

/-- `h_findEnt`. A loop that takes more steps than there are entries does not end. -/
def findEnt (t : HTab) (key : Key) (hList : Addr) : Option (Option Nat) :=
  findLoop t key hList (t.ents.card + 1) (t.links.bw hList)

/-- `h_getEnt_`. -/
def getEnt (t : HTab) (key : Key) : Option (Option Nat) :=
  if t.numEnts = 0 then some none else findEnt t key (.slot t.slotPtr (getAddr t.size key))

/-- The body of the loop of `resetTab`: an entry is moved to its new slot. -/
def moveEnt (t : HTab) (n : Nat) : HTab :=
  { t with
    links := insList (remList t.links (.ent n)) (.ent n)
      (.slot t.slotPtr (getAddr t.size (t.keyname n)))
    numEnts := t.numEnts + 1 }

/-- The loop of `resetTab` over one list. -/
def moveLoop (lastList : Addr) : Nat → HTab → Option HTab
  | 0, t => if lastList = t.links.bw lastList then some t else none
  | fuel + 1, t =>
    if lastList = t.links.bw lastList then some t
    else
      match t.links.bw lastList with
      | .ent n => moveLoop lastList fuel (moveEnt t n)
      | .slot _ _ => none

/-- The loop of `resetTab` over the slots from the `i`-th on. -/
def resetLoop (lastSlotPtr : Nat) : Nat → Nat → HTab → Option HTab
  | 0, _, t => some t
  | lastSize + 1, i, t =>
    (moveLoop (.slot lastSlotPtr i) (t.ents.card + 1) t).bind
      (resetLoop lastSlotPtr lastSize (i + 1))

def resetTab (t : HTab) : Option HTab :=
  resetLoop t.slotPtr t.size 0 (initTab t (t.size * 2))

/-- A new entry is linked to the slot of its key. -/
def enter (t : HTab) (key : Key) (n : Nat) : HTab :=
  { t with
    links := insList t.links (.ent n) (.slot t.slotPtr (getAddr t.size key))
    keyname := Function.update t.keyname n key
    ents := insert n t.ents
    numEnts := t.numEnts + 1 }

/-- `h_addEnt_`: the entry, and whether it is new. -/
def addEnt (m : Malloc) (t : HTab) (key : Key) : Option (HTab × Nat × Bool) :=
  (findEnt t key (.slot t.slotPtr (getAddr t.size key))).bind fun
    | some n => some (t, n, false)
    | none =>
      (if 3 * (t.size : Int) ≤ 2 * t.numEnts then resetTab t else some t).map fun t =>
        (enter t key (m.alloc t.ents), m.alloc t.ents, true)

/-- An entry is unlinked and freed. -/
def release (t : HTab) (n : Nat) : HTab :=
  { t with
    links := remList t.links (.ent n)
    ents := t.ents.erase n
    numEnts := t.numEnts - 1 }

/-- `h_delEnt_`, which also frees what the entry points to. -/
def delEnt (t : HTab) (hEntPtr : Option Nat) : HTab := hEntPtr.elim t (release t)

/-- `h_rmEnt_`. -/
def rmEnt (t : HTab) (hEntPtr : Option Nat) : HTab := hEntPtr.elim t (release t)

/-- The position of a walk. -/
structure STab where
  nIndex : Nat
  hEntPtr : Option Addr
  hList : Option Addr

/-- The end of `h_nextEnt_`. -/
def stepOver (t : HTab) (sPtr : STab) (p : Addr) : STab × Option Addr :=
  ({ sPtr with hEntPtr := some (t.links.bw p) }, some p)

/-- The loop of `h_nextEnt_` over the slots that are left. -/
def seekLoop (t : HTab) : Nat → STab → STab × Option Addr
  | 0, sPtr => (sPtr, none)
  | left + 1, sPtr =>
    if .slot t.slotPtr sPtr.nIndex ≠ t.links.bw (.slot t.slotPtr sPtr.nIndex) then
      stepOver t { sPtr with
        nIndex := sPtr.nIndex + 1
        hList := some (.slot t.slotPtr sPtr.nIndex) } (t.links.bw (.slot t.slotPtr sPtr.nIndex))
    else seekLoop t left { sPtr with nIndex := sPtr.nIndex + 1 }

/-- `h_nextEnt_`. -/
def nextEnt (t : HTab) (sPtr : STab) : STab × Option Addr :=
  match sPtr.hEntPtr with
  | none => seekLoop t (t.size - sPtr.nIndex) sPtr
  | some p =>
    if some p = sPtr.hList then seekLoop t (t.size - sPtr.nIndex) sPtr else stepOver t sPtr p

/-- `h_firstEnt_`. -/
def firstEnt (t : HTab) : STab × Option Addr := nextEnt t ⟨0, none, none⟩

/-- What the caller of a walk does with an entry. -/
inductive Act where
  | keep
  | del
  | rm
  deriving DecidableEq

def Act.apply (a : Act) (t : HTab) (n : Nat) : HTab :=
  match a with
  | .keep => t
  | .del => delEnt t (some n)
  | .rm => rmEnt t (some n)

/-- A walk; `act k` is done with the `k`-th entry before the next one is asked for. -/
def walkLoop (act : Nat → Act) : Nat → Nat → HTab → STab × Option Addr → Option (List Nat × HTab)
  | _, _, t, (_, none) => some ([], t)
  | fuel + 1, k, t, (sPtr, some (.ent n)) =>
    (walkLoop act fuel (k + 1) ((act k).apply t n) (nextEnt ((act k).apply t n) sPtr)).map fun r =>
      (n :: r.1, r.2)
  | _, _, _, _ => none

def walk (act : Nat → Act) (t : HTab) : Option (List Nat × HTab) :=
  walkLoop act (t.ents.card + 1) 0 t (firstEnt t)

/-! ## Writing links -/

theorem insList_inserted (L : Links Addr) {e d : Addr} (hed : e ≠ d) :
    Inserted L (insList L e d) e d := by
  constructor
  · intro x
    simp [insList]
  · intro x
    simp [insList, hed.symm]

variable {L : Links Addr}

theorem remList_removed {e : Addr} (hbw : L.bw e ≠ e) (hfw : L.fw e ≠ e) :
    Removed L (remList L e) e := by
  constructor
  · intro x
    simp [remList, hbw.symm]
  · intro x
    simp [remList, hbw.symm, hfw.symm]

theorem getClosestPrime_pos (x : Int) : 0 < getClosestPrime x := by
  rw [getClosestPrime]
  cases h : primes.find? fun (p : Nat) => x < p with
  | none => decide
  | some p =>
    have hp : p ∈ primes := mem_of_find?_eq_some h
    revert hp
    exact (by decide : ∀ p ∈ primes, 0 < p) p

theorem getAddr_lt {size : Nat} (h : 0 < size) (key : Key) : getAddr size key < size := by
  rw [getAddr]
  induction key using List.reverseRecOn with
  | nil => exact h
  | append_singleton key c ih =>
    rw [foldl_append]
    exact Nat.mod_lt _ h

/-! ## Well-formed tables -/

/-- The slots of an array from the `i`-th on. -/
def slotsFrom (tab size i : Nat) : Set Addr := {a | ∃ k, i ≤ k ∧ k < size ∧ a = .slot tab k}

theorem ent_not_mem_slotsFrom (tab size i n : Nat) : Addr.ent n ∉ slotsFrom tab size i := by
  rintro ⟨k, -, -, hk⟩
  cases hk

theorem slot_mem_slotsFrom (tab : Nat) {size i k : Nat} (hi : i ≤ k) (hk : k < size) :
    Addr.slot tab k ∈ slotsFrom tab size i := ⟨k, hi, hk, rfl⟩

theorem slot_mem (tab : Nat) {size k : Nat} (hk : k < size) :
    Addr.slot tab k ∈ slotsFrom tab size 0 := slot_mem_slotsFrom tab (Nat.zero_le k) hk

/-- All cells of the lists of an array, in the order of the slots. -/
def cells (c : Addr → List Addr) (tab : Nat) (is : List Nat) : List Addr :=
  is.flatMap fun i => c (.slot tab i)

/-- **The lists of the table hold the entries, each on the slot of its key.** -/
structure Wf (t : HTab) (c : Addr → List Addr) : Prop where
  pos : 0 < t.size
  family : Family t.links (slotsFrom t.slotPtr t.size 0) c
  mem : ∀ i < t.size, ∀ a, a ∈ c (.slot t.slotPtr i) ↔
    ∃ n ∈ t.ents, a = .ent n ∧ getAddr t.size (t.keyname n) = i
  keys : ∀ n ∈ t.ents, ∀ m ∈ t.ents, t.keyname n = t.keyname m → n = m
  num : t.numEnts = t.ents.card

variable {c : Addr → List Addr} {t : HTab} {S : Set Addr} {is : List Nat}

/-- The lists of an array have no cell twice. -/
theorem nodup_cells (hf : Family L S c) {tab : Nat}
    (his : is.Nodup) (hS : ∀ i ∈ is, Addr.slot tab i ∈ S) :
    (cells c tab is).Nodup := by
  rw [cells, nodup_flatMap]
  refine ⟨fun i hi => hf.nodup (hS i hi), ?_⟩
  refine his.imp_of_mem fun {i j} hi hj hij a ha ha' => hij ?_
  exact (Addr.slot.inj (hf.disjoint _ (hS i hi) _ (hS j hj) a ha ha')).2

namespace Wf

variable {t : HTab} {c : Addr → List Addr}

/-- The entries are the cells of all lists. -/
theorem mem_cells (h : Wf t c) (a : Addr) :
    a ∈ cells c t.slotPtr (List.range t.size) ↔ ∃ n ∈ t.ents, a = .ent n := by
  rw [cells, mem_flatMap]
  constructor
  · rintro ⟨i, hi, ha⟩
    obtain ⟨n, hn, rfl, -⟩ := (h.mem i (mem_range.mp hi) a).mp ha
    exact ⟨n, hn, rfl⟩
  · rintro ⟨n, hn, rfl⟩
    have hlt := getAddr_lt h.pos (t.keyname n)
    exact ⟨_, mem_range.mpr hlt, (h.mem _ hlt _).mpr ⟨n, hn, rfl, rfl⟩⟩

theorem nodup_cells (h : Wf t c) : (cells c t.slotPtr (List.range t.size)).Nodup :=
  HashTab.nodup_cells h.family nodup_range fun _ hi => slot_mem _ (mem_range.mp hi)

end Wf

variable {xs : List Addr}

theorem card_image_ent (ents : Finset Nat) : (ents.image Addr.ent).card = ents.card :=
  Finset.card_image_of_injective ents fun _ _ hnm => Addr.ent.inj hnm

variable {ents : Finset Nat}

/-- A list of entries without repetition has no more cells than there are entries. -/
theorem length_le_card (hnd : xs.Nodup)
    (hmem : ∀ a ∈ xs, ∃ n ∈ ents, a = .ent n) : xs.length ≤ ents.card := by
  rw [← toFinset_card_of_nodup hnd, ← card_image_ent]
  refine Finset.card_le_card fun a ha => ?_
  obtain ⟨n, hn, rfl⟩ := hmem a (mem_toFinset.mp ha)
  exact Finset.mem_image_of_mem _ hn

theorem Wf.length_cells (h : Wf t c) :
    (cells c t.slotPtr (List.range t.size)).length = t.ents.card := by
  rw [← toFinset_card_of_nodup h.nodup_cells, ← card_image_ent]
  congr 1
  ext a
  rw [mem_toFinset, h.mem_cells, Finset.mem_image]
  simp only [eq_comm]

theorem Wf.of_mem (h : Wf t c) {i : Nat} (hi : i < t.size) :
    ∀ a ∈ c (.slot t.slotPtr i), ∃ n ∈ t.ents, a = .ent n := by
  intro a ha
  obtain ⟨n, hn, ha, -⟩ := (h.mem i hi a).mp ha
  exact ⟨n, hn, ha⟩

/-- No list is longer than the number of entries. -/
theorem Wf.length_le (h : Wf t c) {i : Nat} (hi : i < t.size) :
    (c (.slot t.slotPtr i)).length ≤ t.ents.card :=
  length_le_card (h.family.nodup (slot_mem _ hi)) (h.of_mem hi)

/-! ## Finding -/

variable {ns : List Nat}

/-- The loop returns the first entry of the rest of the list that has the key. -/
theorem findLoop_spec (hf : Family t.links S c) {h : Addr} (hh : h ∈ S)
    (ys : List Addr) (hc : c h = ys ++ ns.map Addr.ent) (key : Key) {fuel : Nat}
    (hfuel : ns.length < fuel) :
    findLoop t key h fuel (((ns.map Addr.ent).head?).getD h) =
      some (ns.find? fun n => t.keyname n = key) := by
  induction ns generalizing ys fuel with
  | nil =>
    obtain ⟨fuel, rfl⟩ := Nat.exists_eq_succ_of_ne_zero (Nat.ne_of_gt hfuel)
    exact if_pos rfl
  | cons n ns ih =>
    obtain ⟨fuel, rfl⟩ := Nat.exists_eq_succ_of_ne_zero (Nat.ne_of_gt (Nat.zero_lt_of_lt hfuel))
    have hmem : Addr.ent n ∈ c h := by
      rw [hc]
      simp
    have hne : Addr.ent n ≠ h := fun heq => hf.head h hh _ hmem (heq ▸ hh)
    have hbw : t.links.bw (.ent n) = ((ns.map Addr.ent).head?).getD h :=
      hf.bw_of_append hh hc
    show findLoop t key h (fuel + 1) (.ent n) = _
    rw [findLoop, if_neg hne]
    simp only [List.find?_cons]
    by_cases hkey : t.keyname n = key
    · simp [hkey]
    · simp only [hkey, if_false, decide_false]
      rw [hbw]
      refine ih (ys ++ [.ent n]) ?_ (Nat.lt_of_succ_lt_succ hfuel)
      rw [hc, map_cons, append_assoc]
      rfl

/-- Cells that are all entries. -/
theorem exists_map_ent (h : ∀ a ∈ xs, ∃ n ∈ ents, a = .ent n) :
    ∃ ns : List Nat, xs = ns.map Addr.ent := by
  have hrange : xs ∈ Set.range (List.map Addr.ent) := by
    rw [Set.range_list_map]
    exact fun a ha => (h a ha).imp fun n hn => hn.2.symm
  exact hrange.imp fun ns hns => hns.symm

/-- **`h_findEnt` finds the entry of a key**, and only that. -/
theorem Wf.findEnt (h : Wf t c) (key : Key) :
    ∃ r, findEnt t key (.slot t.slotPtr (getAddr t.size key)) = some r ∧
      ∀ n, r = some n ↔ n ∈ t.ents ∧ t.keyname n = key := by
  have hlt := getAddr_lt h.pos key
  have hS := slot_mem t.slotPtr hlt
  obtain ⟨ns, hns⟩ := exists_map_ent (h.of_mem hlt)
  have hfuel : ns.length < t.ents.card + 1 := by
    have := h.length_le hlt
    rw [hns, length_map] at this
    omega
  have hfind := findLoop_spec h.family hS [] hns key hfuel
  refine ⟨ns.find? fun n => t.keyname n = key, ?_, fun n => ?_⟩
  · rw [HashTab.findEnt, h.family.bw_head hS, hns]
    exact hfind
  · have hmem : ∀ m, m ∈ ns ↔ m ∈ t.ents ∧ getAddr t.size (t.keyname m) = getAddr t.size key := by
      intro m
      have := h.mem _ hlt (.ent m)
      simpa [hns] using this
    constructor
    · intro hr
      have hkey : t.keyname n = key := by simpa using List.find?_some hr
      exact ⟨((hmem n).mp (mem_of_find?_eq_some hr)).1, hkey⟩
    · rintro ⟨hn, rfl⟩
      cases hr : ns.find? fun m => t.keyname m = t.keyname n with
      | none =>
        have := List.find?_eq_none.mp hr n ((hmem n).mpr ⟨hn, rfl⟩)
        simp at this
      | some m =>
        have hkey : t.keyname m = t.keyname n := by simpa using List.find?_some hr
        rw [h.keys m ((hmem m).mp (mem_of_find?_eq_some hr)).1 n hn hkey]

theorem Wf.getEnt (h : Wf t c) (key : Key) :
    ∃ r, getEnt t key = some r ∧ ∀ n, r = some n ↔ n ∈ t.ents ∧ t.keyname n = key := by
  rw [HashTab.getEnt]
  by_cases hnum : t.numEnts = 0
  · rw [if_pos hnum]
    have hempty : t.ents = ∅ := by
      have := h.num
      rw [hnum] at this
      exact Finset.card_eq_zero.mp (by omega)
    refine ⟨none, rfl, fun n => ?_⟩
    simp [hempty]
  · rw [if_neg hnum]
    exact h.findEnt key

/-! ## Changing the lists -/

/-- Taking an entry out of its list. -/
theorem Wf.family_remList (hf : Family L S c) {h e : Addr}
    (hh : h ∈ S) (he : e ∈ c h) :
    Family (remList L e) S (Function.update c h ((c h).erase e)) :=
  hf.remove hh he (remList_removed (hf.bw_ne_self hh he) (hf.fw_ne_self hh he))

variable {n : Nat}

theorem Wf.release (h : Wf t c) (hn : n ∈ t.ents) :
    Wf (release t n) (Function.update c (.slot t.slotPtr (getAddr t.size (t.keyname n)))
      ((c (.slot t.slotPtr (getAddr t.size (t.keyname n)))).erase (.ent n))) := by
  have hlt := getAddr_lt h.pos (t.keyname n)
  have hS := slot_mem t.slotPtr hlt
  have hmem : Addr.ent n ∈ c (.slot t.slotPtr (getAddr t.size (t.keyname n))) :=
    (h.mem _ hlt _).mpr ⟨n, hn, rfl, rfl⟩
  exact {
    pos := h.pos
    family := Wf.family_remList h.family hS hmem
    mem := by
      intro i hi a
      show a ∈ Function.update c _ _ (.slot t.slotPtr i) ↔ ∃ m ∈ t.ents.erase n, _
      rw [h.family.mem_update_erase hS hmem (slot_mem _ hi), h.mem i hi]
      constructor
      · rintro ⟨hne, m, hm, rfl, haddr⟩
        exact ⟨m, Finset.mem_erase.mpr ⟨fun hmn => hne (hmn ▸ rfl), hm⟩, rfl, haddr⟩
      · rintro ⟨m, hm, rfl, haddr⟩
        obtain ⟨hne, hm⟩ := Finset.mem_erase.mp hm
        exact ⟨fun hmn => hne (Addr.ent.inj hmn), m, hm, rfl, haddr⟩
    keys := fun k hk m hm =>
      h.keys k (Finset.mem_erase.mp hk).2 m (Finset.mem_erase.mp hm).2
    num := by
      show t.numEnts - 1 = ((t.ents.erase n).card : Int)
      have hcard := Finset.card_erase_of_mem hn
      have hpos := Finset.card_pos.mpr ⟨n, hn⟩
      have hnum := h.num
      omega }

theorem keyname_of_mem {m : Nat} (hn : n ∉ ents) (hm : m ∈ ents)
    (keyname : Nat → Key) (key : Key) : Function.update keyname n key m = keyname m := by
  have hne : m ≠ n := fun hmn => hn (hmn ▸ hm)
  exact update_of_ne hne _ _

/-- A new entry with a key that no entry has. -/
theorem Wf.enter (h : Wf t c) (hn : n ∉ t.ents) {key : Key}
    (hkey : ∀ m ∈ t.ents, t.keyname m ≠ key) :
    Wf (enter t key n) (Function.update c (.slot t.slotPtr (getAddr t.size key))
      (.ent n :: c (.slot t.slotPtr (getAddr t.size key)))) := by
  have hlt := getAddr_lt h.pos key
  have hS := slot_mem t.slotPtr hlt
  have hfree : ∀ k ∈ slotsFrom t.slotPtr t.size 0, Addr.ent n ∉ c k := by
    rintro _ ⟨i, -, hi, rfl⟩ hmem
    obtain ⟨m, hm, hnm, -⟩ := (h.mem i hi _).mp hmem
    exact hn (Addr.ent.inj hnm ▸ hm)
  have hname : ∀ m ∈ t.ents, Function.update t.keyname n key m = t.keyname m := fun m hm =>
    keyname_of_mem hn hm t.keyname key
  have hnew : Function.update t.keyname n key n = key := update_self ..
  exact {
    pos := h.pos
    family := h.family.insert hS (ent_not_mem_slotsFrom _ _ _ n) hfree
      (insList_inserted t.links nofun)
    mem := by
      intro i hi a
      show a ∈ Function.update c _ _ (.slot t.slotPtr i) ↔ ∃ m ∈ insert n t.ents,
        a = .ent m ∧ getAddr t.size (Function.update t.keyname n key m) = i
      rw [Family.mem_update_cons, h.mem i hi]
      constructor
      · rintro (⟨hslot, rfl⟩ | ⟨m, hm, rfl, haddr⟩)
        · refine ⟨n, Finset.mem_insert_self n _, rfl, ?_⟩
          rw [hnew]
          exact (Addr.slot.inj hslot).2.symm
        · exact ⟨m, Finset.mem_insert_of_mem hm, rfl, by rw [hname m hm]; exact haddr⟩
      · rintro ⟨m, hm, rfl, haddr⟩
        rcases Finset.mem_insert.mp hm with rfl | hm
        · rw [hnew] at haddr
          exact .inl ⟨by rw [haddr], rfl⟩
        · exact .inr ⟨m, hm, rfl, hname m hm ▸ haddr⟩
    keys := by
      intro k hk m hm hkm
      change Function.update t.keyname n key k = Function.update t.keyname n key m at hkm
      rcases Finset.mem_insert.mp hk with hkn | hk
      · rcases Finset.mem_insert.mp hm with hmn | hm
        · rw [hkn, hmn]
        · rw [hname m hm, hkn, hnew] at hkm
          exact absurd hkm.symm (hkey m hm)
      · rcases Finset.mem_insert.mp hm with hmn | hm
        · rw [hname k hk, hmn, hnew] at hkm
          exact absurd hkm (hkey k hk)
        · rw [hname k hk, hname m hm] at hkm
          exact h.keys k hk m hm hkm
    num := by
      show t.numEnts + 1 = ((insert n t.ents).card : Int)
      rw [Finset.card_insert_of_notMem hn, h.num]
      push_cast
      ring }

/-! ## Resizing -/

theorem cells_update {tab : Nat} {a : Addr} (h : ∀ k ∈ is, .slot tab k ≠ a)
    (xs : List Addr) : cells (Function.update c a xs) tab is = cells c tab is := by
  rw [cells, cells]
  exact flatMap_congr fun k hk => update_of_ne (h k hk) _ _

theorem length_cells_cons {tab j : Nat} (his : is.Nodup) (hj : j ∈ is) (a : Addr) :
    (cells (Function.update c (.slot tab j) (a :: c (.slot tab j))) tab is).length =
      (cells c tab is).length + 1 := by
  induction is with
  | nil => cases hj
  | cons i is ih =>
    obtain ⟨hi, his⟩ := nodup_cons.mp his
    rw [cells, cells, flatMap_cons, flatMap_cons, length_append,
      length_append, ← cells, ← cells]
    rcases mem_cons.mp hj with rfl | hj
    · have hne : ∀ k ∈ is, Addr.slot tab k ≠ .slot tab j := fun k hk heq =>
        hi ((Addr.slot.inj heq).2 ▸ hk)
      rw [cells_update hne, update_self, length_cons]
      omega
    · have hne : Addr.slot tab i ≠ .slot tab j := fun heq => hi ((Addr.slot.inj heq).2 ▸ hj)
      rw [ih his hj, update_of_ne hne]
      omega

/-- In the middle of a resize: the slots of the old array before the `i`-th are done. -/
structure Moving (old oldSize i : Nat) (t : HTab) (c : Addr → List Addr) : Prop where
  pos : 0 < t.size
  other : t.slotPtr ≠ old
  family : Family t.links (slotsFrom t.slotPtr t.size 0 ∪ slotsFrom old oldSize i) c
  moved : ∀ j < t.size, ∀ a ∈ c (.slot t.slotPtr j),
    ∃ n ∈ t.ents, a = .ent n ∧ getAddr t.size (t.keyname n) = j
  left : ∀ k, i ≤ k → k < oldSize → ∀ a ∈ c (.slot old k), ∃ n ∈ t.ents, a = .ent n
  all : ∀ n ∈ t.ents, Addr.ent n ∈ c (.slot t.slotPtr (getAddr t.size (t.keyname n))) ∨
    ∃ k, i ≤ k ∧ k < oldSize ∧ Addr.ent n ∈ c (.slot old k)
  keys : ∀ n ∈ t.ents, ∀ m ∈ t.ents, t.keyname n = t.keyname m → n = m
  num : t.numEnts = (cells c t.slotPtr (List.range t.size)).length

namespace Moving

variable {old oldSize i : Nat} {t : HTab} {c : Addr → List Addr}

/-- An entry is moved. -/
theorem moveEnt (h : Moving old oldSize i t c) (hi : i < oldSize) {rest : List Addr}
    (hc : c (.slot old i) = .ent n :: rest) :
    ∃ c', Moving old oldSize i (moveEnt t n) c' ∧ c' (.slot old i) = rest := by
  have hlt := getAddr_lt h.pos (t.keyname n)
  generalize hj : getAddr t.size (t.keyname n) = j at hlt
  have hold : Addr.slot old i ∈ slotsFrom t.slotPtr t.size 0 ∪ slotsFrom old oldSize i :=
    .inr (slot_mem_slotsFrom _ (le_refl i) hi)
  have hnew : Addr.slot t.slotPtr j ∈ slotsFrom t.slotPtr t.size 0 ∪ slotsFrom old oldSize i :=
    .inl (slot_mem _ hlt)
  have hmem : Addr.ent n ∈ c (.slot old i) := hc ▸ mem_cons_self
  have hent : Addr.ent n ∉ slotsFrom t.slotPtr t.size 0 ∪ slotsFrom old oldSize i := by
    rintro (hn | hn)
    · exact ent_not_mem_slotsFrom _ _ _ _ hn
    · exact ent_not_mem_slotsFrom _ _ _ _ hn
  have hne : ∀ k k', Addr.slot t.slotPtr k ≠ .slot old k' := fun k k' heq =>
    h.other (Addr.slot.inj heq).1
  have hn : n ∈ t.ents := by
    obtain ⟨m, hm, hnm⟩ := h.left i (le_refl i) hi _ hmem
    exact Addr.ent.inj hnm ▸ hm
  -- The lists after the entry is taken out, and after it is linked to its new slot.
  generalize hc₁ : Function.update c (.slot old i) ((c (.slot old i)).erase (.ent n)) = c₁
  generalize hc₂ : Function.update c₁ (.slot t.slotPtr j) (.ent n :: c₁ (.slot t.slotPtr j)) = c₂
  have hmem₁ : ∀ k ∈ slotsFrom t.slotPtr t.size 0 ∪ slotsFrom old oldSize i, ∀ x,
      x ∈ c₁ k ↔ x ≠ .ent n ∧ x ∈ c k :=
    fun k hk x => hc₁ ▸ h.family.mem_update_erase hold hmem hk
  have hmem₂ : ∀ k x, x ∈ c₂ k ↔ (k = .slot t.slotPtr j ∧ x = .ent n) ∨ x ∈ c₁ k :=
    fun k x => hc₂ ▸ Family.mem_update_cons
  have hrest : c₂ (.slot old i) = rest := by
    rw [← hc₂, update_of_ne (hne j i).symm, ← hc₁, update_self, hc,
      erase_cons_head]
  refine ⟨c₂, ?_, hrest⟩
  exact {
    pos := h.pos
    other := h.other
    family := by
      have hins := (hc₁ ▸ Wf.family_remList h.family hold hmem).insert hnew hent
        (fun k hk hx => ((hmem₁ k hk _).mp hx).1 rfl)
        (insList_inserted (remList t.links (.ent n)) fun (hns : _ = Addr.slot t.slotPtr j) => by
          cases hns)
      rw [hc₂, ← hj] at hins
      exact hins
    moved := by
      intro k hk a ha
      rcases (hmem₂ _ a).mp ha with ⟨hkj, rfl⟩ | ha
      · exact ⟨n, hn, rfl, hj.trans (Addr.slot.inj hkj).2.symm⟩
      · exact h.moved k hk a ((hmem₁ _ (.inl (slot_mem _ hk)) a).mp ha).2
    left := by
      intro k hik hk a ha
      rcases (hmem₂ _ a).mp ha with ⟨hkj, -⟩ | ha
      · exact absurd hkj.symm (hne j k)
      · exact h.left k hik hk a ((hmem₁ _ (.inr (slot_mem_slotsFrom _ hik hk)) a).mp ha).2
    all := by
      intro m hm
      by_cases hmn : m = n
      · subst hmn
        exact .inl ((hmem₂ _ _).mpr (.inl ⟨congrArg _ hj, rfl⟩))
      · have hstay : ∀ k ∈ slotsFrom t.slotPtr t.size 0 ∪ slotsFrom old oldSize i,
            Addr.ent m ∈ c k → Addr.ent m ∈ c₂ k := fun k hk hx =>
          (hmem₂ k _).mpr (.inr ((hmem₁ k hk _).mpr ⟨fun heq => hmn (Addr.ent.inj heq), hx⟩))
        refine (h.all m hm).imp (hstay _ (.inl (slot_mem _ (getAddr_lt h.pos _)))) ?_
        rintro ⟨k, hik, hk, hx⟩
        exact ⟨k, hik, hk, hstay _ (.inr (slot_mem_slotsFrom _ hik hk)) hx⟩
    keys := h.keys
    num := by
      show t.numEnts + 1 = ((cells c₂ t.slotPtr (List.range t.size)).length : Int)
      rw [← hc₂, length_cells_cons nodup_range (mem_range.mpr hlt), ← hc₁,
        cells_update fun k _ => hne k i, h.num]
      push_cast
      rfl }

/-- A slot of the old array is done when its list is empty. -/
theorem next (h : Moving old oldSize i t c) (hc : c (.slot old i) = []) :
    Moving old oldSize (i + 1) t c where
  pos := h.pos
  other := h.other
  family := by
    refine h.family.mono (Set.union_subset_union_right _ ?_)
    rintro _ ⟨k, hik, hk, rfl⟩
    exact slot_mem_slotsFrom _ (Nat.le_of_succ_le hik) hk
  moved := h.moved
  left k hik := h.left k (Nat.le_of_succ_le hik)
  all n hn := by
    refine (h.all n hn).imp_right ?_
    rintro ⟨k, hik, hk, hmem⟩
    refine ⟨k, Nat.lt_of_le_of_ne hik ?_, hk, hmem⟩
    rintro rfl
    rw [hc] at hmem
    cases hmem
  keys := h.keys
  num := h.num

/-- The loop over one list empties it. -/
theorem moveLoop (h : Moving old oldSize i t c) (hi : i < oldSize)
    (hc : c (.slot old i) = ns.map Addr.ent) {fuel : Nat} (hfuel : ns.length ≤ fuel) :
    ∃ t' c', moveLoop (.slot old i) fuel t = some t' ∧ Moving old oldSize (i + 1) t' c' ∧
      t'.ents = t.ents ∧ t'.keyname = t.keyname := by
  have hS : Addr.slot old i ∈ slotsFrom t.slotPtr t.size 0 ∪ slotsFrom old oldSize i :=
    .inr (slot_mem_slotsFrom _ (le_refl i) hi)
  induction ns generalizing t c fuel with
  | nil =>
    have hself : Addr.slot old i = t.links.bw (.slot old i) :=
      (h.family.bw_head_eq_self hS).mpr hc
    refine ⟨t, c, ?_, h.next hc, rfl, rfl⟩
    cases fuel with
    | zero => exact if_pos hself
    | succ fuel => exact if_pos hself
  | cons n ns ih =>
    obtain ⟨fuel, rfl⟩ := Nat.exists_eq_succ_of_ne_zero (Nat.ne_zero_of_lt hfuel)
    have hself : ¬ Addr.slot old i = t.links.bw (.slot old i) := by
      rw [h.family.bw_head_eq_self hS, hc]
      exact cons_ne_nil _ _
    have hbw : t.links.bw (.slot old i) = .ent n := by
      rw [h.family.bw_head hS, hc]
      rfl
    obtain ⟨c', hmov, hc'⟩ := h.moveEnt hi hc
    obtain ⟨t', c'', hloop, hmov', hents, hkeys⟩ :=
      ih hmov hc' (Nat.le_of_succ_le_succ hfuel) (.inr (slot_mem_slotsFrom _ (le_refl i) hi))
    refine ⟨t', c'', ?_, hmov', hents, hkeys⟩
    rw [HashTab.moveLoop, if_neg hself, hbw]
    exact hloop

/-- After the last slot the table is well-formed. -/
theorem wf (h : Moving old oldSize oldSize t c) : Wf t c := by
  have hmem : ∀ i < t.size, ∀ a, a ∈ c (.slot t.slotPtr i) ↔
      ∃ n ∈ t.ents, a = .ent n ∧ getAddr t.size (t.keyname n) = i := by
    intro i hi a
    refine ⟨h.moved i hi a, ?_⟩
    rintro ⟨n, hn, rfl, rfl⟩
    rcases h.all n hn with hmem | ⟨k, hik, hk, -⟩
    · exact hmem
    · omega
  have hwf : Wf { t with numEnts := t.ents.card } c :=
    ⟨h.pos, h.family.mono Set.subset_union_left, hmem, h.keys, rfl⟩
  refine ⟨h.pos, hwf.family, hmem, h.keys, ?_⟩
  rw [h.num]
  exact_mod_cast hwf.length_cells

/-- The loop over the old slots. -/
theorem resetLoop {left : Nat} (h : Moving old oldSize i t c) (hleft : i + left = oldSize) :
    ∃ t' c', resetLoop old left i t = some t' ∧ Wf t' c' ∧ t'.ents = t.ents ∧
      t'.keyname = t.keyname := by
  induction left generalizing i t c with
  | zero =>
    obtain rfl : i = oldSize := hleft
    exact ⟨t, c, rfl, h.wf, rfl, rfl⟩
  | succ left ih =>
    have hi : i < oldSize := by omega
    have hents := h.left i (le_refl i) hi
    obtain ⟨ns, hns⟩ := exists_map_ent hents
    have hfuel : ns.length ≤ t.ents.card + 1 := by
      have := length_le_card (h.family.nodup (.inr (slot_mem_slotsFrom _ (le_refl i) hi))) hents
      rw [hns, length_map] at this
      omega
    obtain ⟨t₁, c₁, hloop, hmov, hents, hkeys⟩ := h.moveLoop hi hns hfuel
    obtain ⟨t₂, c₂, hreset, hwf, hents₂, hkeys₂⟩ := ih hmov (by omega)
    refine ⟨t₂, c₂, ?_, hwf, hents₂.trans hents, hkeys₂.trans hkeys⟩
    rw [HashTab.resetLoop, hloop]
    exact hreset

end Moving

/-- A new array of slots has empty lists. -/
theorem family_initSlots (hf : Family L S c) (tab : Nat)
    (hS : ∀ k, Addr.slot tab k ∉ S) (hc : ∀ k, c (.slot tab k) = [])
    (hfree : ∀ h ∈ S, ∀ k, Addr.slot tab k ∉ c h) (size : Nat) :
    Family (initSlots tab size L) (slotsFrom tab size 0 ∪ S) c := by
  induction size with
  | zero =>
    refine hf.mono ?_
    rintro a (⟨k, -, hk, -⟩ | ha)
    · exact absurd hk (Nat.not_lt_zero k)
    · exact ha
  | succ size ih =>
    have hfresh : Addr.slot tab size ∉ slotsFrom tab size 0 ∪ S := by
      rintro (⟨k, -, hk, heq⟩ | ha)
      · obtain rfl := (Addr.slot.inj heq).2
        exact Nat.lt_irrefl _ hk
      · exact hS size ha
    have hnot : ∀ h ∈ slotsFrom tab size 0 ∪ S, Addr.slot tab size ∉ c h := by
      rintro h (⟨k, -, -, rfl⟩ | hh) hmem
      · rw [hc] at hmem
        cases hmem
      · exact hfree h hh size hmem
    refine (ih.init hfresh hnot (hc size)).mono ?_
    rintro a (⟨k, -, hk, rfl⟩ | ha)
    · rcases Nat.lt_or_eq_of_le (Nat.le_of_lt_succ hk) with hk | rfl
      · exact .inr (.inl (slot_mem _ hk))
      · exact .inl rfl
    · exact .inr (.inr ha)

/-- **`resetTab` keeps the entries and their keys.** -/
theorem Wf.resetTab (h : Wf t c) : ∃ t' c',
    resetTab t = some t' ∧ Wf t' c' ∧ t'.ents = t.ents ∧ t'.keyname = t.keyname := by
  -- The lists of the old array, and empty ones elsewhere.
  obtain ⟨c₀, hc₀⟩ : ∃ c₀ : Addr → List Addr, c₀ = fun a =>
      match a with
      | .slot tab _ => if tab = t.slotPtr then c a else []
      | .ent _ => [] := ⟨_, rfl⟩
  have hold : ∀ k, c₀ (.slot t.slotPtr k) = c (.slot t.slotPtr k) := by
    intro k
    rw [hc₀]
    exact if_pos rfl
  have hne : t.slotPtr + 1 ≠ t.slotPtr := Nat.succ_ne_self _
  have hnew : ∀ k, c₀ (.slot (t.slotPtr + 1) k) = [] := by
    intro k
    rw [hc₀]
    exact if_neg hne
  have hfam₀ : Family t.links (slotsFrom t.slotPtr t.size 0) c₀ := by
    refine h.family.of_eq ?_
    rintro _ ⟨k, -, -, rfl⟩
    exact hold k
  have hfam := family_initSlots hfam₀ (t.slotPtr + 1) (fun k => ?_) hnew ?_
    (getClosestPrime (t.size * 2))
  · have hmov : Moving t.slotPtr t.size 0 (initTab t (t.size * 2)) c₀ := {
      pos := getClosestPrime_pos _
      other := hne
      family := hfam
      moved := by
        intro j _ a ha
        change a ∈ c₀ (.slot (t.slotPtr + 1) j) at ha
        rw [hnew] at ha
        cases ha
      left := by
        intro k _ hk
        rw [hold]
        exact h.of_mem hk
      all := by
        intro n hn
        have hlt := getAddr_lt h.pos (t.keyname n)
        refine .inr ⟨_, Nat.zero_le _, hlt, ?_⟩
        rw [hold]
        exact (h.mem _ hlt _).mpr ⟨n, hn, rfl, rfl⟩
      keys := h.keys
      num := by
        have hnil : ∀ is, cells c₀ (t.slotPtr + 1) is = [] := fun is =>
          flatMap_eq_nil_iff.mpr fun k _ => hnew k
        show (0 : Int) = ((cells c₀ (t.slotPtr + 1) _).length : Int)
        rw [hnil]
        rfl }
    exact hmov.resetLoop (Nat.zero_add _)
  · rintro ⟨i, -, -, heq⟩
    exact hne (Addr.slot.inj heq).1
  · rintro _ ⟨i, -, hi, rfl⟩ k hmem
    rw [hold] at hmem
    obtain ⟨n, -, heq, -⟩ := (h.mem i hi _).mp hmem
    cases heq

/-- **`h_addEnt_` returns the entry of the key, and makes one if there is none.** -/
theorem Wf.addEnt (h : Wf t c) (m : Malloc) (key : Key) :
    (∃ n ∈ t.ents, t.keyname n = key ∧ addEnt m t key = some (t, n, false)) ∨
    (∀ n ∈ t.ents, t.keyname n ≠ key) ∧ ∃ t' c', addEnt m t key = some (t', m.alloc t.ents, true) ∧
      Wf t' c' ∧ t'.ents = insert (m.alloc t.ents) t.ents ∧
      t'.keyname = Function.update t.keyname (m.alloc t.ents) key := by
  obtain ⟨r, hfind, hr⟩ := h.findEnt key
  cases r with
  | some n =>
    obtain ⟨hn, hkey⟩ := (hr n).mp rfl
    exact .inl ⟨n, hn, hkey, by rw [HashTab.addEnt, hfind]; rfl⟩
  | none =>
    have hkey : ∀ n ∈ t.ents, t.keyname n ≠ key := fun n hn hk => by
      cases (hr n).mpr ⟨hn, hk⟩
    refine .inr ⟨hkey, ?_⟩
    rw [HashTab.addEnt, hfind, Option.bind_some]
    by_cases hfull : 3 * (t.size : Int) ≤ 2 * t.numEnts
    · obtain ⟨t₁, c₁, hreset, hwf, hents, hkeys⟩ := h.resetTab
      simp only [if_pos hfull, hreset, Option.map_some, hents]
      refine ⟨_, _, rfl, hwf.enter (hents ▸ m.fresh t.ents) ?_, ?_, ?_⟩
      · rw [hents, hkeys]
        exact hkey
      · show insert _ t₁.ents = _
        rw [hents]
      · show Function.update t₁.keyname _ _ = _
        rw [hkeys]
    · simp only [if_neg hfull, Option.map_some]
      exact ⟨_, _, rfl, h.enter (m.fresh t.ents) hkey, rfl, rfl⟩

/-! ## Walking -/

/-- The cells of the slots from the `i`-th on. -/
abbrev cellsFrom (t : HTab) (c : Addr → List Addr) (i : Nat) : List Addr :=
  cells c t.slotPtr (List.range' i (t.size - i))

/-- The walk stands in the list of the `j`-th slot, before `zs`. -/
def Ahead (t : HTab) (c : Addr → List Addr) (sPtr : STab) (xs : List Addr) : Prop :=
  ∃ j ys zs, j < t.size ∧
    sPtr = ⟨j + 1, some ((zs.head?).getD (.slot t.slotPtr j)), some (.slot t.slotPtr j)⟩ ∧
    c (.slot t.slotPtr j) = ys ++ zs ∧ xs = zs ++ cellsFrom t c (j + 1)

/-- The walk has just returned `x`. -/
def Passed (t : HTab) (c : Addr → List Addr) (sPtr : STab) (x : Addr) (xs : List Addr) : Prop :=
  ∃ j ys zs, j < t.size ∧
    sPtr = ⟨j + 1, some ((zs.head?).getD (.slot t.slotPtr j)), some (.slot t.slotPtr j)⟩ ∧
    c (.slot t.slotPtr j) = ys ++ x :: zs ∧ xs = zs ++ cellsFrom t c (j + 1)

/-- What a step of the walk returns when `xs` are ahead. -/
def Returns (t : HTab) (c : Addr → List Addr) (r : STab × Option Addr) (xs : List Addr) : Prop :=
  match xs with
  | [] => r.2 = none
  | x :: xs => r.2 = some x ∧ Passed t c r.1 x xs

section Walk

variable {t : HTab} {c : Addr → List Addr}

theorem cellsFrom_of_lt {i : Nat} (hi : i < t.size) :
    cellsFrom t c i = c (.slot t.slotPtr i) ++ cellsFrom t c (i + 1) := by
  have hrange : List.range' i (t.size - i) = i :: List.range' (i + 1) (t.size - (i + 1)) := by
    rw [show t.size - i = t.size - (i + 1) + 1 by omega, range'_succ]
  rw [cellsFrom, hrange, cells, flatMap_cons]
  rfl

theorem Wf.seekLoop (h : Wf t c) (left : Nat) (sPtr : STab) (hleft : sPtr.nIndex + left = t.size) :
    Returns t c (seekLoop t left sPtr) (cellsFrom t c sPtr.nIndex) := by
  induction left generalizing sPtr with
  | zero =>
    have hnil : cellsFrom t c sPtr.nIndex = [] := by
      rw [cellsFrom, show t.size - sPtr.nIndex = 0 by omega]
      rfl
    rw [hnil]
    rfl
  | succ left ih =>
    have hi : sPtr.nIndex < t.size := by omega
    have hS := slot_mem t.slotPtr hi
    have hself := h.family.bw_head_eq_self hS
    rw [HashTab.seekLoop, cellsFrom_of_lt hi]
    cases hc : c (.slot t.slotPtr sPtr.nIndex) with
    | nil =>
      rw [if_neg (not_not.mpr (hself.mpr hc))]
      exact ih { sPtr with nIndex := sPtr.nIndex + 1 } (by show _ + 1 + _ = _; omega)
    | cons x xs =>
      have hne : Addr.slot t.slotPtr sPtr.nIndex ≠
          t.links.bw (.slot t.slotPtr sPtr.nIndex) := by
        rw [Ne, hself, hc]
        exact cons_ne_nil x xs
      have hbw : t.links.bw (.slot t.slotPtr sPtr.nIndex) = x := by
        rw [h.family.bw_head hS, hc]
        rfl
      have hnext : t.links.bw x = (xs.head?).getD (.slot t.slotPtr sPtr.nIndex) :=
        h.family.bw_of_append hS (show c _ = [] ++ x :: xs from hc)
      rw [if_pos hne, hbw]
      refine ⟨rfl, sPtr.nIndex, [], xs, hi, ?_, hc, rfl⟩
      rw [stepOver, hnext]

variable {sPtr : STab}

theorem Wf.nextEnt (h : Wf t c) (hahead : Ahead t c sPtr xs) :
    Returns t c (nextEnt t sPtr) xs := by
  obtain ⟨j, ys, zs, hj, rfl, hc, rfl⟩ := hahead
  have hS := slot_mem t.slotPtr hj
  cases zs with
  | nil =>
    have hseek := h.seekLoop (t.size - (j + 1))
      ⟨j + 1, some (.slot t.slotPtr j), some (.slot t.slotPtr j)⟩
      (by show j + 1 + (t.size - (j + 1)) = t.size; omega)
    rw [HashTab.nextEnt]
    simp only [List.head?_nil, Option.getD_none, if_true, nil_append]
    exact hseek
  | cons x zs =>
    have hne : ¬ x = .slot t.slotPtr j := by
      rintro rfl
      exact h.family.head _ hS (.slot t.slotPtr j) (by rw [hc]; simp) hS
    have hnext : t.links.bw x = (zs.head?).getD (.slot t.slotPtr j) :=
      h.family.bw_of_append hS hc
    rw [HashTab.nextEnt]
    simp only [List.head?_cons, Option.getD_some, Option.some.injEq, hne, if_false]
    refine ⟨rfl, j, ys, zs, hj, ?_, hc, rfl⟩
    rw [stepOver, hnext]

/-- The entry that was returned may stay. -/
theorem Passed.keep {x : Addr} (h : Passed t c sPtr x xs) : Ahead t c sPtr xs := by
  obtain ⟨j, ys, zs, hj, hs, hc, hxs⟩ := h
  exact ⟨j, ys ++ [x], zs, hj, hs, by rw [hc, append_assoc]; rfl, hxs⟩

/-- The entry that was returned may be deleted. -/
theorem Passed.release (hwf : Wf t c) (h : Passed t c sPtr (.ent n) xs) :
    n ∈ t.ents ∧ ∃ c', Wf (release t n) c' ∧ Ahead (release t n) c' sPtr xs := by
  obtain ⟨j, ys, zs, hj, hs, hc, hxs⟩ := h
  have hmem : Addr.ent n ∈ c (.slot t.slotPtr j) := by
    rw [hc]
    simp
  obtain ⟨m, hm, hnm, haddr⟩ := (hwf.mem j hj _).mp hmem
  obtain rfl := Addr.ent.inj hnm
  have hrel := hwf.release hm
  rw [haddr] at hrel
  refine ⟨hm, _, hrel, j, ys, zs, hj, hs, ?_, ?_⟩
  · have hnd := hwf.family.nodup (slot_mem _ hj)
    have hys : Addr.ent n ∉ ys := by
      rw [hc, nodup_append] at hnd
      exact fun hn => hnd.2.2 _ hn _ mem_cons_self rfl
    show Function.update c _ _ (.slot t.slotPtr j) = ys ++ zs
    rw [update_self, hc, erase_append_right _ hys, erase_cons_head]
  · rw [hxs]
    congr 1
    show cells c t.slotPtr _ = cells _ t.slotPtr (List.range' (j + 1) (t.size - (j + 1)))
    refine (cells_update (fun k hk heq => ?_) _).symm
    obtain rfl := (Addr.slot.inj heq).2
    have := mem_range'_1.mp hk
    omega

/-- The table after a walk has done what `act` says with the entries. -/
def swept (act : Nat → Act) : Nat → List Nat → HTab → HTab
  | _, [], t => t
  | k, n :: ns, t => swept act (k + 1) ns ((act k).apply t n)

/-- What the caller does keeps the rest of the walk. -/
theorem Wf.act (h : Wf t c) (a : Act)
    (hpassed : Passed t c sPtr (.ent n) xs) :
    ∃ c', Wf (a.apply t n) c' ∧ Ahead (a.apply t n) c' sPtr xs := by
  cases a with
  | keep => exact ⟨c, h, hpassed.keep⟩
  | del => exact (hpassed.release h).2
  | rm => exact (hpassed.release h).2

theorem Wf.walkLoop (h : Wf t c) (act : Nat → Act) {fuel k : Nat} {r : STab × Option Addr}
    (hr : Returns t c r (ns.map Addr.ent)) (hfuel : ns.length < fuel) :
    walkLoop act fuel k t r = some (ns, swept act k ns t) := by
  induction ns generalizing t c fuel k r with
  | nil =>
    obtain ⟨sPtr, p⟩ := r
    obtain rfl : p = none := hr
    rw [HashTab.walkLoop]
    rfl
  | cons n ns ih =>
    obtain ⟨fuel, rfl⟩ := Nat.exists_eq_succ_of_ne_zero (Nat.ne_of_gt (Nat.zero_lt_of_lt hfuel))
    obtain ⟨sPtr, p⟩ := r
    obtain ⟨hp, hpassed⟩ := hr
    obtain rfl : p = some (.ent n) := hp
    obtain ⟨c', hwf, hahead⟩ := h.act (act k) hpassed
    rw [HashTab.walkLoop, ih hwf (hwf.nextEnt hahead) (Nat.lt_of_succ_lt_succ hfuel)]
    rfl

/-- **A walk returns every entry once, whatever is done with the entries it has returned.** -/
theorem Wf.walk (h : Wf t c) (act : Nat → Act) : ∃ ns, walk act t = some (ns, swept act 0 ns t) ∧
    ns.Nodup ∧ ∀ n, n ∈ ns ↔ n ∈ t.ents := by
  obtain ⟨ns, hns⟩ := exists_map_ent fun a => (h.mem_cells a).mp
  have hnd := h.nodup_cells
  have hlen := h.length_cells
  rw [hns, length_map] at hlen
  have hfirst := h.seekLoop t.size ⟨0, none, none⟩ (Nat.zero_add _)
  rw [cellsFrom, Nat.sub_zero, ← range_eq_range', hns] at hfirst
  refine ⟨ns, h.walkLoop act hfirst (by omega), ?_, fun n => ?_⟩
  · rw [hns] at hnd
    exact List.Nodup.of_map _ hnd
  · have := h.mem_cells (.ent n)
    simpa [hns] using this

end Walk

/-! ## Runs -/

/-- The calls on a table. -/
inductive Call where
  | addEnt (key : Key)
  | getEnt (key : Key)
  | delEnt (hEntPtr : Option Nat)
  | rmEnt (hEntPtr : Option Nat)

/-- A table and the finite map from keys to entries that it should be; `fault` when a function did
not return. -/
structure Sys where
  tab : HTab
  map : Key → Option Nat
  fault : Bool

/-- A table that `h_initTab_` has made. -/
def Sys.init (numSlots : Int) : Sys :=
  ⟨initTab ⟨⟨id, id⟩, fun _ => [], ∅, 0, 0, 0⟩ numSlots, fun _ => none, false⟩

/-- The map without the entry. -/
def forget (map : Key → Option Nat) (n : Nat) : Key → Option Nat :=
  fun key => if map key = some n then none else map key

/-- Only entries of the table are deleted. -/
def Sys.drop (sys : Sys) (tab : HTab) (hEntPtr : Option Nat) : Sys :=
  match hEntPtr with
  | none => { sys with tab := tab }
  | some n => if n ∈ sys.tab.ents then { sys with tab := tab, map := forget sys.map n } else sys

def Sys.step (m : Malloc) (sys : Sys) (call : Call) : Sys :=
  match call with
  | .addEnt key =>
    match addEnt m sys.tab key with
    | none => { sys with fault := true }
    | some (t, n, _) => { sys with
        tab := t
        map := if sys.map key = none then Function.update sys.map key (some n) else sys.map }
  | .getEnt key => if (getEnt sys.tab key).isNone then { sys with fault := true } else sys
  | .delEnt hEntPtr => sys.drop (delEnt sys.tab hEntPtr) hEntPtr
  | .rmEnt hEntPtr => sys.drop (rmEnt sys.tab hEntPtr) hEntPtr

/-- The table is well-formed and holds the map. -/
structure Sys.Sound (sys : Sys) : Prop where
  wf : ∃ c, Wf sys.tab c
  map : ∀ key n, sys.map key = some n ↔ n ∈ sys.tab.ents ∧ sys.tab.keyname n = key
  fault : sys.fault = false

theorem wf_init (numSlots : Int) : Wf (Sys.init numSlots).tab fun _ => [] := by
  have hempty : Family (⟨id, id⟩ : Links Addr) ∅ fun _ => [] :=
    ⟨fun _ h => h.elim, fun _ h => h.elim, fun _ h => h.elim⟩
  have hfam := family_initSlots hempty 1 (fun _ h => h) (fun _ => rfl) (fun _ h => h.elim)
    (getClosestPrime numSlots)
  rw [Set.union_empty] at hfam
  refine ⟨getClosestPrime_pos numSlots, hfam, fun i _ a => ?_, fun n hn => ?_, rfl⟩
  · simp [Sys.init, initTab]
  · exact absurd hn (Finset.notMem_empty n)

theorem Sys.Sound.drop {sys : Sys} (h : sys.Sound) (hEntPtr : Option Nat) :
    (sys.drop (hEntPtr.elim sys.tab (release sys.tab)) hEntPtr).Sound := by
  cases hEntPtr with
  | none => exact h
  | some n =>
    rw [Sys.drop]
    split_ifs with hn
    · obtain ⟨c, hwf⟩ := h.wf
      refine ⟨⟨_, hwf.release hn⟩, fun key m => ?_, h.fault⟩
      show forget sys.map n key = some m ↔ m ∈ sys.tab.ents.erase n ∧ sys.tab.keyname m = key
      rw [forget, Finset.mem_erase, and_assoc, ← h.map key m]
      by_cases hkey : sys.map key = some n
      · simp [hkey, eq_comm]
      · rw [if_neg hkey]
        refine ⟨fun hm => ⟨?_, hm⟩, And.right⟩
        rintro rfl
        exact hkey hm
    · exact h

theorem step_sound (m : Malloc) {sys : Sys} (h : sys.Sound) (call : Call) :
    (sys.step m call).Sound := by
  cases call with
  | addEnt key =>
    obtain ⟨c, hwf⟩ := h.wf
    rw [Sys.step]
    rcases hwf.addEnt m key with ⟨n, hn, hkey, hadd⟩ | ⟨hnew, t', c', hadd, hwf', hents, hkeys⟩
    · have hmap : sys.map key = some n := (h.map key n).mpr ⟨hn, hkey⟩
      rw [hadd]
      simp only [hmap, reduceCtorEq, if_false]
      exact h
    · have hmap : sys.map key = none := by
        refine Option.eq_none_iff_forall_ne_some.mpr fun n hn => ?_
        obtain ⟨hn, hkey⟩ := (h.map key n).mp hn
        exact hnew n hn hkey
      rw [hadd]
      simp only [hmap, if_true]
      refine ⟨⟨c', hwf'⟩, fun k n => ?_, h.fault⟩
      show Function.update sys.map key (some (m.alloc sys.tab.ents)) k = some n ↔
        n ∈ t'.ents ∧ t'.keyname n = k
      rw [hents, hkeys, Finset.mem_insert]
      have hfresh := m.fresh sys.tab.ents
      by_cases hk : k = key
      · subst hk
        rw [update_self, Option.some.injEq]
        constructor
        · rintro rfl
          exact ⟨.inl rfl, update_self ..⟩
        · rintro ⟨hn | hn, hkey⟩
          · exact hn.symm
          · rw [keyname_of_mem hfresh hn] at hkey
            exact absurd hkey (hnew n hn)
      · rw [update_of_ne hk, h.map]
        constructor
        · rintro ⟨hn, hkey⟩
          exact ⟨.inr hn, by rw [keyname_of_mem hfresh hn]; exact hkey⟩
        · rintro ⟨hn | hn, hkey⟩
          · rw [hn, update_self] at hkey
            exact absurd hkey.symm hk
          · rw [keyname_of_mem hfresh hn] at hkey
            exact ⟨hn, hkey⟩
  | getEnt key =>
    obtain ⟨c, hwf⟩ := h.wf
    obtain ⟨r, hget, -⟩ := hwf.getEnt key
    rw [Sys.step, hget]
    exact h
  | delEnt hEntPtr => exact h.drop hEntPtr
  | rmEnt hEntPtr => exact h.drop hEntPtr

end HashTab

open HashTab

/-- **The table refines a finite map from strings**: after any calls, through any number of resizes,
`h_getEnt_` answers as the map does, every key has at most one entry, `numEnts` is the number of
entries, every entry is on the list of the slot that its key has now, and a walk returns every entry
exactly once, even if it deletes the entries it has returned. -/
theorem table_refines_map (m : Malloc) (numSlots : Int) (calls : List Call) :
    ∃ sys, Run.run (Sys.step m) (Sys.init numSlots) calls = sys ∧ sys.fault = false ∧
    (∀ key, getEnt sys.tab key = some (sys.map key)) ∧
    (∀ key n, sys.map key = some n ↔ n ∈ sys.tab.ents ∧ sys.tab.keyname n = key) ∧
    (∀ n ∈ sys.tab.ents, ∀ k ∈ sys.tab.ents, sys.tab.keyname n = sys.tab.keyname k → n = k) ∧
    sys.tab.numEnts = sys.tab.ents.card ∧
    (∃ list : Nat → List Addr, ∀ i < sys.tab.size,
      Circular.Ring sys.tab.links (.slot sys.tab.slotPtr i) (list i) ∧
      ∀ a, a ∈ list i ↔
        ∃ n ∈ sys.tab.ents, a = .ent n ∧ getAddr sys.tab.size (sys.tab.keyname n) = i) ∧
    ∀ act : Nat → Act, ∃ ns, walk act sys.tab = some (ns, swept act 0 ns sys.tab) ∧ ns.Nodup ∧
      ∀ n, n ∈ ns ↔ n ∈ sys.tab.ents := by
  have hinit : (Sys.init numSlots).Sound := by
    refine ⟨⟨_, wf_init numSlots⟩, fun key n => ⟨fun hn => ?_, fun hn => ?_⟩, rfl⟩
    · cases hn
    · exact absurd hn.1 (Finset.notMem_empty n)
  have hsound : (Run.run (Sys.step m) (Sys.init numSlots) calls).Sound :=
    @Run.inv_all Sys Call (Sys.step m) Sys.Sound (fun _ call h => step_sound m h call) _ hinit calls
  obtain ⟨c, hwf⟩ := hsound.wf
  refine ⟨_, rfl, hsound.fault, fun key => ?_, hsound.map, hwf.keys, hwf.num, ?_, hwf.walk⟩
  · obtain ⟨r, hget, hr⟩ := hwf.getEnt key
    rw [hget]
    congr 1
    refine Option.ext fun n => ?_
    rw [hr n, hsound.map key n]
  · exact ⟨fun i => c (.slot _ i), fun i hi =>
      ⟨hwf.family.ring _ (slot_mem _ hi), hwf.mem i hi⟩⟩

end Volclava
