import Volclava.Lib.CInt
import Volclava.Lib.Loop

/-!
# Indices of job arrays

A job name such as `run[1-10:2,20]` makes a job array. `parseJobArrayIndex` (`mbd.jarray.c`) hands
the text from the bracket on to a grammar (`jidx.c`), completes open ranges and checks the bounds;
`handleNewJobArray` then counts through every range and creates one element for each index it comes
to; `inIdxList` decides, wherever a request names indices, whether an element is meant. The
counting and the test are written independently, and all of it is 32-bit `int` arithmetic.

- `idxparse`: the grammar, with the bounds of its stack.
- `parseJobArrayIndex`, `handleNewJobArray`, `inIdxList`.
- `created_iff`: the elements are the indices that `inIdxList` accepts, once each and within the
  limits, exactly when no range counts past the largest `int`, and, while the log is replayed, the
  specification keeps the limits that are not checked then.

The grammar works on tokens; its lexer is left out. A signed overflow is taken to wrap.
-/

namespace Volclava.JobArray

open CInt List

/-! ## Bounds -/

def lsbMaxArrayIdx : Int := 65535

/-! ## The grammar -/

inductive Tok where
  | icon (digits : Nat)
  | ch (c : Char)
  | other
  deriving DecidableEq

/-- `struct idxList`; `stop` is its `end`. -/
structure IdxRange where
  start : Int
  stop : Int
  step : Int
  deriving DecidableEq

/-- `region`, with the number of entries it needs on the stack and the tokens behind it. -/
def region : List Tok → Option (IdxRange × Nat × List Tok)
  | .ch '-' :: .icon n :: ts => some (⟨1, atoi n, 1⟩, 2, ts)
  | .icon m :: .ch '-' :: .icon n :: ts => some (⟨atoi m, atoi n, 1⟩, 3, ts)
  -- `INFINIT_INT`
  | .icon m :: .ch '-' :: ts => some (⟨atoi m, intMax, 1⟩, 2, ts)
  | .icon m :: ts => some (⟨atoi m, atoi m, 1⟩, 1, ts)
  | _ => none

/-- The action of `index`: the bounds are checked once more by `parseJobArrayIndex`. -/
def checked (r : IdxRange) : Option IdxRange :=
  if r.start < 1 ∨ r.start > r.stop ∨ r.step ≤ 0 then none else some r

def index (ts : List Tok) : Option (IdxRange × Nat × List Tok) :=
  match region ts with
  | none => none
  | some (r, _, .ch ':' :: .icon n :: ts') =>
    (checked { r with step := atoi n }).map fun r' => (r', 3, ts')
  | some (r, depth, ts') => (checked r).map fun r' => (r', depth, ts')

/-- `indcies`. The rule is right recursive, so every range but the last leaves two entries on the
stack of `YYMAXDEPTH` entries; `room` counts the pairs of entries that are left. -/
def indcies : Nat → List Tok → Option (List IdxRange × List Tok)
  | 0, _ => none
  | room + 1, ts =>
    match index ts with
    | none => none
    | some (r, depth, ts') =>
      if 2 * (room + 1) < depth then none
      else match ts' with
        | .ch ',' :: ts'' => (indcies room ts'').map fun p => (r :: p.1, p.2)
        | _ => some ([r], ts')

/-- The pairs of entries left of `YYMAXDEPTH` (150) behind the start state and the bracket. -/
def yyRoom : Nat := 74

/-- `arrayIndSpec`: the ranges and `maxJLimit`. -/
def idxparse : List Tok → Option (List IdxRange × Int)
  | .ch '[' :: ts =>
    match indcies yyRoom ts with
    | some (l, [.ch ']']) => some (l, intMax)
    | some (l, [.ch ']', .ch '%', .icon n]) => some (l, atoi n)
    | _ => none
  | _ => none

/-! ## The specification is read -/

structure Env where
  maxJobArraySize : Int
  /-- `mSchedStage == M_STAGE_REPLAY`. -/
  replay : Bool

inductive Err where
  | badJob
  | badIdx
  | bigIdx
  deriving DecidableEq

/-- An open range goes on for `maxJobArraySize` steps. -/
def completed (env : Env) (r : IdxRange) : IdxRange :=
  if r.stop = intMax then
    { r with stop := wrap (r.start + wrap (wrap (env.maxJobArraySize - 1) * r.step)) }
  else r

/-- One round of the loop over the ranges: the last error wins, and the sizes are added up. -/
def checkRange (env : Env) (acc : Option Err × Int) (r : IdxRange) : Option Err × Int :=
  let e₁ := if r.start < 1 ∨ r.step < 1 then some Err.badIdx else acc.1
  let e₂ := if r.start > r.stop then some Err.badIdx else e₁
  let e₃ := if env.replay = false ∧ r.stop ≥ lsbMaxArrayIdx then some Err.bigIdx else e₂
  (e₃, wrap (acc.2 + wrap ((wrap (r.stop - r.start)).tdiv r.step + 1)))

def parseJobArrayIndex (env : Env) (ts : List Tok) : Except Err (List IdxRange × Int) :=
  match idxparse ts with
  | none => .error .badJob
  | some (l, maxJLimit) =>
    let l' := l.map (completed env)
    let acc := l'.foldl (checkRange env) (none, 0)
    let e := if env.replay = false ∧ acc.2 > env.maxJobArraySize then some Err.bigIdx else acc.1
    match e with
    | some e => .error e
    | none => .ok (l', maxJLimit)

/-! ## Elements are created, and looked up -/

/-- `for (i = start; i <= end; i += step)`, from `i` on, and the values of `i` it goes through. -/
def countUp : Nat → IdxRange → Int → Option (List Int)
  | 0, _, _ => none
  | fuel + 1, r, i =>
    if i ≤ r.stop then (countUp fuel r (wrap (i + r.step))).map (i :: ·) else some []

/-- The loops of `handleNewJobArray` over the ranges. -/
def countAll (fuel : Nat) : List IdxRange → Option (List Int)
  | [] => some []
  | r :: l =>
    match countUp fuel r r.start, countAll fuel l with
    | some is, some js => some (is ++ js)
    | _, _ => none

/-- An element that exists is not created again. -/
def create (made : List Int) (i : Int) : List Int := if i ∈ made then made else made ++ [i]

/-- The indices of the elements, in the order of their creation. -/
def handleNewJobArray (fuel : Nat) (l : List IdxRange) : Option (List Int) :=
  (countAll fuel l).map (·.foldl create [])

/-- `inIdxList` for the job with the index `idx`. -/
def inIdxList (idx : Int) (l : List IdxRange) : Bool :=
  l.any fun r => !(idx < r.start || idx > r.stop) && (idx - r.start).tmod r.step == 0

/-! ## What a range stands for -/

/-- The number of steps from `start` that stay within the range. -/
def IdxRange.steps (r : IdxRange) : Nat := ((r.stop - r.start) / r.step).toNat

/-- The last index of the range. -/
def IdxRange.lastIndex (r : IdxRange) : Int := r.start + r.steps * r.step

/-- The indices of the range, from its `k`-th one on. -/
def IdxRange.progressionFrom (r : IdxRange) (k : Nat) : List Int :=
  (List.range' k (r.steps + 1 - k)).map fun (n : Nat) => r.start + n * r.step

def IdxRange.progression (r : IdxRange) : List Int := r.progressionFrom 0

/-- The ranges that are left by the checks. -/
structure IdxRange.Valid (r : IdxRange) : Prop where
  start_pos : 1 ≤ r.start
  step_pos : 1 ≤ r.step
  step_le : r.step ≤ intMax
  ordered : r.start ≤ r.stop
  stop_le : r.stop ≤ intMax

variable {r : IdxRange} {l : List IdxRange}

theorem IdxRange.Valid.steps_spec (h : r.Valid) :
    r.start + r.steps * r.step ≤ r.stop ∧ r.stop < r.start + (r.steps + 1) * r.step := by
  have hpos : 0 < r.step := by have := h.step_pos; omega
  have hq : ((r.steps : Nat) : Int) = (r.stop - r.start) / r.step := by
    unfold steps
    rw [Int.toNat_of_nonneg]
    refine Int.ediv_nonneg ?_ hpos.le
    have := h.ordered
    omega
  have h1 := Int.ediv_mul_le (r.stop - r.start) (ne_of_gt hpos)
  have h2 := Int.lt_ediv_add_one_mul_self (r.stop - r.start) hpos
  rw [hq]
  constructor <;> linarith

variable {k : Nat}

theorem IdxRange.progressionFrom_cons (hk : k ≤ r.steps) :
    r.progressionFrom k = (r.start + k * r.step) :: r.progressionFrom (k + 1) := by
  unfold progressionFrom
  have hlen : r.steps + 1 - k = (r.steps + 1 - (k + 1)) + 1 := by omega
  rw [hlen, range'_succ, map_cons]

theorem IdxRange.mem_progression {i : Int} :
    i ∈ r.progression ↔ ∃ k : Nat, k ≤ r.steps ∧ i = r.start + k * r.step := by
  simp only [progression, progressionFrom, mem_map, mem_range'_1]
  exact exists_congr fun k => and_congr (by omega) eq_comm

theorem IdxRange.length_progression (r : IdxRange) : r.progression.length = r.steps + 1 := by
  simp [progression, progressionFrom]

/-- The `k`-th index is between the first and the last one. -/
theorem IdxRange.Valid.between (h : r.Valid) (hk : k ≤ r.steps) :
    r.start ≤ r.start + k * r.step ∧ r.start + k * r.step ≤ r.lastIndex := by
  have hpos : 0 ≤ r.step := by have := h.step_pos; omega
  have h0 : 0 ≤ (k : Int) * r.step := mul_nonneg (Int.natCast_nonneg k) hpos
  have h1 : (k : Int) * r.step ≤ r.steps * r.step :=
    mul_le_mul_of_nonneg_right (by exact_mod_cast hk) hpos
  unfold lastIndex
  constructor <;> linarith

/-- The test of `inIdxList` accepts the indices of the range and no others. -/
theorem IdxRange.Valid.accepts_iff (h : r.Valid) (i : Int) :
    (!(i < r.start || i > r.stop) && (i - r.start).tmod r.step == 0) = true ↔
      i ∈ r.progression := by
  have hpos : 0 < r.step := by have := h.step_pos; omega
  obtain ⟨hlast, hnext⟩ := h.steps_spec
  simp only [Bool.and_eq_true, Bool.not_eq_true', Bool.or_eq_false_iff, decide_eq_false_iff_not,
    not_lt, beq_iff_eq, mem_progression]
  constructor
  · rintro ⟨⟨hl, hu⟩, hmod⟩
    obtain ⟨q, hq⟩ := Int.dvd_of_tmod_eq_zero hmod
    have hq0 : 0 ≤ q := by
      by_contra hneg
      have : r.step * q < 0 := mul_neg_of_pos_of_neg hpos (by omega)
      omega
    refine ⟨q.toNat, ?_, ?_⟩
    · by_contra hbig
      have hle : ((r.steps : Int) + 1) * r.step ≤ q * r.step :=
        mul_le_mul_of_nonneg_right (by omega) hpos.le
      rw [mul_comm q] at hle
      omega
    · rw [Int.toNat_of_nonneg hq0, mul_comm]
      omega
  · rintro ⟨k, hk, rfl⟩
    obtain ⟨h1, h2⟩ := h.between hk
    refine ⟨⟨h1, h2.trans hlast⟩, ?_⟩
    rw [add_sub_cancel_left]
    exact Int.mul_tmod_left _ _

theorem inIdxList_iff (hl : ∀ r ∈ l, r.Valid) (i : Int) :
    inIdxList i l = true ↔ i ∈ l.flatMap IdxRange.progression := by
  unfold inIdxList
  rw [any_eq_true, mem_flatMap]
  exact exists_congr fun r => and_congr_right fun hr => (hl r hr).accepts_iff i

/-! ## Counting through a range -/

/-- **A range that does not count past the largest `int` is gone through as it reads.** -/
theorem countUp_eq (h : r.Valid) (hint : r.lastIndex + r.step ≤ intMax) (fuel : Nat)
    (hk : k ≤ r.steps + 1) (hfuel : r.steps + 2 ≤ fuel + k) :
    countUp fuel r (r.start + k * r.step) = some (r.progressionFrom k) := by
  obtain ⟨hlast, hnext⟩ := h.steps_spec
  induction fuel generalizing k with
  | zero => omega
  | succ fuel ih =>
    unfold countUp
    by_cases hin : k ≤ r.steps
    · obtain ⟨h1, h2⟩ := h.between hin
      have hsucc : r.start + k * r.step + r.step = r.start + ((k + 1 : Nat) : Int) * r.step := by
        push_cast
        ring
      have hwrap : wrap (r.start + k * r.step + r.step) = r.start + k * r.step + r.step := by
        have := h.start_pos
        have := h.step_pos
        exact wrap_of_int (by omega) (by omega)
      rw [if_pos (h2.trans hlast), hwrap, hsucc, ih (by omega) (by omega),
        IdxRange.progressionFrom_cons hin]
      rfl
    · obtain rfl : k = r.steps + 1 := by omega
      have hout : ¬ r.start + ((r.steps + 1 : Nat) : Int) * r.step ≤ r.stop := by
        push_cast
        omega
      rw [if_neg hout]
      simp [IdxRange.progressionFrom]

variable {is : List Int}

/-- A range that does comes to a negative index, if it ends at all. -/
theorem countUp_negative (h : r.Valid) (hint : intMax < r.lastIndex + r.step) (fuel : Nat)
    (hk : k ≤ r.steps) (his : countUp fuel r (r.start + k * r.step) = some is) :
    ∃ i ∈ is, i < 0 := by
  obtain ⟨hlast, -⟩ := h.steps_spec
  induction fuel generalizing k is with
  | zero => cases his
  | succ fuel ih =>
    obtain ⟨h1, h2⟩ := h.between hk
    unfold countUp at his
    rw [if_pos (h2.trans hlast)] at his
    obtain ⟨is', his', rfl⟩ := Option.map_eq_some_iff.mp his
    by_cases hlt : k < r.steps
    · obtain ⟨h3, h4⟩ := h.between (Nat.succ_le_of_lt hlt)
      have hsucc : r.start + k * r.step + r.step = r.start + ((k + 1 : Nat) : Int) * r.step := by
        push_cast
        ring
      have hwrap : wrap (r.start + k * r.step + r.step) =
          r.start + ((k + 1 : Nat) : Int) * r.step := by
        have := h.start_pos
        rw [hsucc]
        refine wrap_of_int ?_ (h4.trans (hlast.trans h.stop_le))
        exact le_trans (by omega) h3
      rw [hwrap] at his'
      obtain ⟨i, hi, hneg⟩ := ih hlt his'
      exact ⟨i, mem_cons_of_mem _ hi, hneg⟩
    · obtain rfl : k = r.steps := by omega
      obtain ⟨-, hneg⟩ := wrap_of_overflow hint (by
        have := h.stop_le
        have := h.step_le
        have : r.lastIndex ≤ r.stop := hlast
        omega)
      change wrap (r.start + r.steps * r.step + r.step) < 0 at hneg
      -- The counter is negative now, so the loop takes it for an index.
      cases fuel with
      | zero => cases his'
      | succ fuel =>
        unfold countUp at his'
        have hle : wrap (r.start + r.steps * r.step + r.step) ≤ r.stop := by
          have := h.start_pos
          have := h.ordered
          omega
        rw [if_pos hle] at his'
        obtain ⟨is'', -, rfl⟩ := Option.map_eq_some_iff.mp his'
        exact ⟨_, mem_cons_of_mem _ (mem_cons_self ..), hneg⟩

variable {fuel : Nat}

theorem countUp_start (h : r.Valid) (hint : r.lastIndex + r.step ≤ intMax)
    (hfuel : r.steps + 2 ≤ fuel) :
    countUp fuel r r.start = some r.progression := by
  have heq := countUp_eq h hint fuel (Nat.zero_le _) (by omega)
  simpa [IdxRange.progression] using heq

theorem countUp_start_negative (h : r.Valid) (hint : intMax < r.lastIndex + r.step)
    (his : countUp fuel r r.start = some is) : ∃ i ∈ is, i < 0 := by
  refine countUp_negative h hint fuel (Nat.zero_le _) ?_
  simpa using his

theorem countUp_mono {f f' : Nat} (hf : f ≤ f') {i : Int}
    (h : countUp f r i = some is) : countUp f' r i = some is := by
  induction f generalizing f' i is with
  | zero => cases h
  | succ f ih =>
    obtain ⟨g, rfl⟩ : ∃ g, f' = g + 1 := ⟨f' - 1, by omega⟩
    unfold countUp at h ⊢
    split_ifs at h ⊢
    · obtain ⟨js, hjs, rfl⟩ := Option.map_eq_some_iff.mp h
      rw [ih (by omega) hjs]
      rfl
    · exact h

theorem countAll_mono {f f' : Nat} (hf : f ≤ f') {all : List Int} (h : countAll f l = some all) :
    countAll f' l = some all := by
  induction l generalizing all with
  | nil => exact h
  | cons r l ih =>
    unfold countAll at h ⊢
    split at h
    · next is js his hjs =>
        rw [countUp_mono hf his, ih hjs]
        exact h
    · cases h

theorem countAll_eq (hl : ∀ r ∈ l, r.Valid) (hint : ∀ r ∈ l, r.lastIndex + r.step ≤ intMax)
    (hfuel : ∀ r ∈ l, r.steps + 2 ≤ fuel) :
    countAll fuel l = some (l.flatMap IdxRange.progression) := by
  induction l with
  | nil => rfl
  | cons r l ih =>
    rw [forall_mem_cons] at hl hint hfuel
    rw [countAll, countUp_start hl.1 hint.1 hfuel.1, ih hl.2 hint.2 hfuel.2, flatMap_cons]

theorem countAll_mem {all : List Int} (h : countAll fuel l = some all) (hr : r ∈ l) :
    ∃ is, countUp fuel r r.start = some is ∧ ∀ i ∈ is, i ∈ all := by
  induction l generalizing all with
  | nil => cases hr
  | cons r₀ l ih =>
    unfold countAll at h
    split at h
    · next is js his hjs =>
        obtain rfl : is ++ js = all := Option.some.inj h
        rcases mem_cons.mp hr with rfl | hr
        · exact ⟨is, his, fun i hi => mem_append_left _ hi⟩
        · obtain ⟨ks, hks, hmem⟩ := ih hjs hr
          exact ⟨ks, hks, fun i hi => mem_append_right _ (hmem i hi)⟩
    · cases h

/-! ## Creating -/

theorem mem_foldl_create {made : List Int} {i : Int} :
    i ∈ is.foldl create made ↔ i ∈ made ∨ i ∈ is := Loop.mem_foldl_addNew

theorem nodup_foldl_create {made : List Int} (h : made.Nodup) :
    (is.foldl create made).Nodup := Loop.nodup_foldl_addNew h is

/-- As many elements are created as there are different indices. -/
theorem length_foldl_create (is : List Int) : (is.foldl create []).length = is.dedup.length :=
  Loop.length_foldl_addNew is

/-! ## What the checks leave -/

variable {ts : List Tok}

theorem region_le {ts' : List Tok} {depth : Nat} (h : region ts = some (r, depth, ts')) :
    r.stop ≤ intMax ∧ r.step = 1 := by
  unfold region at h
  split at h
  · cases h
    exact ⟨atoi_le _, rfl⟩
  · cases h
    exact ⟨atoi_le _, rfl⟩
  · cases h
    exact ⟨le_refl _, rfl⟩
  · cases h
    exact ⟨atoi_le _, rfl⟩
  · cases h

theorem checked_valid {r r' : IdxRange} (h : checked r = some r') (hstop : r.stop ≤ intMax)
    (hstep : r.step ≤ intMax) : r'.Valid := by
  unfold checked at h
  split_ifs at h with hbad
  obtain rfl : r = r' := Option.some.inj h
  exact ⟨by omega, by omega, hstep, by omega, hstop⟩

theorem index_valid {ts' : List Tok} {depth : Nat} (h : index ts = some (r, depth, ts')) :
    r.Valid := by
  unfold index at h
  split at h
  · cases h
  · next r₀ _ n ts'' hreg =>
      obtain ⟨hstop, -⟩ := region_le hreg
      obtain ⟨r', hr', heq⟩ := Option.map_eq_some_iff.mp h
      cases heq
      exact checked_valid hr' hstop (atoi_le n)
  · next r₀ depth₀ ts'' _ hreg =>
      obtain ⟨hstop, hstep⟩ := region_le hreg
      obtain ⟨r', hr', heq⟩ := Option.map_eq_some_iff.mp h
      cases heq
      exact checked_valid hr' hstop (by rw [hstep]; decide)

/-- The grammar leaves ordered ranges, and no more of them than its stack has room for. -/
theorem indcies_valid {room : Nat} {ts' : List Tok} (h : indcies room ts = some (l, ts')) :
    (∀ r ∈ l, r.Valid) ∧ l.length ≤ room := by
  induction room generalizing ts l with
  | zero => cases h
  | succ room ih =>
    unfold indcies at h
    split at h
    · cases h
    · next r depth ts₁ hidx =>
        have hr := index_valid hidx
        split_ifs at h
        split at h
        · obtain ⟨p, hp, heq⟩ := Option.map_eq_some_iff.mp h
          cases heq
          obtain ⟨hl, hlen⟩ := ih (l := p.1) hp
          exact ⟨forall_mem_cons.mpr ⟨hr, hl⟩, Nat.succ_le_succ hlen⟩
        · cases h
          exact ⟨by simpa using hr, by simp⟩

theorem idxparse_valid {limit : Int} (h : idxparse ts = some (l, limit)) :
    (∀ r ∈ l, r.Valid) ∧ l.length ≤ yyRoom := by
  unfold idxparse at h
  split at h
  · split at h
    · next hl =>
        cases h
        exact indcies_valid hl
    · next hl =>
        cases h
        exact indcies_valid hl
    · cases h
  · cases h

theorem completed_stop_le (env : Env) (h : r.Valid) :
    (completed env r).start = r.start ∧ (completed env r).step = r.step ∧
      (completed env r).stop ≤ intMax := by
  unfold completed
  split_ifs
  · exact ⟨rfl, rfl, wrap_le _⟩
  · exact ⟨rfl, rfl, h.stop_le⟩

/-- A range passes the checks of the loop. -/
def IdxRange.Passes (env : Env) (r : IdxRange) : Prop :=
  1 ≤ r.start ∧ 1 ≤ r.step ∧ r.start ≤ r.stop ∧ (env.replay = false → r.stop < lsbMaxArrayIdx)

variable {env : Env}

theorem checkRange_none {acc : Option Err × Int} (h : (checkRange env acc r).1 = none) :
    acc.1 = none ∧ r.Passes env := by
  unfold checkRange at h
  dsimp only at h
  split_ifs at h with h3 h2 h1
  refine ⟨h, by omega, by omega, by omega, ?_⟩
  intro hrep
  by_contra hbig
  exact h3 ⟨hrep, not_lt.mp hbig⟩

theorem foldl_checkRange_none {acc : Option Err × Int}
    (h : (l.foldl (checkRange env) acc).1 = none) : acc.1 = none ∧ ∀ r ∈ l, r.Passes env := by
  induction l generalizing acc with
  | nil => exact ⟨h, nofun⟩
  | cons r l ih =>
    obtain ⟨hacc, hl⟩ := ih h
    obtain ⟨hacc', hr⟩ := checkRange_none hacc
    exact ⟨hacc', forall_mem_cons.mpr ⟨hr, hl⟩⟩

/-- The size of a short range is computed without overflow. -/
theorem size_eq (h : r.Valid) (hstop : r.stop < lsbMaxArrayIdx) :
    (wrap (r.stop - r.start)).tdiv r.step + 1 = r.steps + 1 ∧ r.steps < 65535 := by
  have h1 := h.start_pos
  have h2 := h.ordered
  have h3 := h.step_pos
  unfold lsbMaxArrayIdx at hstop
  have hnn : 0 ≤ (r.stop - r.start) / r.step := Int.ediv_nonneg (by omega) (by omega)
  have hle : (r.stop - r.start) / r.step ≤ r.stop - r.start := Int.ediv_le_self _ (by omega)
  rw [wrap_of_int (by omega) (by unfold intMax; omega), Int.tdiv_eq_ediv_of_nonneg (by omega)]
  unfold IdxRange.steps
  constructor <;> omega

/-- Within the bounds of an index and of the stack, `arraySize` is the number of indices named. -/
theorem foldl_checkRange_size (env : Env) (acc : Option Err × Int)
    (hl : ∀ r ∈ l, r.Valid ∧ r.stop < lsbMaxArrayIdx) (h0 : 0 ≤ acc.2)
    (hroom : acc.2 + 65535 * l.length ≤ intMax) :
    (l.foldl (checkRange env) acc).2 = acc.2 + (l.flatMap IdxRange.progression).length := by
  induction l generalizing acc with
  | nil => simp
  | cons r l ih =>
    rw [forall_mem_cons] at hl
    obtain ⟨hsize, hsteps⟩ := size_eq hl.1.1 hl.1.2
    rw [length_cons] at hroom
    push_cast at hroom
    have hacc : (checkRange env acc r).2 = acc.2 + (r.steps + 1) := by
      show wrap (acc.2 + wrap ((wrap (r.stop - r.start)).tdiv r.step + 1)) = _
      have hin : wrap ((r.steps : Int) + 1) = r.steps + 1 :=
        wrap_of_int (by omega) (by unfold intMax; omega)
      rw [hsize, hin]
      exact wrap_of_int (by omega) (by omega)
    rw [foldl_cons, ih _ hl.2 (by omega) (by omega), hacc, flatMap_cons,
      length_append, IdxRange.length_progression]
    push_cast
    ring

/-- **What an accepted specification is.** -/
theorem parseJobArrayIndex_ok {limit : Int}
    (h : parseJobArrayIndex env ts = .ok (l, limit)) :
    (∀ r ∈ l, r.Valid) ∧ (env.replay = false → (∀ r ∈ l, r.stop < lsbMaxArrayIdx) ∧
      ((l.flatMap IdxRange.progression).length : Int) ≤ env.maxJobArraySize) := by
  unfold parseJobArrayIndex at h
  split at h
  · cases h
  · next l₀ limit₀ hparse =>
      obtain ⟨hvalid, hlen⟩ := idxparse_valid hparse
      dsimp only at h
      split at h
      · cases h
      · next hnone =>
          obtain ⟨rfl, rfl⟩ : l₀.map (completed env) = l ∧ limit₀ = limit := by
            injection h with h
            exact ⟨congrArg Prod.fst h, congrArg Prod.snd h⟩
          split_ifs at hnone with hbig
          obtain ⟨-, hpass⟩ := foldl_checkRange_none hnone
          have hl : ∀ r ∈ l₀.map (completed env), r.Valid := by
            intro r hr
            obtain ⟨h1, h2, h3, -⟩ := hpass r hr
            obtain ⟨r₀, hr₀, rfl⟩ := mem_map.mp hr
            obtain ⟨-, hstep, hstop⟩ := completed_stop_le env (hvalid r₀ hr₀)
            exact ⟨h1, h2, by rw [hstep]; exact (hvalid r₀ hr₀).step_le, h3, hstop⟩
          refine ⟨hl, ?_⟩
          intro hrep
          have hstop : ∀ r ∈ l₀.map (completed env), r.stop < lsbMaxArrayIdx :=
            fun r hr => (hpass r hr).2.2.2 hrep
          refine ⟨hstop, ?_⟩
          have hsum := foldl_checkRange_size env (none, 0)
            (fun r hr => ⟨hl r hr, hstop r hr⟩) (le_refl _) (by
              rw [length_map]
              have : l₀.length ≤ 74 := hlen
              unfold intMax
              dsimp only
              omega)
          rw [hsum] at hbig
          have hle := fun hlt => hbig ⟨hrep, hlt⟩
          simpa using hle

/-! ## The elements of an array -/

/-- **The elements are as specified**: the loops end, the elements they create are the ones that
`inIdxList` accepts, each is there once, their indices are within the bounds and so is their
number. -/
def CreatesAsSpecified (env : Env) (l : List IdxRange) : Prop :=
  ∃ made, (∃ fuel, handleNewJobArray fuel l = some made) ∧ made.Nodup ∧
    (∀ i ∈ made, 1 ≤ i ∧ i < lsbMaxArrayIdx) ∧ (made.length : Int) ≤ env.maxJobArraySize ∧
    ∀ i, 0 ≤ i → i ≤ lsbMaxArrayIdx → (i ∈ made ↔ inIdxList i l = true)

theorem exists_fuel (l : List IdxRange) : ∃ fuel, ∀ r ∈ l, r.steps + 2 ≤ fuel := by
  refine ⟨(l.map IdxRange.steps).sum + 2, ?_⟩
  intro r hr
  have hle := single_le_sum (fun _ _ => Nat.zero_le _) _
    (mem_map_of_mem (f := IdxRange.steps) hr)
  omega

/-- **Which specifications are created faithfully.** -/
theorem created_iff {env : Env} {ts : List Tok} {l : List IdxRange} {limit : Int}
    (h : parseJobArrayIndex env ts = .ok (l, limit)) :
    CreatesAsSpecified env l ↔
      (∀ r ∈ l, r.lastIndex + r.step ≤ intMax) ∧
      (env.replay = true → (∀ r ∈ l, r.lastIndex < lsbMaxArrayIdx) ∧
        ((l.flatMap IdxRange.progression).dedup.length : Int) ≤ env.maxJobArraySize) := by
  obtain ⟨hl, hsub⟩ := parseJobArrayIndex_ok h
  obtain ⟨fuel₀, hfuel₀⟩ := exists_fuel l
  constructor
  · rintro ⟨made, ⟨fuel, hmade⟩, -, hbounds, hsize, -⟩
    obtain ⟨all, hall, rfl⟩ := Option.map_eq_some_iff.mp hmade
    have hint : ∀ r ∈ l, r.lastIndex + r.step ≤ intMax := by
      intro r hr
      by_contra hover
      obtain ⟨is, his, hmem⟩ := countAll_mem hall hr
      obtain ⟨i, hi, hneg⟩ := countUp_start_negative (hl r hr) (not_le.mp hover) his
      have := (hbounds i (mem_foldl_create.mpr (Or.inr (hmem i hi)))).1
      omega
    -- With more fuel the loops still end the same way.
    have heq : all = l.flatMap IdxRange.progression := by
      have h1 := countAll_mono (Nat.le_max_left fuel fuel₀) hall
      have h2 := countAll_eq hl hint (fun r hr => (hfuel₀ r hr).trans (Nat.le_max_right fuel fuel₀))
      exact Option.some.inj (h1.symm.trans h2)
    refine ⟨hint, ?_⟩
    intro _
    constructor
    · intro r hr
      refine (hbounds r.lastIndex (mem_foldl_create.mpr (Or.inr ?_))).2
      rw [heq]
      exact mem_flatMap.mpr ⟨r, hr, IdxRange.mem_progression.mpr ⟨r.steps, le_refl _, rfl⟩⟩
    · rw [← heq, ← length_foldl_create]
      exact hsize
  · rintro ⟨hint, hrep⟩
    have hlast : ∀ r ∈ l, r.lastIndex < lsbMaxArrayIdx := by
      intro r hr
      cases hstage : env.replay with
      | true => exact (hrep hstage).1 r hr
      | false => exact lt_of_le_of_lt (hl r hr).steps_spec.1 ((hsub hstage).1 r hr)
    have hcount : ((l.flatMap IdxRange.progression).dedup.length : Int) ≤ env.maxJobArraySize := by
      cases hstage : env.replay with
      | true => exact (hrep hstage).2
      | false =>
        have hle := (dedup_sublist (l.flatMap IdxRange.progression)).length_le
        have := (hsub hstage).2
        omega
    refine ⟨(l.flatMap IdxRange.progression).foldl create [], ⟨fuel₀, ?_⟩,
      nodup_foldl_create nodup_nil, ?_, ?_, ?_⟩
    · rw [handleNewJobArray, countAll_eq hl hint hfuel₀]
      rfl
    · intro i hi
      rcases mem_foldl_create.mp hi with hi | hi
      · cases hi
      · obtain ⟨r, hr, hir⟩ := mem_flatMap.mp hi
        obtain ⟨k, hk, rfl⟩ := IdxRange.mem_progression.mp hir
        obtain ⟨h1, h2⟩ := (hl r hr).between hk
        have := (hl r hr).start_pos
        exact ⟨by omega, lt_of_le_of_lt h2 (hlast r hr)⟩
    · rw [length_foldl_create]
      exact hcount
    · intro i _ _
      rw [mem_foldl_create, inIdxList_iff hl]
      simp

/-- `[2-6:2]` at submission. -/
def evenSpec : List Tok := [.ch '[', .icon 2, .ch '-', .icon 6, .ch ':', .icon 2, .ch ']']

theorem evenSpec_created :
    parseJobArrayIndex ⟨1000, false⟩ evenSpec = .ok ([⟨2, 6, 2⟩], intMax) ∧
      CreatesAsSpecified ⟨1000, false⟩ [⟨2, 6, 2⟩] := by
  have h : parseJobArrayIndex ⟨1000, false⟩ evenSpec = .ok ([⟨2, 6, 2⟩], intMax) := by decide
  exact ⟨h, (created_iff h).mpr (by decide)⟩

/-- `[5-10:2147483645]` is accepted at submission. -/
def wideStep : List Tok := [.ch '[', .icon 5, .ch '-', .icon 10, .ch ':', .icon 2147483645, .ch ']']

/-- The counter wraps, and elements with negative indices are created. -/
theorem wideStep_negative_elements :
    parseJobArrayIndex ⟨1000, false⟩ wideStep = .ok ([⟨5, 10, 2147483645⟩], intMax) ∧
    handleNewJobArray 5 [⟨5, 10, 2147483645⟩] = some [5, -2147483646, -1] ∧
    ∀ made fuel, handleNewJobArray fuel [⟨5, 10, 2147483645⟩] = some made →
      ¬ ∀ i ∈ made, 1 ≤ i ∧ i < lsbMaxArrayIdx := by
  refine ⟨by decide, by decide, ?_⟩
  intro made fuel hmade hbounds
  obtain ⟨all, hall, rfl⟩ := Option.map_eq_some_iff.mp hmade
  obtain ⟨is, his, hmem⟩ := countAll_mem hall (mem_singleton_self _)
  obtain ⟨i, hi, hneg⟩ := countUp_start_negative ⟨by decide, by decide, by decide, by decide,
    by decide⟩ (by decide) his
  have := (hbounds i (mem_foldl_create.mpr (Or.inr (hmem i hi)))).1
  omega

end Volclava.JobArray
