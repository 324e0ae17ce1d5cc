import Volclava.Lib.Loop

/-!
# The candidate list of a load adjustment

`loadadjReq` (`lim.policy.c`) collects the hosts a job-transfer message names, with the tasks sent
to each, and `updExtraLoad` raises the load of every host collected. A host that is named again is
meant to be found among the candidates. The search compares it with `candidates[j]`, the cell
behind the last candidate, and never with a candidate.

- `search`, `loadadjReq`: the loop, with what the cells that are not filled hold as a parameter.
- `merged_iff`: the candidates are right exactly when at most one entry names a known host, and its
  tasks fit into the `short` that holds them.
-/

namespace Volclava.LoadAdj

variable {N H L : Type}

/-- `placeInfo` -/
structure PlaceInfo (N : Type) where
  hostName : N
  numtask : Int32

/-- The list of candidates. Of a cell of `candidates` that is read, `reads` notes its position and
the number of cells filled by then. -/
structure CandList (H : Type) where
  candidates : Nat → Option H
  j : Nat
  use : H → Int16
  reads : List (Nat × Nat)

/-- The hosts in the cells that are filled. -/
def CandList.hosts (s : CandList H) : List H := (List.range s.j).filterMap s.candidates

variable [DecidableEq H]

/-- The search with `n` rounds to go: where it ends, and the position it looks at in each round. -/
def search (candidates : Nat → Option H) (j : Nat) (candidate : H) : Nat → Nat × List Nat
  | 0 => (j, [])
  | n + 1 =>
    if candidates j = some candidate then (j - (n + 1), [j])
    else ((search candidates j candidate n).1, j :: (search candidates j candidate n).2)

/-- One round of the loop, for a known host. -/
def addHost (s : CandList H) (e : H × Int32) : CandList H :=
  let (k, read) := search s.candidates s.j e.1 s.j
  let s := { s with reads := s.reads ++ read.map (·, s.j) }
  if k = s.j then
    { s with
      candidates := Function.update s.candidates s.j (some e.1)
      use := Function.update s.use e.1 e.2.toInt16
      j := s.j + 1 }
  else
    match s.candidates k with
    | none => s
    | some h => { s with use := Function.update s.use h (s.use h + e.2.toInt16) }

/-- What an entry says of a host that `findHostbyList` finds. -/
def known (findHostbyList : N → Option H) (e : PlaceInfo N) : Option (H × Int32) :=
  (findHostbyList e.hostName).map (·, e.numtask)

/-- `loadadjReq` up to the call of `loadAdj`. The cells `initCandList` allocates are `NULL`; those
`addCandList` adds to them, and those behind the last, hold anything. -/
def loadadjReq (findHostbyList : N → Option H) (candidates : Nat → Option H) (use : H → Int16)
    (placeInfo : List (PlaceInfo N)) : CandList H :=
  (placeInfo.filterMap (known findHostbyList)).foldl addHost ⟨candidates, 0, use, []⟩

/-- `updExtraLoad`. What it does to the load of one host, given its `use`, is `raise`. -/
def updExtraLoad (raise : Int → L → L) (s : CandList H) (load : H → L) : H → L :=
  s.hosts.foldl (fun load h => Function.update load h (raise (s.use h).toInt (load h))) load

/-- The tasks of a host, over all entries. -/
def tasks (entries : List (H × Int32)) (h : H) : Int :=
  ((entries.filter (·.1 = h)).map (·.2.toInt)).sum

/-- What the candidates are meant to be: every host named, in the order of first mention and with
all its tasks, found without reading a cell that is not filled; and each is raised once. -/
structure Merged (raise : Int → L → L) (entries : List (H × Int32)) (s : CandList H) : Prop where
  hosts : s.hosts = (entries.map (·.1)).foldl Loop.addNew []
  use : ∀ h ∈ s.hosts, (s.use h).toInt = tasks entries h
  reads : ∀ r ∈ s.reads, r.1 < r.2
  raised : ∀ load h, updExtraLoad raise s load h =
    if h ∈ entries.map (·.1) then raise (tasks entries h) (load h) else load h

/-- The first host is added without a search. -/
theorem addHost_first (candidates : Nat → Option H) (use : H → Int16) (e : H × Int32) :
    addHost ⟨candidates, 0, use, []⟩ e =
      ⟨Function.update candidates 0 (some e.1), 1, Function.update use e.1 e.2.toInt16, []⟩ :=
  rfl

theorem search_ne_nil (candidates : Nat → Option H) (j : Nat) (candidate : H) (n : Nat) :
    j ∈ (search candidates j candidate (n + 1)).2 := by
  rw [search]
  split_ifs <;> simp

theorem reads_addHost (s : CandList H) (e : H × Int32) : (addHost s e).reads =
    s.reads ++ (search s.candidates s.j e.1 s.j).2.map (·, s.j) := by
  unfold addHost
  dsimp only
  split_ifs
  · rfl
  · split <;> rfl

theorem reads_foldl {s : CandList H} {r : Nat × Nat} (h : r ∈ s.reads) (l : List (H × Int32)) :
    r ∈ (l.foldl addHost s).reads := by
  induction l generalizing s with
  | nil => exact h
  | cons e l ih => exact ih (reads_addHost s e ▸ List.mem_append_left _ h)

/-- A task count that a `short` holds. -/
def FitsShort (n : Int32) : Prop := n.toInt16.toInt = n.toInt

theorem fitsShort_iff (n : Int32) : FitsShort n ↔ -2 ^ 15 ≤ n.toInt ∧ n.toInt < 2 ^ 15 := by
  rw [FitsShort, Int32.toInt_toInt16]
  constructor
  · intro h
    exact h ▸ ⟨Int.le_bmod (by decide), Int.bmod_lt (by decide)⟩
  · rintro ⟨hl, hu⟩
    exact Int.bmod_eq_of_le hl hu

/-- The list with one candidate is right if the tasks are stored as they are. -/
theorem merged_one (candidates : Nat → Option H) (use : H → Int16) (raise : Int → L → L)
    (e : H × Int32) :
    Merged raise [e] (addHost ⟨candidates, 0, use, []⟩ e) ↔ FitsShort e.2 := by
  have hhosts : (addHost ⟨candidates, 0, use, []⟩ e).hosts = [e.1] := by
    simp [addHost_first, CandList.hosts]
  have huse : (addHost ⟨candidates, 0, use, []⟩ e).use e.1 = e.2.toInt16 := by
    simp [addHost_first]
  have htasks : tasks [e] e.1 = e.2.toInt := by simp [tasks]
  constructor
  · intro h
    have := h.use e.1 (hhosts ▸ List.mem_singleton_self e.1)
    rwa [huse, htasks] at this
  · intro hfit
    rw [FitsShort, ← huse, ← htasks] at hfit
    refine ⟨hhosts, fun h hh => ?_, nofun, fun load h => ?_⟩
    · rw [hhosts, List.mem_singleton] at hh
      exact hh ▸ hfit
    · rw [updExtraLoad, hhosts, List.foldl_cons, List.foldl_nil, hfit, Function.update_apply]
      by_cases hh : h = e.1 <;> simp [hh]

/-- **The candidates are right exactly when at most one entry names a known host**, with a task
count within the range of `short`. From the second one on the search reads the cell that is filled
next. -/
theorem merged_iff (findHostbyList : N → Option H) (candidates : Nat → Option H) (use : H → Int16)
    (raise : Int → L → L) (placeInfo : List (PlaceInfo N)) :
    Merged raise (placeInfo.filterMap (known findHostbyList))
        (loadadjReq findHostbyList candidates use placeInfo) ↔
      placeInfo.countP (fun e => (findHostbyList e.hostName).isSome) ≤ 1 ∧
        ∀ e ∈ placeInfo, (findHostbyList e.hostName).isSome →
          -2 ^ 15 ≤ e.numtask.toInt ∧ e.numtask.toInt < 2 ^ 15 := by
  have hcount : placeInfo.countP (fun e => (findHostbyList e.hostName).isSome) =
      (placeInfo.filterMap (known findHostbyList)).length := by
    rw [List.length_filterMap_eq_countP]
    simp [known]
  have hfits : (∀ e ∈ placeInfo, (findHostbyList e.hostName).isSome →
      -2 ^ 15 ≤ e.numtask.toInt ∧ e.numtask.toInt < 2 ^ 15) ↔
        ∀ e ∈ placeInfo.filterMap (known findHostbyList), FitsShort e.2 := by
    simp only [List.mem_filterMap, known, Option.map_eq_some_iff, Option.isSome_iff_exists,
      ← fitsShort_iff]
    constructor
    · rintro h _ ⟨e, he, hp, hfound, rfl⟩
      exact h e he ⟨hp, hfound⟩
    · rintro h e he ⟨hp, hfound⟩
      exact h (hp, e.numtask) ⟨e, he, hp, hfound, rfl⟩
  rw [hcount, hfits, loadadjReq]
  generalize placeInfo.filterMap (known findHostbyList) = entries
  match entries with
  | [] => simpa using ⟨rfl, nofun, nofun, fun _ _ => rfl⟩
  | [e] =>
    rw [List.foldl_cons, List.foldl_nil, merged_one]
    simp
  | e :: e' :: rest =>
    refine iff_of_false (fun h => ?_) (by simp)
    have hread : (1, 1) ∈ (addHost (addHost ⟨candidates, 0, use, []⟩ e) e').reads := by
      rw [addHost_first, reads_addHost]
      exact List.mem_map_of_mem (search_ne_nil _ 1 e'.1 0)
    exact absurd (h.reads _ (reads_foldl hread rest)) (lt_irrefl 1)

/-- A host that is named twice becomes two candidates. -/
theorem named_twice : ¬Merged (L := Int) (· + ·) [((), 1), ((), 1)]
    (loadadjReq (fun _ : Unit => some ()) (fun _ => none) (fun _ => 0) [⟨(), 1⟩, ⟨(), 1⟩]) := by
  intro h
  exact absurd h.hosts (by decide)

end Volclava.LoadAdj
