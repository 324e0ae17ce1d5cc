import Mathlib
import Volclava.DepToken
import Volclava.Lib.CInt
import Volclava.Lib.Halting

/-!
# The parser of dependency conditions

`parseDepCond` (`mbd.dep.c`) reads a dependency condition with a stack of operators and a stack of
operands. A job term is looked up with `matchJobs`; what is not found is an error, except while the
event log is replayed. The words of a time window are read twice, first for their length and then
to be added.

The loops of the source become the control states of a machine: `main` for the token loop, `scan`
and `collect` for the two loops over the words of a time window. One step is one iteration.

- `step`, `parseDepCond`: the machine, started on a text.
- `Stuck`: a character that begins no token stands where the loop goes round again at it.
- `step_measure`: a step from any other state takes something off the text or ends a loop.
- `halts_iff_never_stuck`: the parser returns exactly when its run never comes to a stuck state.
-/

namespace Volclava.Dep

open CInt

/-! ## Nodes -/

/-- What a leaf refers to: a job with the exit code asked for and the flag
`ARRAY_DEP_ONE_TO_ONE`, a counter of a job array, or the words of a time window. -/
inductive LeafData (Job : Type) where
  | job (jobRec : Option Job) (exitCode : Option (DptType × Int)) (oneToOne : Bool)
  | jgrp (array : Option Job) (opType : DptType) (num : Int)
  | window (words : List (List Char))
  deriving DecidableEq

structure Leaf (Job : Type) where
  type : DptType
  data : LeafData Job
  deriving DecidableEq

/-- The types of the nodes on the operator stack. -/
inductive Op where
  | and
  | or
  | not
  | left
  deriving DecidableEq

/-- `dptNode`. A leaf has the number of its allocation, which tells it from every other one. -/
inductive Node (Job : Type) where
  | leaf (id : Nat) (leaf : Leaf Job)
  | not (dptLeft : Node Job)
  | and (dptLeft dptRight : Node Job)
  | or (dptLeft dptRight : Node Job)
  | left (dptLeft dptRight : Node Job)
  deriving DecidableEq

variable {Job : Type}

/-! ## The two stacks -/

/-- `preceTable`, which ends before the entry of an opening parenthesis: `beyond` is the byte
behind it. -/
def preceTable (beyond : Int) : Op → Int
  | .and => 2
  | .or => 1
  | .not => 3
  | .left => beyond

/-- `mergeNode(MERGE_TOP)` for the operator that was popped; without enough operands both stacks
stay as they are. -/
def mergeTop : Op → List (Node Job) → Option (List (Node Job))
  | .not, x :: xs => some (.not x :: xs)
  | .and, x :: y :: xs => some (.and x y :: xs)
  | .or, x :: y :: xs => some (.or x y :: xs)
  | .left, x :: y :: xs => some (.left x y :: xs)
  | _, _ => none

/-- `mergeNode(MERGE_LEFT)`. -/
def mergeLeft : List Op → List (Node Job) → Option (List Op × List (Node Job))
  | [], _ => none
  | .left :: ops, xs => some (ops, xs)
  | op :: ops, xs =>
    match mergeTop op xs with
    | some ys => mergeLeft ops ys
    | none => none

/-- `mergeNode(MERGE_ALL)`. -/
def mergeAll : List Op → List (Node Job) → List Op × List (Node Job)
  | [], xs => ([], xs)
  | op :: ops, xs =>
    match mergeTop op xs with
    | some ys => mergeAll ops ys
    | none => (op :: ops, xs)

/-- An operator arrives: at most one operator that binds tighter is merged before it. -/
def pushOperator (beyond : Int) (op : Op) (ops : List Op) (xs : List (Node Job)) :
    Option (List Op × List (Node Job)) :=
  match ops with
  | [] => some ([op], xs)
  | prev :: below =>
    if preceTable beyond prev > preceTable beyond op then
      match mergeTop prev xs with
      | some ys => some (op :: below, ys)
      | none => none
    else some (op :: prev :: below, xs)

/-- `createMoreNodes`: the nodes of a term that several jobs match, each merged with those before
it. The leaves are numbered from `k`. -/
def createMoreNodes (k : Nat) (first : Leaf Job) (more : List (Leaf Job)) : Node Job :=
  (more.foldl (fun p l => (.and (.leaf p.2 l) p.1, p.2 + 1)) (Node.leaf k first, k + 1)).1

/-! ## Numbers -/

def digits (w : List Char) : Option Nat :=
  if w ≠ [] ∧ w.all Char.isDigit then some (w.foldl (fun n c => 10 * n + (c.toNat - 48)) 0)
  else none

/-- `strtol`, for a word that is a number to its end. -/
def strtol (w : List Char) : Option Int :=
  match w.dropWhile isSpace with
  | '-' :: ds => (digits ds).map fun n => -(n : Int)
  | '+' :: ds => (digits ds).map fun n => (n : Int)
  | ds => (digits ds).map fun n => (n : Int)

/-- `isint_`, with the number `atoi` makes of a word it accepts. -/
def isint (w : List Char) : Option Int :=
  match strtol w with
  | some n =>
    if -2 ^ 63 ≤ n ∧ n < 2 ^ 63 ∧ -intMax < wrap n then some (wrap n) else none
  | none => none

/-! ## What the parser is called with -/

/-- What `matchJobs` finds: jobs of a term, no job, or an index list that is not well formed, in
which case the number of jobs is not written. -/
inductive Matched (Job : Type) where
  | found (first : Job) (more : List Job)
  | notFound
  | badIndex

/-- The stage of the daemon, the flag `WINDOW_CONF`, the byte behind `preceTable`, and the
functions the parser calls on a word. `matchJobs` is also given `*flag`, if it is called with a
flag; `getJobData` says whether the job it finds is an array. -/
structure Env (Job : Type) where
  replay : Bool
  windowConf : Bool
  beyond : Int
  matchJobs : Option Bool → List Char → Matched Job
  getJobData : Int → Option (Job × Bool)
  addWindow : List Char → Bool
  /-- An empty word is no job's name or number. -/
  matchJobs_nil : ∀ flag, matchJobs flag [] = .notFound
  /-- A window has a `-` in it. -/
  addWindow_nil : addWindow [] = false

/-- How the parser ends without a tree: at the label `Error`, or in `createMoreNodes` with no jobs
to make nodes for. -/
inductive Failure where
  | error
  | crash
  deriving DecidableEq

/-! ## Terms -/

/-- The word `[*]` in a job's name asks for a dependency element by element. -/
def oneToOne (word : List Char) : Bool := decide (['[', '*', ']'] <:+: word)

/-- A token of the given type. -/
def expect (type : DptType) (s : List Char) : Except Failure (List Char) :=
  match getToken s with
  | some (_, t, rest) => if t = type then .ok rest else .error .error
  | none => .error .error

def isComparison : DptType → Bool
  | .gt | .ge | .lt | .le | .eq | .ne => true
  | _ => false

/-- The number of an `exit` or a `num` term, behind its comma. -/
def comparison (number : List Char → Option Int) (s : List Char) :
    Except Failure ((DptType × Int) × List Char) :=
  match getToken s with
  | some (word, t, rest) =>
    if isComparison t then
      match getToken rest with
      | some (word', .name, rest') =>
        match number word' with
        | some n => .ok ((t, n), rest')
        | none => .error .error
      | _ => .error .error
    else if t = .name then
      match number word with
      | some n => .ok ((.eq, n), rest)
      | none => .error .error
    else .error .error
  | none => .error .error

/-- The end of an `exit` or a `num` term: `default` stands if there is no comparison. -/
def arguments (number : List Char → Option Int) (default : DptType × Int) (s : List Char) :
    Except Failure ((DptType × Int) × List Char) :=
  match getToken s with
  | some (_, .right, rest) => .ok (default, rest)
  | some (_, .comma, rest) =>
    match comparison number rest with
    | .ok (c, rest') =>
      match expect .right rest' with
      | .ok rest'' => .ok (c, rest'')
      | .error e => .error e
    | .error e => .error e
  | _ => .error .error

/-- The jobs of a word and the new `numJob`. -/
def jobsOf (env : Env Job) (flag : Option Bool) (word : List Char) (numJob : Nat) :
    Except Failure (Option Job × List Job × Nat) :=
  match env.matchJobs flag word with
  | .found j js => .ok (some j, js, js.length + 1)
  | .notFound => if env.replay then .ok (none, [], 0) else .error .error
  | .badIndex =>
    if env.replay then if 1 < numJob then .error .crash else .ok (none, [], numJob)
    else .error .error

/-- A term that was read: its leaves, the text behind it and the parser's variables. -/
structure Term (Job : Type) where
  first : Leaf Job
  more : List (Leaf Job)
  rest : List Char
  numJob : Nat
  opFlag : Bool

/-- The closing part of a job term. Only `exit` has a comparison. -/
def jobEnd (type : DptType) (s : List Char) :
    Except Failure (Option (DptType × Int) × List Char) :=
  if type = .exit then
    match arguments isint (.true, 0) s with
    | .ok (c, rest) => .ok (some c, rest)
    | .error e => .error e
  else
    match expect .right s with
    | .ok rest => .ok (none, rest)
    | .error e => .error e

/-- `done(…)`, `post_done(…)`, `post_err(…)`, `exit(…)`, `started(…)` and `ended(…)`. The flag is
reset when one job is found, and otherwise stays for the next term. -/
def jobTerm (env : Env Job) (type : DptType) (s : List Char) (numJob : Nat) (opFlag : Bool) :
    Except Failure (Term Job) :=
  if env.windowConf then .error .error
  else
    match expect .left s with
    | .error e => .error e
    | .ok s₁ =>
      match getToken s₁ with
      | none => .error .error
      | some (word, _, s₂) =>
        match jobsOf env (some (opFlag || oneToOne word)) word numJob with
        | .error e => .error e
        | .ok (j, js, numJob') =>
          match jobEnd type s₂ with
          | .error e => .error e
          | .ok (c, rest) =>
            .ok
              { first :=
                  ⟨type, .job j c (decide (js = [] ∧ j ≠ none) && (opFlag || oneToOne word))⟩
                more := js.map fun i => ⟨type, .job (some i) c false⟩
                rest := rest
                numJob := numJob'
                opFlag :=
                  (opFlag || oneToOne word) && !decide (js = [] ∧ j ≠ none) }

/-- A bare name stands for `done` of it. -/
def nameTerm (env : Env Job) (word s : List Char) (numJob : Nat) (opFlag : Bool) :
    Except Failure (Term Job) :=
  if env.windowConf then .error .error
  else
    match jobsOf env none word numJob with
    | .error e => .error e
    | .ok (j, js, numJob') =>
      .ok
        { first := ⟨.done, .job j none false⟩
          more := js.map fun i => ⟨.done, .job (some i) none false⟩
          rest := s
          numJob := numJob'
          opFlag := opFlag }

/-- The job array of a `num` term. While the log is replayed, a job that is missing or no array is
taken all the same. -/
def arrayOf (env : Env Job) (word : List Char) : Except Failure (Option Job) :=
  match (isint word).bind env.getJobData with
  | some (j, isArray) => if isArray || env.replay then .ok (some j) else .error .error
  | none => if env.replay then .ok none else .error .error

/-- A number or `*`, which is `INFINIT_INT`. -/
def countWord (word : List Char) : Option Int :=
  match isint word with
  | some n => some n
  | none => if word = ['*'] then some intMax else none

/-- `numpend(…)` and the other counters of a job array. -/
def numTerm (env : Env Job) (type : DptType) (s : List Char) (numJob : Nat) (opFlag : Bool) :
    Except Failure (Term Job) :=
  match expect .left s with
  | .error e => .error e
  | .ok s₁ =>
    match getToken s₁ with
    | none => .error .error
    | some (word, _, s₂) =>
      match arrayOf env word with
      | .error e => .error e
      | .ok array =>
        match arguments countWord (.ne, 0) s₂ with
        | .error e => .error e
        | .ok (c, rest) => .ok ⟨⟨type, .jgrp array c.1 c.2⟩, [], rest, numJob, opFlag⟩

/-! ## The machine -/

/-- The loop the parser is in: the token loop, the first loop over the words of a time window, at
its own place in the text, or the second one with the words it has added. -/
inductive Control where
  | main
  | scan (tempCond : List Char)
  | collect (words : List (List Char))
  deriving DecidableEq

structure State (Job : Type) where
  dependCond : List Char
  control : Control
  operators : List Op
  operands : List (Node Job)
  numJob : Nat
  opFlag : Bool
  /-- The number of the next leaf. -/
  serial : Nat

inductive Result (Job : Type) where
  | tree (root : Node Job)
  | failed (why : Failure)

def start (dependCond : List Char) : State Job := ⟨dependCond, .main, [], [], 0, false, 0⟩

/-- The end of the text: one operand and no operator may be left. -/
def finish (st : State Job) : Result Job :=
  match mergeAll st.operators st.operands with
  | ([], [root]) => .tree root
  | _ => .failed .error

/-- New stacks, or the label `Error`. -/
def withStacks (st : State Job) (rest : List Char) :
    Option (List Op × List (Node Job)) → State Job ⊕ Result Job
  | some (ops, xs) => .inl { st with dependCond := rest, operators := ops, operands := xs }
  | none => .inr (.failed .error)

/-- The nodes of a term go onto the operand stack. -/
def withTerm (st : State Job) : Except Failure (Term Job) → State Job ⊕ Result Job
  | .ok t =>
    .inl { st with
      dependCond := t.rest
      control := .main
      operands := createMoreNodes st.serial t.first t.more :: st.operands
      numJob := t.numJob
      opFlag := t.opFlag
      serial := st.serial + t.more.length + 1 }
  | .error e => .inr (.failed e)

/-- One iteration of the token loop, with the token that was read. -/
def mainStep (env : Env Job) (st : State Job) (word : List Char) (type : DptType)
    (rest : List Char) : State Job ⊕ Result Job :=
  match type with
  | .and => withStacks st rest (pushOperator env.beyond .and st.operators st.operands)
  | .or => withStacks st rest (pushOperator env.beyond .or st.operators st.operands)
  | .not => withStacks st rest (pushOperator env.beyond .not st.operators st.operands)
  | .left => withStacks st rest (some (.left :: st.operators, st.operands))
  | .right => withStacks st rest (mergeLeft st.operators st.operands)
  | .window =>
    match expect .left rest with
    | .ok rest' => .inl { st with dependCond := rest', control := .scan rest' }
    | .error e => .inr (.failed e)
  | .done | .postDone | .postErr | .exit | .started | .ended =>
    withTerm st (jobTerm env type rest st.numJob st.opFlag)
  | .name => withTerm st (nameTerm env word rest st.numJob st.opFlag)
  | .numpend | .numhold | .numrun | .numexit | .numdone | .numstart | .numended =>
    withTerm st (numTerm env type rest st.numJob st.opFlag)
  | .comma | .gt | .ge | .lt | .le | .eq | .ne | .true => .inr (.failed .error)

/-- One iteration of the loop the parser is in. -/
def step (env : Env Job) (st : State Job) : State Job ⊕ Result Job :=
  match st.control with
  | .main =>
    match getToken st.dependCond with
    | none => .inr (finish st)
    | some (word, type, rest) => mainStep env st word type rest
  | .scan tempCond =>
    match getToken tempCond with
    | some (_, .right, _) => .inl { st with control := .collect [] }
    | some (_, .name, rest) => .inl { st with control := .scan rest }
    | _ => .inr (.failed .error)
  | .collect words =>
    match getToken st.dependCond with
    | some (_, .right, rest) =>
      withTerm st (.ok ⟨⟨.window, .window words⟩, [], rest, st.numJob, st.opFlag⟩)
    | some (word, .name, rest) =>
      if env.addWindow word then
        .inl { st with dependCond := rest, control := .collect (words ++ [word]) }
      else .inr (.failed .error)
    | _ => .inr (.failed .error)

/-- `parseDepCond` with a bound on the iterations of its loops. -/
def parseDepCond (env : Env Job) (fuel : Nat) (dependCond : List Char) : Option (Result Job) :=
  Halting.exec (step env) fuel (start dependCond)

/-! ## The text behind a term -/

variable {type : DptType} {s rest : List Char} {env : Env Job} {st st' : State Job}
  {numJob : Nat} {opFlag : Bool} {t : Term Job}

theorem expect_behind (h : expect type s = .ok rest) :
    Behind s rest := by
  unfold expect at h
  split at h
  · rename_i heq
    split_ifs at h
    cases h
    exact getToken_behind heq
  · cases h

theorem comparison_behind {number : List Char → Option Int} {c : DptType × Int}
    (h : comparison number s = .ok (c, rest)) : Behind s rest := by
  unfold comparison at h
  split at h
  · rename_i heq
    have hs := getToken_behind heq
    split_ifs at h
    · split at h
      · rename_i heq'
        have hs' := getToken_behind heq'
        split at h
        · cases h
          exact hs.trans hs'
        · cases h
      · cases h
    · split at h
      · cases h
        exact hs
      · cases h
  · cases h

theorem arguments_behind {number : List Char → Option Int} {default c : DptType × Int}
    (h : arguments number default s = .ok (c, rest)) :
    Behind s rest := by
  unfold arguments at h
  split at h
  · rename_i heq
    cases h
    exact getToken_behind heq
  · rename_i heq
    have hs := getToken_behind heq
    split at h
    · rename_i hcomp
      have hc := comparison_behind hcomp
      split at h
      · rename_i hexp
        have he := expect_behind hexp
        cases h
        exact (hs.trans hc).trans he
      · cases h
    · cases h
  · cases h

theorem jobEnd_behind {c : Option (DptType × Int)} (h : jobEnd type s = .ok (c, rest)) :
    Behind s rest := by
  unfold jobEnd at h
  split_ifs at h
  · split at h
    · rename_i harg
      cases h
      exact arguments_behind harg
    · cases h
  · split at h
    · rename_i hexp
      cases h
      exact expect_behind hexp
    · cases h

theorem jobTerm_behind (h : jobTerm env type s numJob opFlag = .ok t) : Behind s t.rest := by
  unfold jobTerm at h
  split_ifs at h
  split at h
  · cases h
  rename_i hleft
  have h₁ := expect_behind hleft
  split at h
  · cases h
  rename_i hword
  have h₂ := getToken_behind hword
  split at h
  · cases h
  split at h
  · cases h
  rename_i hend
  have h₃ := jobEnd_behind hend
  cases h
  exact (h₁.trans h₂).trans h₃

theorem numTerm_behind (h : numTerm env type s numJob opFlag = .ok t) : Behind s t.rest := by
  unfold numTerm at h
  split at h
  · cases h
  rename_i hleft
  have h₁ := expect_behind hleft
  split at h
  · cases h
  rename_i hword
  have h₂ := getToken_behind hword
  split at h
  · cases h
  split at h
  · cases h
  rename_i harg
  have h₃ := arguments_behind harg
  cases h
  exact (h₁.trans h₂).trans h₃

theorem nameTerm_rest {word : List Char}
    (h : nameTerm env word s numJob opFlag = .ok t) : t.rest = s := by
  unfold nameTerm at h
  split_ifs at h
  split at h
  · cases h
  · cases h
    rfl

/-! ## Termination -/

/-- The loop that a state is in, as what is left of it: the second loop over a time window comes
before the token loop, and the first one before both. -/
def Control.left : Control → Nat
  | .main => 0
  | .collect _ => 1
  | .scan tempCond => tempCond.length + 2

/-- What is left of the text, and at one place in it what is left of the loops. -/
def measure (st : State Job) : Nat × Nat := (st.dependCond.length, st.control.left)

/-- The order in which the measure decreases. -/
def Less : Nat × Nat → Nat × Nat → Prop := Prod.Lex (· < ·) (· < ·)

theorem less_wf : WellFounded Less := WellFounded.prod_lex wellFounded_lt wellFounded_lt

theorem less_of_text (h : st'.dependCond.length < st.dependCond.length) :
    Less (measure st') (measure st) := Prod.Lex.left _ _ h

theorem less_of_control (h : st'.dependCond = st.dependCond)
    (hc : st'.control.left < st.control.left) : Less (measure st') (measure st) := by
  unfold measure
  rw [h]
  exact Prod.Lex.right _ hc

/-- A character with which no token begins stands where the loop does not end at it: among the
words of a time window, or, while the log is replayed, where a term is read. -/
def Stuck (env : Env Job) (st : State Job) : Prop :=
  match st.control with
  | .main => Foreign st.dependCond ∧ env.replay = true ∧ env.windowConf = false
  | .scan tempCond => Foreign tempCond
  | .collect _ => False

instance (env : Env Job) (st : State Job) : Decidable (Stuck env st) := by
  unfold Stuck
  split <;> infer_instance

theorem withStacks_inl {merged : Option (List Op × List (Node Job))}
    (h : withStacks st rest merged = .inl st') :
    st'.dependCond = rest ∧ st'.control = st.control := by
  cases merged with
  | none => cases h
  | some p =>
    cases h
    exact ⟨rfl, rfl⟩

theorem withTerm_inl {term : Except Failure (Term Job)} (h : withTerm st term = .inl st') :
    ∃ t, term = .ok t ∧ st'.dependCond = t.rest ∧ st'.control = .main := by
  cases term with
  | error e => cases h
  | ok t =>
    cases h
    exact ⟨t, rfl, rfl, rfl⟩

/-- An empty name is looked up as a job's name: only a replay goes on with it. -/
theorem nameTerm_nil (h : nameTerm env [] s numJob opFlag = .ok t) :
    env.replay = true ∧ env.windowConf = false := by
  unfold nameTerm at h
  split_ifs at h with hconf
  rw [jobsOf, env.matchJobs_nil] at h
  by_cases hreplay : env.replay = true
  · exact ⟨hreplay, by simpa using hconf⟩
  · simp [hreplay] at h

/-- Both places of the parser are in the text it was given. -/
def Within (dependCond : List Char) (st : State Job) : Prop :=
  Behind dependCond st.dependCond ∧
    ∀ tempCond, st.control = .scan tempCond → Behind dependCond tempCond

theorem within_start (dependCond : List Char) : Within dependCond (start dependCond : State Job) :=
  ⟨.refl, fun _ h => nomatch h⟩

/-- A token of the token loop is followed by the end of the text behind it, also in the loop over a
time window. -/
theorem mainStep_within {word rest : List Char} (hc : st.control = .main)
    (h : mainStep env st word type rest = .inl st') :
    Within rest st' := by
  have hterm {term : Except Failure (Term Job)} (h : withTerm st term = .inl st')
      (hle : ∀ t, term = .ok t → Behind rest t.rest) : Within rest st' := by
    obtain ⟨t, ht, htext, hmain⟩ := withTerm_inl h
    exact ⟨htext ▸ hle t ht, by simp [hmain]⟩
  have hstacks (merged : Option (List Op × List (Node Job)))
      (h : withStacks st rest merged = .inl st') : Within rest st' := by
    obtain ⟨htext, hctrl⟩ := withStacks_inl h
    exact ⟨htext ▸ .refl, by simp [hctrl, hc]⟩
  cases type with
  | name => exact hterm h fun t ht => nameTerm_rest ht ▸ .refl
  | window =>
    unfold mainStep at h
    dsimp only at h
    split at h
    · rename_i hexp
      cases h
      refine ⟨expect_behind hexp, ?_⟩
      intro tempCond htemp
      cases htemp
      exact expect_behind hexp
    · cases h
  | left => exact hstacks (some (.left :: st.operators, st.operands)) h
  | and | or | not | right => exact hstacks _ h
  | done | postDone | postErr | exit | started | ended =>
    exact hterm h fun t ht => jobTerm_behind ht
  | numpend | numhold | numrun | numexit | numdone | numstart | numended =>
    exact hterm h fun t ht => numTerm_behind ht
  | comma | gt | ge | lt | le | eq | ne | true => cases h

variable {st : State Job}

theorem Within.trans {s t : List Char} (hst : Behind s t) (h : Within t st) :
    Within s st := ⟨hst.trans h.1, fun tempCond htemp => hst.trans (h.2 tempCond htemp)⟩

/-- A token of the token loop takes something off the text, except an empty name in a replay. -/
theorem mainStep_text {word rest : List Char} (hc : st.control = .main)
    (htok : getToken st.dependCond = some (word, type, rest))
    (h : mainStep env st word type rest = .inl st') :
    st'.dependCond.length < st.dependCond.length ∨
      Foreign st.dependCond ∧ env.replay = true ∧ env.windowConf = false := by
  by_cases hname : type = .name
  · subst hname
    obtain ⟨t, ht, htext, -⟩ := withTerm_inl h
    rw [htext, nameTerm_rest ht]
    rcases getToken_stays htok with hlt | ⟨rfl, -, rfl⟩
    · exact .inl hlt
    · exact .inr ⟨foreign_of_getToken htok, nameTerm_nil ht⟩
  · have hle := (mainStep_within hc h).1.length_le
    exact .inl (hle.trans_lt (getToken_lt htok hname))

/-- **A step from a state that is not stuck takes something off the text or ends a loop.** -/
theorem step_measure (hstuck : ¬ Stuck env st) (h : step env st = .inl st') :
    Less (measure st') (measure st) := by
  unfold step at h
  cases hc : st.control with
  | main =>
    rw [hc] at h
    dsimp only at h
    split at h
    · cases h
    · rename_i htok
      rcases mainStep_text hc htok h with hlt | hst
      · exact less_of_text hlt
      · exact absurd (by simpa only [Stuck, hc] using hst) hstuck
  | scan tempCond =>
    rw [hc] at h
    dsimp only at h
    have hnot : ¬ Foreign tempCond := by simpa only [Stuck, hc] using hstuck
    split at h
    · cases h
      exact less_of_control rfl (by simp [hc, Control.left])
    · rename_i htok
      cases h
      refine less_of_control rfl ?_
      rcases getToken_stays htok with hlt | ⟨rfl, -, rfl⟩
      · simpa [hc, Control.left] using hlt
      · exact absurd (foreign_of_getToken htok) hnot
    · cases h
  | collect words =>
    rw [hc] at h
    dsimp only at h
    split at h
    · rename_i htok
      obtain ⟨t, ht, htext, -⟩ := withTerm_inl h
      cases ht
      exact less_of_text (htext ▸ getToken_lt htok (by decide))
    · rename_i htok
      split_ifs at h with hadd
      cases h
      rcases getToken_stays htok with hlt | ⟨rfl, -, rfl⟩
      · exact less_of_text hlt
      · simp [env.addWindow_nil] at hadd
    · cases h

/-- A stuck state is followed by one at the same place. -/
theorem step_of_stuck (h : Stuck env st) :
    ∃ st', step env st = .inl st' ∧ Stuck env st' := by
  cases hc : st.control with
  | main =>
    obtain ⟨hat, hreplay, hconf⟩ : Foreign st.dependCond ∧ env.replay = true ∧
        env.windowConf = false := by simpa only [Stuck, hc] using h
    have htok := getToken_of_foreign hat
    refine ⟨{ st with
      control := .main
      operands := createMoreNodes st.serial ⟨.done, .job none none false⟩ [] :: st.operands
      numJob := 0
      serial := st.serial + 1 }, ?_, ⟨hat, hreplay, hconf⟩⟩
    simp [step, hc, htok, mainStep, nameTerm, jobsOf, env.matchJobs_nil, hreplay, hconf,
      withTerm]
  | scan tempCond =>
    have hat : Foreign tempCond := by simpa only [Stuck, hc] using h
    have htok := getToken_of_foreign hat
    refine ⟨{ st with control := .scan tempCond }, ?_, hat⟩
    simp [step, hc, htok]
  | collect words => exact absurd h (by simp [Stuck, hc])

theorem halts_iff_never_stuck (env : Env Job) (st : State Job) :
    Halting.Halts (step env) st ↔ ∀ st', Halting.Reaches (step env) st st' → ¬ Stuck env st' :=
  Halting.halts_iff less_wf (fun _ _ => step_measure) fun _ => step_of_stuck

/-- **The parser returns on a text exactly when reading it never brings a character that begins no
token into a time window or, in a replay, into the place of a term.** -/
theorem parseDepCond_returns_iff (env : Env Job) (dependCond : List Char) :
    (∃ fuel result, parseDepCond env fuel dependCond = some result) ↔
      ∀ st, Halting.Reaches (step env) (start dependCond) st → ¬ Stuck env st := by
  rw [← halts_iff_never_stuck]
  exact exists_comm

/-! ## Texts of tokens -/

variable {dependCond : List Char}

theorem step_within (hin : Within dependCond st)
    (h : step env st = .inl st') : Within dependCond st' := by
  unfold step at h
  cases hc : st.control with
  | main =>
    rw [hc] at h
    dsimp only at h
    split at h
    · cases h
    · rename_i htok
      exact .trans (hin.1.trans (getToken_behind htok)) (mainStep_within hc h)
  | scan tempCond =>
    rw [hc] at h
    dsimp only at h
    split at h
    · cases h
      exact ⟨hin.1, fun _ htemp => nomatch htemp⟩
    · rename_i htok
      cases h
      refine ⟨hin.1, ?_⟩
      intro tempCond' htemp
      cases htemp
      exact (hin.2 _ hc).trans (getToken_behind htok)
    · cases h
  | collect words =>
    rw [hc] at h
    dsimp only at h
    split at h
    · rename_i htok
      cases h
      exact ⟨hin.1.trans (getToken_behind htok), fun _ htemp => nomatch htemp⟩
    · rename_i htok
      split_ifs at h
      cases h
      exact ⟨hin.1.trans (getToken_behind htok), fun _ htemp => nomatch htemp⟩
    · cases h

theorem reaches_within
    (h : Halting.Reaches (step env) (start dependCond) st) : Within dependCond st := by
  induction h with
  | refl => exact within_start dependCond
  | tail _ hlast ih => exact step_within ih hlast

/-- No job exists. -/
def noJobs (replay : Bool) : Env Nat where
  replay := replay
  windowConf := false
  beyond := 0
  matchJobs _ _ := .notFound
  getJobData _ := none
  addWindow word := word.contains '-'
  matchJobs_nil _ := rfl
  addWindow_nil := rfl

/-- `time(=)` is read for ever in both stages, and `=` while the log is replayed. -/
theorem equals_sign_never_returns :
    (∀ replay fuel, parseDepCond (noJobs replay) fuel ['t', 'i', 'm', 'e', '(', '=', ')'] = none) ∧
      ∀ fuel, parseDepCond (noJobs true) fuel ['='] = none := by
  have hnone {env : Env Nat} {s : List Char} (st : State Nat)
      (hreach : Halting.Reaches (step env) (start s) st) (hst : Stuck env st) (fuel : Nat) :
      parseDepCond env fuel s = none := by
    by_contra hsome
    obtain ⟨r, hr⟩ := Option.ne_none_iff_exists'.mp hsome
    exact (halts_iff_never_stuck env (start s)).mp ⟨r, fuel, hr⟩ st hreach hst
  refine ⟨?_, ?_⟩
  · intro replay fuel
    refine hnone ⟨['=', ')'], .scan ['=', ')'], [], [], 0, false, 0⟩ ?_ ?_ fuel
    · exact .single (by cases replay <;> rfl)
    · show Foreign ['=', ')']
      decide
  · intro fuel
    refine hnone (start ['=']) .refl ?_ fuel
    refine ⟨?_, rfl, rfl⟩
    decide

end Volclava.Dep
