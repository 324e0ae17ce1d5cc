import Volclava.Lib.Decoder
import Volclava.Lib.Xdr

/-!
# Decoding a submit request

A client's submit request is decoded by `xdr_lsfAuth` and `xdr_submitReq` into buffers of fixed
sizes and into arrays that are allocated for counts read from the message. The model keeps the bytes
each item stores with the size of the place it stores them in, and for each array its count and
whether it is allocated.

- `xdrString`, `xdrBytes`, `xdrVarString`, `xdrArrayElement`: the items.
- `xdrLsfAuth`, `xdrSubmitReq`: the two decoders with their error exits.
- `Quiet`: what stores inside its places and leaves the arrays alone; every fixed item does.
-/

namespace Volclava

namespace SubmitXdr

open Xdr

/-! ## The message and the structures -/

def maxLsfNameLen : Nat := 40
def maxHostNameLen : Nat := 64
def maxFileNameLen : Nat := 4096
def eauthSize : Nat := 4096
def lsfRlimNlimits : Nat := 11

/-- The places the decoders store to. -/
inductive Field where
  | uid | gid | lsfUserName | kind | tokenLen | authToken | eauthLen | eauthData | filler
  | authOptions
  | options | queue | resReq | numProcessors
  | fromHost | dependCond | jobName | command | jobFile | inFile | outFile | errFile
  | preExecCmd | postExecCmd | hostSpec
  | numAskedHosts | askedHosts (i : Nat) | askedHost (i : Nat)
  | nLimits | rLimits (i : Nat) | limitSkipped
  | submitTime | beginTime | termTime | umask | sigValue | restartPid | chkpntPeriod
  | chkpntDir | subHomeDir | cwd
  | nxf | nextElementOffset | subFn (i : Nat) | execFn (i : Nat) | xfOptions (i : Nat)
  | mailUser | projectName | niosPort | maxNumProcessors | loginShell | schedHostType | options2
  | inFileSpool | commandSpool | userPriority | jobDesc
  deriving DecidableEq

/-- Some bytes stored to a place of a size. -/
structure Store where
  field : Field
  size : Nat
  data : List Byte
  deriving DecidableEq

def Store.InBounds (st : Store) : Prop := st.data.length ≤ st.size

instance (st : Store) : Decidable st.InBounds := inferInstanceAs (Decidable (_ ≤ _))

/-- The counts of the structures and how many elements are allocated for them. -/
structure Arrays where
  kind : BitVec 32
  tokenLen : Int
  token : Option Nat
  numAskedHosts : Int
  askedHosts : Option Nat
  nxf : Int
  xf : Option Nat
  deriving DecidableEq

/-- A decoding run: the position in the message, the number of allocations made, what was stored. -/
structure Run where
  pos : Nat
  allocs : Nat
  stores : List Store
  arrays : Arrays
  deriving DecidableEq

/-- As the callers leave the structures. -/
def Run.init : Run := ⟨0, 0, [], ⟨0, 0, none, 0, none, 0, none⟩⟩

/-- A message, and which allocations succeed: by their number and their size. -/
structure Env where
  bytes : List Byte
  mem : Nat → Nat → Bool

abbrev Dec := Decoder Run

/-! ## Items -/

section Items

variable (e : Env)

/-- Reads a word. -/
def word : Dec (BitVec 32) := fun s =>
  match uInt (e.bytes.drop s.pos) with
  | some (w, _) => (some w, { s with pos := s.pos + 4 })
  | none => (none, s)

/-- Reads bytes. -/
def getBytes (n : Nat) : Dec (List Byte) := fun s =>
  if s.pos + n ≤ e.bytes.length then
    (some ((e.bytes.drop s.pos).take n), { s with pos := s.pos + n })
  else (none, s)

/-- The bytes up to the next word. -/
def skipPad (n : Nat) : Dec (List Byte) := getBytes e ((4 - n % 4) % 4)

def store (f : Field) (size : Nat) (data : List Byte) : Dec Unit :=
  .modify fun s => { s with stores := s.stores ++ [⟨f, size, data⟩] }

def setArrays (f : Arrays → Arrays) : Dec Unit := .modify fun s => { s with arrays := f s.arrays }

/-- Whether memory for `n` elements of a size can be had. A negative count is a huge one. -/
def alloc (n : Int) (size : Nat) : Dec Nat := fun s =>
  if 0 ≤ n ∧ e.mem s.allocs (n.toNat * size) then
    (some n.toNat, { s with allocs := s.allocs + 1 })
  else (none, { s with allocs := s.allocs + 1 })

def wordBytes (w : BitVec 32) : List Byte :=
  [w.extractLsb' 24 8, w.extractLsb' 16 8, w.extractLsb' 8 8, w.extractLsb' 0 8]

/-- `xdr_int` and its like, to a place of a size. -/
def xdrIntTo (f : Field) (size : Nat) : Dec (BitVec 32) := do
  let w ← word e
  store f size (wordBytes w)
  pure w

def xdrInt (f : Field) : Dec (BitVec 32) := xdrIntTo e f 4

/-- `xdr_int` for a field that is used later on. -/
def xdrSet {α : Type} (f : Field) (view : BitVec 32 → α) (set : α → Arrays → Arrays) : Dec α := do
  let w ← xdrInt e f
  setArrays (set (view w))
  pure (view w)

/-- `xdr_time_t`: one word, stored as a `long`. -/
def xdrTime (f : Field) : Dec Unit := do
  let w ← word e
  store f 8 (wordBytes 0 ++ wordBytes w)

/-- `xdr_string`: it stores no more than `max` bytes, the terminating one included. -/
def xdrString (f : Field) (size max : Nat) : Dec Unit := do
  let n ← word e
  if max < n.toNat then .fail
  else do
    let data ← getBytes e n.toNat
    store f size ((data ++ [0]).take max)
    let _ ← skipPad e n.toNat
    pure ()

/-- `xdr_bytes`: the length is stored before it is compared with `max`. -/
def xdrBytes (f lenField : Field) (size max : Nat) (setLen : BitVec 32 → Dec Unit) : Dec Unit := do
  let n ← xdrInt e lenField
  setLen n
  if max < n.toNat then .fail
  else do
    let data ← getBytes e n.toNat
    store f size data
    let _ ← skipPad e n.toNat
    pure ()

/-- `xdr_var_string`: the length is read once to allocate the string and once more with it. -/
def xdrVarString (f : Field) : Dec Unit := do
  let s ← Decoder.get
  let len ← word e
  let size ← alloc e (len + 1).toInt 1
  Decoder.modify fun s' => { s' with pos := s.pos }
  xdrString e f size size

/-- `XDR_SETPOS`, which does nothing for a position beyond the message. -/
def setPos (target : BitVec 32) : Dec Unit :=
  .modify fun s => if target.toNat ≤ e.bytes.length then { s with pos := target.toNat } else s

/-- `xdr_arrayElement`: an element after its offset to the next one. -/
def xdrArrayElement {α : Type} (element : Dec α) : Dec Unit := do
  let s ← Decoder.get
  let nextElementOffset ← xdrInt e .nextElementOffset
  let _ ← element
  setPos e (BitVec.ofNat 32 s.pos + nextElementOffset)

/-- The room for element `i` of an array with `n` elements. -/
def elemSize (n i size : Nat) : Nat := if i < n then size else 0

/-- The sizes of the buffers `initSubmit` and `struct lsfAuth` provide. -/
def fixedSize : Field → Nat
  | .lsfUserName => maxLsfNameLen
  | .eauthData => eauthSize
  | .fromHost | .hostSpec => maxHostNameLen
  | .jobFile | .inFile | .outFile | .errFile | .chkpntDir | .subHomeDir | .cwd
  | .inFileSpool | .commandSpool => maxFileNameLen
  | _ => 0

/-- The items the decoders are made of. -/
inductive Item where
  | int (f : Field)
  | time (f : Field)
  | string (f : Field) (max : Nat)
  | varString (f : Field)

def xdrItem : Item → Dec Unit
  | .int f => do let _ ← xdrInt e f; pure ()
  | .time f => xdrTime e f
  | .string f max => xdrString e f (fixedSize f) max
  | .varString f => xdrVarString e f

/-- A chain of items, each read if those before it were. -/
def xdrItems (items : List Item) : Dec Unit := .seq (items.map (xdrItem e))

end Items

/-! ## The decoders -/

section Decoders

variable (e : Env)

def clientDce : BitVec 32 := 2
def clientEauth : BitVec 32 := 3

/-- The fields of `xdr_lsfAuth` before the kind. -/
def authName : Dec Unit := do
  store .lsfUserName maxLsfNameLen [0]
  xdrItems e [.int .uid, .int .gid, .string .lsfUserName maxLsfNameLen]

def setKind (kind : BitVec 32) (a : Arrays) : Arrays := { a with kind := kind }

/-- The same with the kind. -/
def authHead : Dec (BitVec 32) := do
  authName e
  xdrSet e .kind id setKind

def setTokenLen (n : Int) (a : Arrays) : Arrays := { a with tokenLen := n }

/-- The token of `CLIENT_DCE`: memory for the length given first, then the bytes. A negative length
is a huge bound, but no memory is had for it. -/
def tokenBody (len : Int) : Dec Unit := do
  let size ← (alloc e len 1).onFail fun s => { s with arrays.token := none }
  setArrays fun a => { a with token := some size }
  xdrBytes e .authToken .tokenLen size len.toNat fun n => setArrays (setTokenLen n.toInt)

/-- The data of `CLIENT_EAUTH`. The length that was read is the bound for the bytes. -/
def eauthBody (len : BitVec 32) : Dec Unit :=
  xdrBytes e .eauthData .eauthLen (fixedSize .eauthData) len.toNat fun _ => pure ()

/-- The part of the authentication that depends on its kind. -/
def authBody (kind : BitVec 32) : Dec Unit :=
  if kind = clientDce then xdrSet e .tokenLen BitVec.toInt setTokenLen >>= tokenBody e
  else if kind = clientEauth then xdrInt e .eauthLen >>= eauthBody e
  else xdrArrayElement e (xdrInt e .filler)

def xdrLsfAuth : Dec Unit := do
  let kind ← authHead e
  authBody e kind
  xdrItems e [.int .authOptions]

/-- The strings that are emptied before the request is read. -/
def clearStrings : Dec Unit :=
  .seq ([Field.fromHost, .jobFile, .inFile, .outFile, .errFile, .inFileSpool, .commandSpool,
    .chkpntDir, .hostSpec, .cwd, .subHomeDir].map fun f => store f (fixedSize f) [0])

/-- The fields of a request before the hosts asked for. -/
def reqFixed : Dec Unit := do
  clearStrings
  xdrItems e [.int .options, .varString .queue, .varString .resReq, .int .numProcessors]
  xdrItems e [.string .fromHost maxHostNameLen, .varString .dependCond, .varString .jobName,
    .varString .command, .string .jobFile maxFileNameLen, .string .inFile maxFileNameLen,
    .string .outFile maxFileNameLen, .string .errFile maxFileNameLen, .varString .preExecCmd,
    .varString .postExecCmd, .string .hostSpec maxHostNameLen]

def setNumAskedHosts (n : Int) (a : Arrays) : Arrays := { a with numAskedHosts := n }
def setNxf (n : Int) (a : Arrays) : Arrays := { a with nxf := n }

/-- The same with the number of hosts. -/
def reqHead : Dec Int := do
  reqFixed e
  xdrSet e .numAskedHosts BitVec.toInt setNumAskedHosts

/-- Allocates an array for a positive count. -/
def allocArray (n : Int) (size : Nat) (set : Option Nat → Arrays → Arrays) : Dec Nat :=
  if 0 < n then do
    let k ← (alloc e n size).onFail fun s => { s with arrays := set none s.arrays }
    setArrays (set (some k))
    pure k
  else pure 0

/-- The name of a host asked for. -/
def xdrAskedHost (allocated i : Nat) : Dec Unit :=
  (do store (.askedHosts i) (elemSize allocated i 8) (List.replicate 8 0)
      xdrVarString e (.askedHost i)).onFail fun s => { s with arrays.numAskedHosts := i }

/-- A limit; those the structure has no room for are skipped. -/
def xdrLimit (i : Nat) : Dec (BitVec 32) :=
  if i < lsfRlimNlimits then xdrIntTo e (.rLimits i) (elemSize lsfRlimNlimits i 4)
  else xdrInt e .limitSkipped

/-- The fields of a request from the hosts up to the files. -/
def reqLimits (n : Int) (allocated : Nat) : Dec Unit := do
  .forEach 0 (xdrAskedHost e allocated) n.toNat
  let nLimits ← xdrInt e .nLimits
  .forEach 0 (fun i => xdrLimit e i >>= fun _ => pure ()) nLimits.toInt.toNat
  xdrItems e [.time .submitTime, .time .beginTime, .time .termTime, .int .umask, .int .sigValue,
    .int .restartPid, .time .chkpntPeriod, .string .chkpntDir maxFileNameLen,
    .string .subHomeDir maxFileNameLen, .string .cwd maxFileNameLen]

/-- The same with the number of files. -/
def reqBody (n : Int) (allocated : Nat) : Dec Int := do
  reqLimits e n allocated
  xdrSet e .nxf BitVec.toInt setNxf

/-- The size of a `struct xFile`. -/
def xFileSize : Nat := 2 * maxFileNameLen + 4

/-- `xdr_xFile` for element `i`. -/
def xdrXFile (allocated i : Nat) : Dec Unit := do
  store (.subFn i) (elemSize allocated i maxFileNameLen) [0]
  store (.execFn i) (elemSize allocated i maxFileNameLen) [0]
  xdrString e (.subFn i) (elemSize allocated i maxFileNameLen) maxFileNameLen
  xdrString e (.execFn i) (elemSize allocated i maxFileNameLen) maxFileNameLen
  let _ ← xdrIntTo e (.xfOptions i) (elemSize allocated i 4)

/-- The files and the fields after them. -/
def reqFiles (nxf : Int) (allocated : Nat) : Dec Unit := do
  .forEach 0 (fun i => xdrArrayElement e (xdrXFile e allocated i)) nxf.toNat
  xdrItems e [.varString .mailUser, .varString .projectName, .int .niosPort,
    .int .maxNumProcessors, .varString .loginShell, .varString .schedHostType, .int .options2]

def reqSpool : Dec Unit :=
  xdrItems e [.string .inFileSpool maxFileNameLen, .string .commandSpool maxFileNameLen]

def reqTail : Dec Unit := xdrItems e [.int .userPriority, .varString .jobDesc]

/-- The exit `Error0` gives the hosts back. -/
def error0 (s : Run) : Run :=
  { s with arrays.askedHosts := none, arrays.numAskedHosts := 0 }

/-- The exit `Error1` gives the files back as well, but leaves their number. -/
def error1 (s : Run) : Run := error0 { s with arrays.xf := none }

def setHosts (p : Option Nat) (a : Arrays) : Arrays := { a with askedHosts := p }
def setFiles (p : Option Nat) (a : Arrays) : Arrays := { a with xf := p }

/-- `xdr_submitReq`. A failure in the hosts, the limits or the times goes to `Error0`, one in the
files or after them to `Error1`, and one in the spool names returns at once. -/
def xdrSubmitReq : Dec Unit := do
  let n ← reqHead e
  let hosts ← allocArray e n 8 setHosts
  let nxf ← (reqBody e n hosts).onFail error0
  let files ← (allocArray e nxf xFileSize setFiles).onFail error0
  (reqFiles e nxf files).onFail error1
  reqSpool e
  (reqTail e).onFail error1

/-- Decodes an authenticated submit request. -/
def decode : Dec Unit := do
  xdrLsfAuth e
  xdrSubmitReq e

end Decoders

/-! ## Safety -/

/-- No count is positive without memory behind it. -/
structure Arrays.Allocated (a : Arrays) : Prop where
  token : a.kind = clientDce → 0 < a.tokenLen → a.token ≠ none
  hosts : 0 < a.numAskedHosts → a.askedHosts ≠ none
  files : 0 < a.nxf → a.xf ≠ none

/-- Nothing is stored outside its place, and after a failure no positive count is left without
memory. -/
structure Safe (e : Env) : Prop where
  in_bounds : ∀ st ∈ (decode e .init).2.stores, st.InBounds
  allocated : (decode e .init).1 = none → (decode e .init).2.arrays.Allocated

/-! ## What the items keep -/

/-- Everything stored is inside its place. -/
def Run.Fits (s : Run) : Prop := ∀ st ∈ s.stores, st.InBounds

/-- A change that stores inside its places only and changes the arrays as `S` says. -/
def Keep (S : Arrays → Arrays → Prop) (s t : Run) : Prop :=
  S s.arrays t.arrays ∧ (t.Fits ↔ s.Fits)

/-- A change that leaves the arrays alone. -/
abbrev Quiet : Run → Run → Prop := Keep Eq

instance {S : Arrays → Arrays → Prop} [Std.Refl S] : Std.Refl (Keep S) :=
  ⟨fun s => ⟨refl_of S s.arrays, Iff.rfl⟩⟩

instance {S T U : Arrays → Arrays → Prop} [Trans S T U] : Trans (Keep S) (Keep T) (Keep U) :=
  ⟨fun hs ht => ⟨Trans.trans hs.1 ht.1, ht.2.trans hs.2⟩⟩

instance {S : Arrays → Arrays → Prop} [IsTrans Arrays S] : IsTrans Run (Keep S) :=
  ⟨fun _ _ _ hs ht => ⟨trans_of S hs.1 ht.1, ht.2.trans hs.2⟩⟩

theorem fits_append {s : Run} {st : Store} :
    Run.Fits { s with stores := s.stores ++ [st] } ↔ s.Fits ∧ st.InBounds := by
  simp [Run.Fits, or_imp, forall_and]

section Quiet

open Decoder

variable {e : Env}

theorem quiet_get : Keeps Quiet Quiet (Decoder.get : Dec Run) :=
  keeps_of_snd fun _ => ⟨rfl, Iff.rfl⟩

variable {α : Type}

theorem quiet_fail : Keeps Quiet Quiet (Decoder.fail : Dec α) :=
  keeps_of_snd fun _ => ⟨rfl, Iff.rfl⟩

theorem quiet_word : Keeps Quiet Quiet (word e) := by
  apply keeps_of_snd
  intro s
  rw [word]
  split
  · exact ⟨rfl, Iff.rfl⟩
  · exact ⟨rfl, Iff.rfl⟩

theorem quiet_getBytes (n : Nat) : Keeps Quiet Quiet (getBytes e n) := by
  apply keeps_of_snd
  intro s
  rw [getBytes]
  split_ifs
  · exact ⟨rfl, Iff.rfl⟩
  · exact ⟨rfl, Iff.rfl⟩

theorem quiet_alloc (n : Int) (size : Nat) : Keeps Quiet Quiet (alloc e n size) := by
  apply keeps_of_snd
  intro s
  rw [alloc]
  split_ifs
  · exact ⟨rfl, Iff.rfl⟩
  · exact ⟨rfl, Iff.rfl⟩

variable (f : Field)

theorem quiet_store {size : Nat} {data : List Byte} (h : data.length ≤ size) :
    Keeps Quiet Quiet (store f size data) :=
  keeps_of_snd fun _ => ⟨rfl, fits_append.trans (and_iff_left h)⟩

theorem quiet_setPos (target : BitVec 32) : Keeps Quiet Quiet (setPos e target) := by
  apply keeps_of_snd
  intro s
  show Quiet s (if _ then _ else _)
  split_ifs
  · exact ⟨rfl, Iff.rfl⟩
  · exact ⟨rfl, Iff.rfl⟩

theorem quiet_xdrIntTo {size : Nat} (h : 4 ≤ size) :
    Keeps Quiet Quiet (xdrIntTo e f size) :=
  quiet_word.bind fun _ => (quiet_store f h).bind fun _ => keeps_pure _

theorem quiet_xdrInt : Keeps Quiet Quiet (xdrInt e f) := quiet_xdrIntTo f le_rfl

/-- A field of the structures is read after what is quiet. -/
theorem set_after {q : Run → Run → Prop} [Trans Quiet q q] {m : Dec Unit}
    (hm : Keeps Quiet q m) (hq : ∀ s t, Quiet s t → q s t) (f : Field) (view : BitVec 32 → α)
    (set : α → Arrays → Arrays) (s t : Run) :
    (∀ a, (m >>= fun _ => xdrSet e f view set) s = (some a, t) →
      t.arrays = set a s.arrays ∧ (t.Fits ↔ s.Fits)) ∧
    ((m >>= fun _ => xdrSet e f view set) s = (none, t) → q s t) := by
  rcases m.ends s with ⟨a, s', h⟩ | ⟨s', h⟩
  · have hs := (hm s s').1 a h
    rw [bind_of_some h]
    rcases (xdrInt e f).ends s' with ⟨w, s'', hw⟩ | ⟨s'', hw⟩
    · have hw' := (quiet_xdrInt f s' s'').1 w hw
      rw [xdrSet, bind_of_some hw]
      refine ⟨fun a hn => ?_, fun hn => ?_⟩
      · obtain rfl : view w = a := Option.some.inj (congrArg Prod.fst hn)
        obtain rfl := congrArg Prod.snd hn
        refine ⟨?_, hw'.2.trans hs.2⟩
        rw [hs.1, hw'.1]
        rfl
      · cases hn
    · rw [xdrSet, bind_of_none hw]
      refine ⟨fun n hn => ?_, fun hn => ?_⟩
      · cases hn
      · obtain rfl : s'' = t := congrArg Prod.snd hn
        exact Trans.trans hs (hq _ _ ((quiet_xdrInt f s' s'').2 hw))
  · rw [bind_of_none h]
    refine ⟨fun n hn => ?_, fun hn => ?_⟩
    · cases hn
    · obtain rfl : s' = t := congrArg Prod.snd hn
      exact (hm s s').2 h

theorem quiet_xdrTime : Keeps Quiet Quiet (xdrTime e f) :=
  quiet_word.bind fun _ => quiet_store f (by simp [wordBytes])

theorem quiet_xdrString {size max : Nat} (h : max ≤ size) :
    Keeps Quiet Quiet (xdrString e f size max) := by
  refine quiet_word.bind fun n => ?_
  split_ifs
  · exact quiet_fail
  · refine (quiet_getBytes _).bind fun data => (quiet_store f ?_).bind fun _ =>
      (quiet_getBytes _).bind fun _ => keeps_pure _
    exact (List.length_take_le _ _).trans h

theorem quiet_xdrVarString : Keeps Quiet Quiet (xdrVarString e f) := by
  refine quiet_get.bind fun s => quiet_word.bind fun len => (quiet_alloc _ _).bind fun size => ?_
  refine Keeps.bind ?_ fun _ => quiet_xdrString f le_rfl
  exact keeps_of_snd fun _ => ⟨rfl, Iff.rfl⟩

theorem quiet_xdrArrayElement {element : Dec α} (h : Keeps Quiet Quiet element) :
    Keeps Quiet Quiet (xdrArrayElement e element) :=
  quiet_get.bind fun _ => (quiet_xdrInt _).bind fun _ => h.bind fun _ => quiet_setPos _

/-- The bound given to a string's decoder is within its buffer. -/
def Item.Fits : Item → Prop
  | .string f max => max ≤ fixedSize f
  | _ => True

instance : ∀ it : Item, Decidable it.Fits
  | .string f max => inferInstanceAs (Decidable (max ≤ fixedSize f))
  | .int _ | .time _ | .varString _ => inferInstanceAs (Decidable True)

theorem quiet_xdrItem {it : Item} (h : it.Fits) : Keeps Quiet Quiet (xdrItem e it) := by
  cases it with
  | int f => exact (quiet_xdrInt f).bind fun _ => keeps_pure _
  | time f => exact quiet_xdrTime f
  | string f max => exact quiet_xdrString f h
  | varString f => exact quiet_xdrVarString f

/-- **A chain of items whose bounds fit is quiet.** -/
theorem quiet_xdrItems {items : List Item} (h : ∀ it ∈ items, it.Fits) :
    Keeps Quiet Quiet (xdrItems e items) :=
  keeps_seq (List.forall_mem_map.mpr fun it hit => quiet_xdrItem (h it hit))

theorem quiet_clearStrings : Keeps Quiet Quiet clearStrings := by
  refine keeps_seq (List.forall_mem_map.mpr fun f hf => quiet_store _ ?_)
  revert f
  decide

/-! ## What the parts of a request keep -/

theorem elemSize_of_lt {n i : Nat} (h : i < n) (size : Nat) : elemSize n i size = size := if_pos h

theorem quiet_xdrLimit (i : Nat) : Keeps Quiet Quiet (xdrLimit e i) := by
  rw [xdrLimit]
  split_ifs with h
  · exact quiet_xdrIntTo _ (elemSize_of_lt h 4).ge
  · exact quiet_xdrInt _

theorem quiet_xdrXFile {allocated i : Nat} (h : i < allocated) :
    Keeps Quiet Quiet (xdrXFile e allocated i) := by
  simp only [xdrXFile, elemSize_of_lt h]
  exact (quiet_store _ (by decide)).bind fun _ => (quiet_store _ (by decide)).bind fun _ =>
    (quiet_xdrString _ le_rfl).bind fun _ => (quiet_xdrString _ le_rfl).bind fun _ =>
    (quiet_xdrIntTo _ le_rfl).bind fun _ => keeps_pure _

theorem quiet_reqFiles (n : Int) : Keeps Quiet Quiet (reqFiles e n n.toNat) := by
  refine Keeps.bind (keeps_forEach fun i hi => ?_) fun _ => quiet_xdrItems (by decide)
  exact quiet_xdrArrayElement (quiet_xdrXFile (by omega))

theorem quiet_reqSpool : Keeps Quiet Quiet (reqSpool e) := quiet_xdrItems (by decide)

theorem quiet_reqTail : Keeps Quiet Quiet (reqTail e) := quiet_xdrItems (by decide)

/-- All but the number of hosts is the same. -/
def SameButHosts (a b : Arrays) : Prop := ∃ n, b = { a with numAskedHosts := n }

instance : Trans Eq SameButHosts SameButHosts := ⟨fun h h' => h ▸ h'⟩

/-- A failure in the hosts leaves the number of those read. -/
theorem keeps_reqLimits (n : Int) :
    Keeps Quiet (Keep SameButHosts) (reqLimits e n n.toNat) := by
  have hquiet : ∀ s t, Quiet s t → Keep SameButHosts s t :=
    fun s t h => ⟨⟨s.arrays.numAskedHosts, h.1.symm⟩, h.2⟩
  have hweak : ∀ {α : Type} {m : Dec α}, Keeps Quiet Quiet m → Keeps Quiet (Keep SameButHosts) m :=
    fun h => h.mono (fun _ _ h => h) hquiet
  refine Keeps.bind (keeps_forEach fun i hi => ?_) fun _ => ?_
  · have hel : Keeps Quiet Quiet (do
        store (.askedHosts i) (elemSize n.toNat i 8) (List.replicate 8 0)
        xdrVarString e (.askedHost i)) :=
      (quiet_store _ (by simp [elemSize_of_lt (by omega : i < n.toNat)])).bind fun _ =>
        quiet_xdrVarString _
    refine hel.onFail fun s t h => ⟨⟨i, ?_⟩, h.2⟩
    rw [h.1]
  · refine hweak ((quiet_xdrInt _).bind fun _ => Keeps.bind (keeps_forEach fun i _ => ?_) fun _ =>
      quiet_xdrItems (by decide))
    exact (quiet_xdrLimit i).bind fun _ => keeps_pure _

end Quiet

end SubmitXdr

end Volclava
