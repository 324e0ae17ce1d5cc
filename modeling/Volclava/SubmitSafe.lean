import Volclava.SubmitXdr

/-!
# When decoding a submit request is safe

Two things go wrong in the decoders. The data of an external authentication are bounded by a length
from the message and not by the buffer of 4096 bytes. And a failure behind the number of files gives
the files back but leaves their number; the same holds for a count whose memory cannot be had.

- `HarmlessAuth`, `HarmlessReq`: the messages for which none of this happens.
- `safe_iff_harmless`: decoding is safe for exactly these.
- `eauth_overruns`: a message with 4100 bytes of authentication data.
-/

namespace Volclava

namespace SubmitXdr

open Xdr Decoder

variable {e : Env}

/-! ## The request -/

/-- The files can be read from a state on, and after the spool names what is left can. -/
def FilesRead (e : Env) (n : Int) (s : Run) : Prop :=
  ∃ t, reqFiles e n n.toNat s = (some (), t) ∧
    ∀ u, reqSpool e t = (some (), u) → ∃ v, reqTail e u = (some (), v)

/-- A request up to the number of its files. -/
def beforeFiles (e : Env) : Dec Int := do
  let n ← reqHead e
  let hosts ← allocArray e n 8 setHosts
  reqBody e n hosts

/-- The state with the files allocated. -/
def withFiles (s : Run) (n : Int) : Run :=
  { s with allocs := s.allocs + 1, arrays := setFiles (some n.toNat) s.arrays }

/-- There is memory for the hosts and the files of a request, and a request with files is complete
from there on, up to the two spool names. -/
structure HarmlessReq (e : Env) (s : Run) : Prop where
  hosts : ∀ n t, reqHead e s = (some n, t) → 0 < n → e.mem t.allocs (n.toNat * 8)
  files : ∀ n t, beforeFiles e s = (some n, t) → 0 < n →
    e.mem t.allocs (n.toNat * xFileSize) ∧ FilesRead e n (withFiles t n)

/-- What is asked of an outcome. -/
def Sound (r : Option Unit × Run) : Prop := r.2.Fits ∧ (r.1 = none → r.2.arrays.Allocated)

variable {s : Run} {n : Int} {size : Nat} (set : Option Nat → Arrays → Arrays)

theorem allocArray_of_mem (hn : 0 < n)
    (h : e.mem s.allocs (n.toNat * size) = true) :
    allocArray e n size set s =
      (some n.toNat, { s with allocs := s.allocs + 1, arrays := set (some n.toNat) s.arrays }) := by
  rw [allocArray, if_pos hn]
  have halloc : alloc e n size s = (some n.toNat, { s with allocs := s.allocs + 1 }) := by
    rw [alloc, if_pos ⟨hn.le, h⟩]
  rw [bind_of_some (onFail_of_some halloc)]
  rfl

theorem allocArray_of_not_mem
    (hn : 0 < n) (h : ¬ e.mem s.allocs (n.toNat * size) = true) :
    allocArray e n size set s =
      (none, { s with allocs := s.allocs + 1, arrays := set none s.arrays }) := by
  rw [allocArray, if_pos hn]
  have halloc : alloc e n size s = (none, { s with allocs := s.allocs + 1 }) := by
    rw [alloc, if_neg fun hc => h hc.2]
  rw [bind_of_none (onFail_of_none halloc)]

theorem allocArray_of_nonpos
    (hn : ¬ 0 < n) : allocArray e n size set s = (some n.toNat, s) := by
  rw [allocArray, if_neg hn, Int.toNat_of_nonpos (not_lt.mp hn)]
  rfl

/-- After `Error1` the number of files is left. -/
theorem allocated_error1 (htok : s.arrays.Allocated) :
    (error1 s).arrays.Allocated ↔ ¬ 0 < s.arrays.nxf := by
  refine ⟨fun h hpos => h.files hpos rfl, fun h => ⟨htok.token, ?_, fun hpos => absurd hpos h⟩⟩
  exact fun hpos => absurd hpos (lt_irrefl 0)

/-- From the files to the end. -/
theorem sound_files_iff (hn : s.arrays.nxf = n) (ha : s.arrays.Allocated) :
    Sound ((do
      (reqFiles e n n.toNat).onFail error1
      reqSpool e
      (reqTail e).onFail error1 : Dec Unit) s) ↔ s.Fits ∧ (0 < n → FilesRead e n s) := by
  -- An exit over `Error1` is sound when there are no files.
  have hexit : ∀ t, Quiet s t → (Sound (none, error1 t) ↔ s.Fits ∧ ¬ 0 < n) := by
    intro t hq
    have hiff := allocated_error1 (s := t) (hq.1 ▸ ha)
    rw [← hq.1, hn] at hiff
    exact and_congr hq.2 ⟨fun h => hiff.mp (h rfl), fun h _ => hiff.mpr h⟩
  rcases (reqFiles e n n.toNat).ends s with ⟨_, t, hf⟩ | ⟨t, hf⟩
  · have hqt : Quiet s t := (quiet_reqFiles n s t).1 _ hf
    rw [bind_of_some (onFail_of_some hf)]
    rcases (reqSpool e).ends t with ⟨_, u, hsp⟩ | ⟨u, hsp⟩
    · have hqu : Quiet s u := trans_of Quiet hqt ((quiet_reqSpool t u).1 _ hsp)
      rw [bind_of_some hsp]
      rcases (reqTail e).ends u with ⟨_, v, htl⟩ | ⟨v, htl⟩
      · have hqv : Quiet s v := trans_of Quiet hqu ((quiet_reqTail u v).1 _ htl)
        rw [onFail_of_some htl]
        refine and_congr hqv.2 ⟨fun _ _ => ⟨t, hf, fun u' hu' => ?_⟩, nofun⟩
        obtain rfl : u = u' := by rw [hsp] at hu'; exact congrArg Prod.snd hu'
        exact ⟨v, htl⟩
      · have hqv : Quiet s v := trans_of Quiet hqu ((quiet_reqTail u v).2 htl)
        rw [onFail_of_none htl, hexit v hqv]
        refine and_congr_right fun _ => imp_congr_right fun _ => iff_of_false id ?_
        intro hr
        obtain ⟨t', ht', hrest⟩ := hr
        obtain rfl : t = t' := by rw [hf] at ht'; exact congrArg Prod.snd ht'
        obtain ⟨v', hv'⟩ := hrest u hsp
        rw [htl] at hv'
        cases hv'
    · -- A failure in the spool names returns at once.
      have hqu : Quiet s u := trans_of Quiet hqt ((quiet_reqSpool t u).2 hsp)
      rw [bind_of_none hsp]
      refine and_congr hqu.2 ⟨fun _ _ => ⟨t, hf, fun u' hu' => ?_⟩, fun _ _ => hqu.1 ▸ ha⟩
      rw [hsp] at hu'
      cases hu'
  · rw [bind_of_none (onFail_of_none hf), hexit t ((quiet_reqFiles n s t).2 hf)]
    refine and_congr_right fun _ => imp_congr_right fun _ => iff_of_false id ?_
    intro hr
    obtain ⟨t', ht', -⟩ := hr
    rw [hf] at ht'
    cases ht'

/-- From the number of files to the end. -/
theorem sound_nxf_iff (hn : s.arrays.nxf = n)
    (ha : ({ s.arrays with nxf := 0 } : Arrays).Allocated) :
    Sound ((do
      let files ← (allocArray e n xFileSize setFiles).onFail error0
      (reqFiles e n files).onFail error1
      reqSpool e
      (reqTail e).onFail error1 : Dec Unit) s) ↔
      s.Fits ∧ (0 < n → e.mem s.allocs (n.toNat * xFileSize) ∧ FilesRead e n (withFiles s n)) := by
  by_cases hpos : 0 < n
  · simp only [hpos, true_implies]
    by_cases hmem : e.mem s.allocs (n.toNat * xFileSize) = true
    · have halloc : allocArray e n xFileSize setFiles s = (some n.toNat, withFiles s n) :=
        allocArray_of_mem setFiles hpos hmem
      rw [bind_of_some (onFail_of_some halloc)]
      have hall : (setFiles (some n.toNat) s.arrays).Allocated :=
        ⟨ha.token, ha.hosts, fun _ => Option.some_ne_none _⟩
      rw [sound_files_iff (show (withFiles s n).arrays.nxf = n from hn) hall]
      simp only [hpos, true_implies, hmem, true_and]
      rfl
    · rw [bind_of_none (onFail_of_none (allocArray_of_not_mem setFiles hpos hmem))]
      refine iff_of_false (fun h => ?_) (fun h => hmem h.2.1)
      exact (h.2 rfl).files (hn ▸ hpos) rfl
  · rw [bind_of_some (onFail_of_some (allocArray_of_nonpos setFiles hpos))]
    have hall : s.arrays.Allocated := ⟨ha.token, ha.hosts, fun h => absurd (hn ▸ h) hpos⟩
    rw [sound_files_iff hn hall]
    simp only [hpos, false_implies]

/-- From the hosts to the end. -/
theorem sound_body_iff (hnxf : s.arrays.nxf = 0) (ha : s.arrays.Allocated) :
    Sound ((do
      let nxf ← (reqBody e n n.toNat).onFail error0
      let files ← (allocArray e nxf xFileSize setFiles).onFail error0
      (reqFiles e nxf files).onFail error1
      reqSpool e
      (reqTail e).onFail error1 : Dec Unit) s) ↔
      s.Fits ∧ ∀ k t, reqBody e n n.toNat s = (some k, t) → 0 < k →
        e.mem t.allocs (k.toNat * xFileSize) ∧ FilesRead e k (withFiles t k) := by
  have hcount := fun t => set_after (e := e) (keeps_reqLimits (e := e) n)
    (fun s t h => ⟨⟨s.arrays.numAskedHosts, h.1.symm⟩, h.2⟩) .nxf BitVec.toInt setNxf s t
  rcases (reqBody e n n.toNat).ends s with ⟨k, t, hb⟩ | ⟨t, hb⟩
  · obtain ⟨harr, hfit⟩ := (hcount t).1 k hb
    rw [bind_of_some (onFail_of_some hb), sound_nxf_iff (by rw [harr]; rfl)]
    · exact and_congr hfit ⟨fun h => (forall_of_some hb).mpr h, fun h => h k t hb⟩
    · rw [harr]
      exact ⟨ha.token, ha.hosts, fun h => absurd h (lt_irrefl 0)⟩
  · obtain ⟨⟨m, harr⟩, hfit⟩ := (hcount t).2 hb
    rw [bind_of_none (onFail_of_none hb)]
    refine and_congr hfit ⟨fun _ => forall_of_none hb, fun _ _ => ?_⟩
    refine ⟨?_, fun h => absurd h (lt_irrefl 0), fun h => ?_⟩
    · show t.arrays.kind = clientDce → 0 < t.arrays.tokenLen → t.arrays.token ≠ none
      rw [harr]
      exact ha.token
    · have hzero : t.arrays.nxf = 0 := by rw [harr]; exact hnxf
      exact absurd (hzero ▸ h : (0 : Int) < 0) (lt_irrefl 0)

theorem quiet_reqFixed : Keeps Quiet Quiet (reqFixed e) :=
  quiet_clearStrings.bind fun _ => (quiet_xdrItems (by decide)).bind fun _ =>
    quiet_xdrItems (by decide)

/-- The whole request, decoded into a structure without hosts and files. -/
theorem sound_req_iff (hnxf : s.arrays.nxf = 0) (ha : s.arrays.Allocated) :
    Sound (xdrSubmitReq e s) ↔ s.Fits ∧ HarmlessReq e s := by
  have hcount := fun t => set_after (e := e) (quiet_reqFixed (e := e)) (fun _ _ h => h)
    .numAskedHosts BitVec.toInt setNumAskedHosts s t
  rw [xdrSubmitReq]
  rcases (reqHead e).ends s with ⟨n, t, hh⟩ | ⟨t, hh⟩
  · obtain ⟨harr, hfit⟩ := (hcount t).1 n hh
    have hnxf' : t.arrays.nxf = 0 := by rw [harr]; exact hnxf
    rw [bind_of_some hh]
    -- With the hosts allocated, what is left is the part from there on.
    have hrest : ∀ u, allocArray e n 8 setHosts t = (some n.toNat, u) → u.arrays.nxf = 0 →
        u.arrays.Allocated → (u.Fits ↔ s.Fits) → (0 < n → e.mem t.allocs (n.toNat * 8) = true) →
        (Sound ((do
          let hosts ← allocArray e n 8 setHosts
          let nxf ← (reqBody e n hosts).onFail error0
          let files ← (allocArray e nxf xFileSize setFiles).onFail error0
          (reqFiles e nxf files).onFail error1
          reqSpool e
          (reqTail e).onFail error1 : Dec Unit) t) ↔ s.Fits ∧ HarmlessReq e s) := by
      intro u halloc hu hall hfitu hmem
      rw [bind_of_some halloc, sound_body_iff hu hall]
      refine and_congr hfitu ⟨fun h => ⟨(forall_of_some hh).mpr hmem, fun k v hk hpos => ?_⟩,
        fun h k v hk hpos => h.files k v ?_ hpos⟩
      · rw [beforeFiles, bind_of_some hh, bind_of_some halloc] at hk
        exact h k v hk hpos
      · rw [beforeFiles, bind_of_some hh, bind_of_some halloc]
        exact hk
    by_cases hpos : 0 < n
    · by_cases hmem : e.mem t.allocs (n.toNat * 8) = true
      · refine hrest _ (allocArray_of_mem setHosts hpos hmem) hnxf' ?_ hfit fun _ => hmem
        rw [harr]
        refine ⟨ha.token, fun _ => Option.some_ne_none _, fun h => ?_⟩
        exact absurd (show (0 : Int) < 0 from hnxf ▸ h) (lt_irrefl 0)
      · rw [bind_of_none (allocArray_of_not_mem setHosts hpos hmem)]
        refine iff_of_false (fun h => ?_) (fun h => hmem (h.2.hosts n t hh hpos))
        exact (h.2 rfl).hosts (by rw [harr]; exact hpos) rfl
    · refine hrest t (allocArray_of_nonpos setHosts hpos) hnxf' ?_ hfit fun h => absurd h hpos
      rw [harr]
      refine ⟨ha.token, fun h => absurd h hpos, fun h => ?_⟩
      exact absurd (show (0 : Int) < 0 from hnxf ▸ h) (lt_irrefl 0)
  · obtain hq := (hcount t).2 hh
    rw [bind_of_none hh]
    exact and_congr hq.2 ⟨fun _ => ⟨forall_of_none hh, forall_of_none (bind_of_none hh)⟩,
      fun _ _ => hq.1 ▸ ha⟩

/-! ## The authentication -/

/-- The data of an external authentication that are read at a state fit into their buffer. -/
def EauthFits (e : Env) (len : BitVec 32) (s : Run) : Prop :=
  ∀ n t, word e s = (some n, t) → n.toNat ≤ len.toNat → t.pos + n.toNat ≤ e.bytes.length →
    n.toNat ≤ eauthSize

/-- The data of an external authentication fit into their buffer, or are refused, and there is
memory for a token. -/
structure HarmlessAuth (e : Env) : Prop where
  eauth : ∀ s len t, authHead e .init = (some clientEauth, s) →
    xdrInt e .eauthLen s = (some len, t) → EauthFits e len t
  token : ∀ s n t, authHead e .init = (some clientDce, s) →
    xdrSet e .tokenLen BitVec.toInt setTokenLen s = (some n, t) → 0 < n →
    e.mem t.allocs (n.toNat * 1)

theorem quiet_authName : Keeps Quiet Quiet (authName e) :=
  (quiet_store _ (by decide)).bind fun _ => quiet_xdrItems (by decide)

theorem length_getBytes {n : Nat} {s t : Run} {data : List Byte}
    (h : getBytes e n s = (some data, t)) : data.length = n ∧ s.pos + n ≤ e.bytes.length := by
  rw [getBytes] at h
  split_ifs at h with hle
  · obtain rfl : _ = data := Option.some.inj (congrArg Prod.fst h)
    rw [List.length_take, List.length_drop]
    omega
  · cases h

/-- Bytes within their bound stay inside a place that is as large as the bound. -/
theorem keeps_xdrBytes {S : Arrays → Arrays → Prop} [IsTrans Arrays S] [Std.Refl S]
    (f lenField : Field) {max : Nat} (h : max ≤ size) {setLen : BitVec 32 → Dec Unit}
    (hset : ∀ n, Keeps (Keep S) (Keep S) (setLen n)) :
    Keeps (Keep S) (Keep S) (xdrBytes e f lenField size max setLen) := by
  have hmono : ∀ {α : Type} {m : Dec α}, Keeps Quiet Quiet m → Keeps (Keep S) (Keep S) m :=
    fun hm => hm.mono (fun s t hq => ⟨hq.1 ▸ refl_of S _, hq.2⟩) fun s t hq =>
      ⟨hq.1 ▸ refl_of S _, hq.2⟩
  refine (hmono (quiet_xdrInt _)).bind fun n => (hset n).bind fun _ => hmono ?_
  split_ifs with hn
  · exact quiet_fail
  · -- What is stored is as long as it was read.
    intro s t
    rcases (getBytes e n.toNat).ends s with ⟨data, s', hd⟩ | ⟨s', hd⟩
    · have hlen := (length_getBytes hd).1
      have hrest : Keeps Quiet Quiet (store f size data >>= fun _ =>
          skipPad e n.toNat >>= fun _ => (pure () : Dec Unit)) :=
        (quiet_store f (by omega)).bind fun _ => (quiet_getBytes _).bind fun _ => keeps_pure _
      have hs := (quiet_getBytes _ s s').1 data hd
      rw [bind_of_some hd]
      exact ⟨fun a ha => trans_of Quiet hs ((hrest s' t).1 a ha),
        fun hn => trans_of Quiet hs ((hrest s' t).2 hn)⟩
    · rw [bind_of_none hd]
      refine ⟨fun a ha => ?_, fun hn => ?_⟩
      · cases ha
      · obtain rfl : s' = t := congrArg Prod.snd hn
        exact (quiet_getBytes _ s s').2 hd

theorem xdrInt_of_word {s t : Run} {w : BitVec 32} (f : Field) (h : word e s = (some w, t)) :
    xdrInt e f s = (some w, { t with stores := t.stores ++ [⟨f, 4, wordBytes w⟩] }) := by
  rw [xdrInt, xdrIntTo, bind_of_some h]
  rfl

/-- The data of an external authentication stay inside their buffer when they are not longer. -/
theorem fits_eauthBody (len : BitVec 32) (s : Run) :
    (eauthBody e len s).2.arrays = s.arrays ∧
      ((eauthBody e len s).2.Fits ↔ s.Fits ∧ EauthFits e len s) := by
  rw [eauthBody, xdrBytes]
  rcases (word e).ends s with ⟨n, t, hw⟩ | ⟨t, hw⟩
  · obtain ⟨t1, ht1⟩ : ∃ t1 : Run,
        { t with stores := t.stores ++ [⟨.eauthLen, 4, wordBytes n⟩] } = t1 := ⟨_, rfl⟩
    have hint : xdrInt e .eauthLen s = (some n, t1) := by
      rw [← ht1]
      exact xdrInt_of_word _ hw
    have hq : Quiet s t1 := (quiet_xdrInt _ s t1).1 n hint
    have hpos : t1.pos = t.pos := by rw [← ht1]
    -- The number of bytes is the one read here.
    have hfits : EauthFits e len s ↔ (n.toNat ≤ len.toNat → t1.pos + n.toNat ≤ e.bytes.length →
        n.toNat ≤ eauthSize) := by
      rw [hpos]
      exact forall_of_some hw
    rw [bind_of_some hint, bind_of_some (show (pure () : Dec Unit) t1 = (some (), t1) from rfl),
      hfits]
    split_ifs with hlong
    · exact ⟨hq.1.symm, hq.2.trans (and_iff_left fun h => absurd h (not_le.mpr hlong)).symm⟩
    · rcases (getBytes e n.toNat).ends t1 with ⟨data, t2, hd⟩ | ⟨t2, hd⟩
      · obtain ⟨hlen, hin⟩ := length_getBytes hd
        have hq2 : Quiet s t2 := trans_of Quiet hq ((quiet_getBytes _ t1 t2).1 data hd)
        have hpad : Keeps Quiet Quiet (skipPad e n.toNat >>= fun _ => (pure () : Dec Unit)) :=
          (quiet_getBytes _).bind fun _ => keeps_pure _
        obtain ⟨t3, ht3⟩ : ∃ t3 : Run, { t2 with stores := t2.stores ++
          [⟨.eauthData, fixedSize .eauthData, data⟩] } = t3 := ⟨_, rfl⟩
        have hstore : store .eauthData (fixedSize .eauthData) data t2 = (some (), t3) := by
          rw [← ht3]
          rfl
        have hfit3 : t3.Fits ↔ s.Fits ∧ n.toNat ≤ eauthSize := by
          rw [← ht3, fits_append, hq2.2, Store.InBounds, hlen]
          rfl
        have harr3 : t3.arrays = s.arrays := by
          rw [← ht3]
          exact hq2.1.symm
        have hq4 : Quiet t3 _ := keeps_snd hpad t3
        rw [bind_of_some hd, bind_of_some hstore]
        refine ⟨hq4.1.symm.trans harr3, hq4.2.trans (hfit3.trans (and_congr_right fun _ => ?_))⟩
        exact ⟨fun h _ _ => h, fun h => h (not_lt.mp hlong) hin⟩
      · have hq2 : Quiet s t2 := trans_of Quiet hq ((quiet_getBytes _ t1 t2).2 hd)
        have hout : ¬ t1.pos + n.toNat ≤ e.bytes.length := by
          intro hin
          rw [getBytes, if_pos hin] at hd
          cases hd
        rw [bind_of_none hd]
        exact ⟨hq2.1.symm, hq2.2.trans (and_iff_left fun _ h => absurd h hout).symm⟩
  · have hint : xdrInt e .eauthLen s = (none, t) := by
      rw [xdrInt, xdrIntTo, bind_of_none hw]
    have hq : Quiet s t := (quiet_word s t).2 hw
    rw [bind_of_none hint]
    exact ⟨hq.1.symm, hq.2.trans (and_iff_left (forall_of_none hw)).symm⟩

/-- All but the token is the same. -/
def SameButToken (a b : Arrays) : Prop := ∃ n p, b = { a with tokenLen := n, token := p }

/-- There is memory for a token whose length is read at a state. -/
def TokenMem (e : Env) (s : Run) : Prop :=
  ∀ n t, xdrSet e .tokenLen BitVec.toInt setTokenLen s = (some n, t) → 0 < n →
    e.mem t.allocs (n.toNat * 1)

/-- What the body of the authentication does to the counts and the stores. -/
structure AuthSpec (e : Env) (kind : BitVec 32) (s : Run) (o : Option Unit) (t : Run) : Prop where
  same : SameButToken s.arrays t.arrays
  fits : t.Fits ↔ s.Fits ∧ (kind = clientEauth →
    ∀ len u, xdrInt e .eauthLen s = (some len, u) → EauthFits e len u)
  token : (kind = clientDce → 0 < t.arrays.tokenLen → t.arrays.token ≠ none) ↔
    (kind = clientDce → TokenMem e s)
  mem : o ≠ none → kind = clientDce → TokenMem e s

/-- A change of the length only. -/
def SameButTokenLen (a b : Arrays) : Prop := ∃ n, b = { a with tokenLen := n }

instance : Std.Refl SameButTokenLen := ⟨fun a => ⟨a.tokenLen, rfl⟩⟩

instance : IsTrans Arrays SameButTokenLen := by
  refine ⟨fun a b c hab hbc => ?_⟩
  obtain ⟨n, rfl⟩ := hab
  obtain ⟨m, rfl⟩ := hbc
  exact ⟨m, rfl⟩

theorem keeps_setTokenLen (n : Int) :
    Keeps (Keep SameButTokenLen) (Keep SameButTokenLen) (setArrays (setTokenLen n)) :=
  keeps_of_snd fun _ => ⟨⟨n, rfl⟩, Iff.rfl⟩

variable {o : Option Unit}

/-- The token of `CLIENT_DCE`. -/
theorem authSpec_token {s t : Run} (hlen : s.arrays.tokenLen = 0)
    (h : (xdrSet e .tokenLen BitVec.toInt setTokenLen >>= tokenBody e) s = (o, t)) :
    AuthSpec e clientDce s o t := by
  have hne : ¬ clientDce = clientEauth := by decide
  have hset := set_after (e := e) (keeps_pure () : Keeps Quiet Quiet (pure () : Dec Unit))
    (fun _ _ h => h) .tokenLen BitVec.toInt setTokenLen s
  rcases (xdrSet e .tokenLen BitVec.toInt setTokenLen).ends s with ⟨n, u, hs⟩ | ⟨u, hs⟩
  · obtain ⟨harr, hfit⟩ := (hset u).1 n hs
    have hmem : TokenMem e s ↔ (0 < n → e.mem u.allocs (n.toNat * 1) = true) := forall_of_some hs
    rw [bind_of_some hs, tokenBody] at h
    by_cases hok : 0 ≤ n ∧ e.mem u.allocs (n.toNat * 1) = true
    · -- The bytes are bounded by the length the memory was allocated for.
      have halloc : alloc e n 1 u = (some n.toNat, { u with allocs := u.allocs + 1 }) := by
        rw [alloc, if_pos hok]
      rw [bind_of_some (onFail_of_some halloc)] at h
      have hbytes := keeps_snd (keeps_xdrBytes (e := e) .authToken .tokenLen (le_refl n.toNat)
        fun w => keeps_setTokenLen w.toInt)
          { u with allocs := u.allocs + 1, arrays.token := some n.toNat }
      rw [bind_of_some (show setArrays _ _ = (some (), { u with
        allocs := u.allocs + 1, arrays.token := some n.toNat }) from rfl)] at h
      rw [h] at hbytes
      obtain ⟨⟨m, hm⟩, hfit'⟩ := hbytes
      have htok : t.arrays.token ≠ none := by
        rw [show t.arrays = _ from hm]
        exact Option.some_ne_none _
      refine ⟨⟨m, some n.toNat, ?_⟩, ?_, iff_of_true (fun _ _ => htok) fun _ => hmem.mpr ?_,
        fun _ _ => hmem.mpr ?_⟩
      · rw [show t.arrays = _ from hm, harr]
        rfl
      · exact hfit'.trans (hfit.trans (and_iff_left fun h => absurd h hne).symm)
      · exact fun _ => hok.2
      · exact fun _ => hok.2
    · have halloc : alloc e n 1 u = (none, { u with allocs := u.allocs + 1 }) := by
        rw [alloc, if_neg hok]
      rw [bind_of_none (onFail_of_none halloc), Prod.mk.injEq] at h
      obtain ⟨rfl, rfl⟩ := h
      refine ⟨⟨n, none, ?_⟩, hfit.trans (and_iff_left fun h => absurd h hne).symm, ?_,
        fun h => absurd rfl h⟩
      · rw [harr]
        rfl
      · refine imp_congr_right fun _ => ?_
        rw [hmem]
        show (0 < u.arrays.tokenLen → (none : Option Nat) ≠ none) ↔ _
        rw [harr]
        refine imp_congr_right fun hpos => iff_of_false (fun hc => hc rfl) fun hc => hok ?_
        exact ⟨hpos.le, hc⟩
  · have hq := (hset u).2 hs
    rw [bind_of_none hs, Prod.mk.injEq] at h
    obtain ⟨rfl, rfl⟩ := h
    refine ⟨⟨_, _, hq.1.symm⟩, hq.2.trans (and_iff_left fun h => absurd h hne).symm, ?_,
      fun h => absurd rfl h⟩
    refine imp_congr_right fun _ => iff_of_true (fun hpos => ?_) (forall_of_none hs)
    rw [← hq.1, hlen] at hpos
    exact absurd hpos (lt_irrefl 0)

/-- The data of `CLIENT_EAUTH`. -/
theorem authSpec_eauth {s t : Run}
    (h : (xdrInt e .eauthLen >>= eauthBody e) s = (o, t)) : AuthSpec e clientEauth s o t := by
  have hne : ¬ clientEauth = clientDce := by decide
  have htok : (clientEauth = clientDce → 0 < t.arrays.tokenLen → t.arrays.token ≠ none) ↔
      (clientEauth = clientDce → TokenMem e s) :=
    iff_of_true (fun h => absurd h hne) fun h => absurd h hne
  rcases (xdrInt e .eauthLen).ends s with ⟨len, u, hs⟩ | ⟨u, hs⟩
  · have hq := (quiet_xdrInt _ s u).1 len hs
    have hbody := fits_eauthBody (e := e) len u
    rw [bind_of_some hs] at h
    rw [h] at hbody
    refine ⟨⟨_, _, hbody.1.trans hq.1.symm⟩, ?_, htok, fun _ h => absurd h hne⟩
    exact hbody.2.trans (and_congr hq.2 ⟨fun hf _ => (forall_of_some hs).mpr hf,
      fun hf => hf rfl len u hs⟩)
  · have hq := (quiet_xdrInt _ s u).2 hs
    rw [bind_of_none hs, Prod.mk.injEq] at h
    obtain ⟨rfl, rfl⟩ := h
    exact ⟨⟨_, _, hq.1.symm⟩, hq.2.trans (and_iff_left fun _ => forall_of_none hs).symm, htok,
      fun h => absurd rfl h⟩

theorem authSpec_body {kind : BitVec 32} {s t : Run}
    (hlen : s.arrays.tokenLen = 0) (h : authBody e kind s = (o, t)) : AuthSpec e kind s o t := by
  rw [authBody] at h
  split_ifs at h with hdce heauth
  · rw [hdce]
    exact authSpec_token hlen h
  · rw [heauth]
    exact authSpec_eauth h
  · have hq : Quiet s t := by
      have := keeps_snd (quiet_xdrArrayElement (e := e) (quiet_xdrInt (e := e) .filler)) s
      rwa [h] at this
    exact ⟨⟨_, _, hq.1.symm⟩, hq.2.trans (and_iff_left fun h => absurd h heauth).symm,
      iff_of_true (fun h => absurd h hdce) fun h => absurd h hdce, fun _ h => absurd h hdce⟩

/-- What the authentication leaves: its own conditions decide about stores and token, and the
request is untouched. -/
theorem auth_spec (h : xdrLsfAuth e .init = (o, s)) :
    (s.Fits ∧ (o = none → s.arrays.Allocated) ↔ HarmlessAuth e) ∧
      (o ≠ none → s.arrays.Allocated) ∧ s.arrays.nxf = 0 := by
  have hhead := fun t => set_after (e := e) (quiet_authName (e := e)) (fun _ _ h => h) .kind id
    setKind .init t
  have hinit : Run.init.Fits := by simp [Run.Fits, Run.init]
  rw [xdrLsfAuth] at h
  rcases (authHead e).ends .init with ⟨kind, t, hk⟩ | ⟨t, hk⟩
  · obtain ⟨harr, hfit⟩ := (hhead t).1 kind hk
    have hlen : t.arrays.tokenLen = 0 := by rw [harr]; rfl
    rw [bind_of_some hk] at h
    -- The conditions, with the kind that was read.
    have hiff : HarmlessAuth e ↔ (kind = clientEauth →
        ∀ len u, xdrInt e .eauthLen t = (some len, u) → EauthFits e len u) ∧
        (kind = clientDce → TokenMem e t) := by
      refine ⟨fun hh => ⟨fun hkind len u hu => ?_, fun hkind n u hu => ?_⟩,
        fun hh => ⟨fun s' len u hs' hu => ?_, fun s' n u hs' hu => ?_⟩⟩
      · exact hh.eauth t len u (hkind ▸ hk) hu
      · exact hh.token t n u (hkind ▸ hk) hu
      · rw [hk, Prod.mk.injEq, Option.some.injEq] at hs'
        obtain ⟨hkind, rfl⟩ := hs'
        exact hh.1 hkind len u hu
      · rw [hk, Prod.mk.injEq, Option.some.injEq] at hs'
        obtain ⟨hkind, rfl⟩ := hs'
        exact hh.2 hkind n u hu
    -- The last field is quiet, so the body decides.
    obtain ⟨o', u, hb, hq, hsome⟩ : ∃ o' u, authBody e kind t = (o', u) ∧ Quiet u s ∧
        (o ≠ none → o' ≠ none) := by
      rcases (authBody e kind).ends t with ⟨a, u, hb⟩ | ⟨u, hb⟩
      · refine ⟨_, u, hb, ?_, fun _ => Option.some_ne_none _⟩
        rw [bind_of_some hb] at h
        have hlast : Keeps Quiet Quiet (xdrItems e [.int .authOptions]) :=
          quiet_xdrItems (by decide)
        have := keeps_snd hlast u
        rwa [h] at this
      · rw [bind_of_none hb, Prod.mk.injEq] at h
        obtain ⟨rfl, rfl⟩ := h
        exact ⟨_, u, hb, refl_of Quiet u, id⟩
    have hspec := authSpec_body hlen hb
    obtain ⟨n, p, hsame⟩ := hspec.same
    have hsarr : s.arrays = { Run.init.arrays with kind := kind, tokenLen := n, token := p } := by
      rw [← hq.1, hsame, harr]
      rfl
    have hfits : s.Fits ↔ (kind = clientEauth →
        ∀ len u, xdrInt e .eauthLen t = (some len, u) → EauthFits e len u) := by
      rw [hq.2, hspec.fits, hfit]
      exact and_iff_right hinit
    have halloc : s.arrays.Allocated ↔ (kind = clientDce → TokenMem e t) := by
      rw [← hspec.token, hq.1]
      refine ⟨fun ha hkind => ha.token (by rw [hsarr]; exact hkind), fun ha => ⟨fun hkind => ha ?_,
        fun hpos => ?_, fun hpos => ?_⟩⟩
      · rw [hsarr] at hkind
        exact hkind
      · rw [hsarr] at hpos
        exact absurd hpos (lt_irrefl 0)
      · rw [hsarr] at hpos
        exact absurd hpos (lt_irrefl 0)
    refine ⟨?_, fun ho => halloc.mpr (hspec.mem (hsome ho)), by rw [hsarr]; rfl⟩
    rw [hiff, hfits]
    refine and_congr_right fun _ => ⟨fun ha => ?_, fun ha _ => halloc.mpr ha⟩
    by_cases ho : o = none
    · exact halloc.mp (ha ho)
    · exact hspec.mem (hsome ho)
  · have hq := (hhead t).2 hk
    rw [bind_of_none hk, Prod.mk.injEq] at h
    obtain ⟨rfl, rfl⟩ := h
    have hall : t.arrays.Allocated := by
      rw [← hq.1]
      exact ⟨fun h => absurd h (by decide), fun h => absurd h (lt_irrefl 0),
        fun h => absurd h (lt_irrefl 0)⟩
    refine ⟨iff_of_true ⟨hq.2.mpr hinit, fun _ => hall⟩ ⟨fun s' len u hs' => ?_,
      fun s' n u hs' => ?_⟩, fun _ => hall, by rw [← hq.1]; rfl⟩
    · rw [hk] at hs'
      cases hs'
    · rw [hk] at hs'
      cases hs'

/-! ## The message -/

/-- A message for which decoding is safe. -/
structure Harmless (e : Env) : Prop where
  auth : HarmlessAuth e
  req : ∀ s, xdrLsfAuth e .init = (some (), s) → HarmlessReq e s

/-- **Decoding is safe for exactly the harmless messages.** -/
theorem safe_iff_harmless (e : Env) : Safe e ↔ Harmless e := by
  have hsafe : Safe e ↔ Sound (decode e .init) :=
    ⟨fun h => ⟨h.in_bounds, h.allocated⟩, fun h => ⟨h.1, h.2⟩⟩
  rw [hsafe, decode]
  rcases (xdrLsfAuth e).ends .init with ⟨_, s, hs⟩ | ⟨s, hs⟩
  · obtain ⟨hauth, hall, hnxf⟩ := auth_spec hs
    have hfits : s.Fits ↔ HarmlessAuth e := by
      rw [← hauth]
      exact (and_iff_left nofun).symm
    rw [bind_of_some hs, sound_req_iff hnxf (hall (Option.some_ne_none _)), hfits]
    refine ⟨fun h => ⟨h.1, fun s' hs' => ?_⟩, fun h => ⟨h.auth, h.req s hs⟩⟩
    rw [hs, Prod.mk.injEq] at hs'
    rw [← hs'.2]
    exact h.2
  · rw [bind_of_none hs]
    refine (auth_spec hs).1.trans ⟨fun h => ⟨h, fun s' hs' => ?_⟩, fun h => h.auth⟩
    rw [hs] at hs'
    cases hs'

/-- The bytes of some words. -/
def words (ws : List (BitVec 32)) : List Byte := ws.flatMap wordBytes

/-- A message with 4100 bytes of authentication data. -/
def longEauth : Env :=
  ⟨words [0, 0, 0, clientEauth, 4100, 4100] ++ List.replicate 4100 0, fun _ _ => true⟩

/-- A request with one file that ends behind the number of files. -/
def cutFiles : Env :=
  ⟨words ([0, 0, 0, 0, 8, 0, 0] ++ List.replicate 27 0 ++ [1]), fun _ _ => true⟩

/-- The data of an authentication are stored beyond their buffer, and a request that ends too early
leaves one file without memory. -/
theorem eauth_overruns : ¬ Safe longEauth ∧ ¬ Safe cutFiles := by
  refine ⟨fun h => ?_, fun h => ?_⟩
  · have hout : ∃ st ∈ (decode longEauth .init).2.stores, ¬ st.InBounds := by decide +kernel
    obtain ⟨st, hst, hout⟩ := hout
    exact hout (h.in_bounds st hst)
  · have hend : (decode cutFiles .init).1 = none ∧ (decode cutFiles .init).2.arrays.nxf = 1 ∧
        (decode cutFiles .init).2.arrays.xf = none := by decide +kernel
    refine (h.allocated hend.1).files ?_ hend.2.2
    rw [hend.2.1]
    exact one_pos

end SubmitXdr

end Volclava
