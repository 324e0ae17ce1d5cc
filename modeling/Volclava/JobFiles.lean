import Volclava.Lib.Ring
import Volclava.Lib.Xdr

/-!
# Packed job files

A packed submission carries the job files of all its jobs in one string: the number of files, and
for every file its length and its bytes. `packAllJobFiles` writes the string at growing offsets of a
fresh block of memory, `unpackJobFiles` reads it with a pointer that is compared with the end before
every access.

- `JobFiles.Holds`: what the writer has written up to an offset.
- `JobFiles.Laid`: files that lie one behind the other in a string.
- `job_files_round_trip`: what is packed is unpacked, and no string makes the reader leave it.
-/

namespace Volclava

open Xdr List

namespace JobFiles

/-- A length and a pointer; the bytes that may be read there. -/
structure LenData where
  len : Int
  data : Option (List Byte)
  deriving DecidableEq

/-- The bytes of a file. -/
def LenData.bytes (f : LenData) : List Byte := (f.data.getD []).take f.len.toNat

/-- A job file: as many bytes as its length says. -/
structure LenData.Valid (f : LenData) : Prop where
  len_nonneg : 0 ≤ f.len
  data : 0 < f.len → ∃ bs, f.data = some bs ∧ f.len ≤ bs.length

/-- The same length and the same bytes. -/
def LenData.Same (f f' : LenData) : Prop := f'.len = f.len ∧ f'.bytes = f.bytes

def netIntSize : Nat := 4

/-- `htonl`. -/
def htonl (n : Int) : List Byte := putUInt (BitVec.ofInt 32 n)

/-! ## Packing -/

/-- The size of the packed string, a C `int`. -/
def totalSize (files : List LenData) : Int :=
  files.foldl (fun total f => Int.bmod (Int.bmod (total + netIntSize) (2 ^ 32) + f.len) (2 ^ 32))
    netIntSize

/-- The memory and the offset behind what was written. -/
structure Output where
  mem : Nat → Byte
  offset : Nat

def Output.write (o : Output) (bs : List Byte) : Output :=
  ⟨Ring.memcpy o.mem o.offset bs, o.offset + bs.length⟩

/-- Writes one file; without bytes only its length is written. -/
def packFile (o : Output) (f : LenData) : Output :=
  let o := o.write (htonl f.len)
  match f.data with
  | some bs => if 0 < f.len then o.write (bs.take f.len.toNat) else o
  | none => o

/-- Packs the files into a block of memory that `malloc` returned as it was. -/
def packAllJobFiles (heap : Nat → Byte) (files : List LenData) : Option LenData :=
  if files = [] then none
  else if totalSize files < 0 then none
  else
    let o := files.foldl packFile (Output.write ⟨heap, 0⟩ (htonl files.length))
    some ⟨totalSize files, some ((List.range (totalSize files).toNat).map o.mem)⟩

/-! ## Unpacking -/

inductive UnpackResult where
  | failed
  /-- Bytes behind the end of the memory were read. -/
  | overread
  | files (fs : List LenData)
  deriving DecidableEq

/-- Reads bytes at an offset, if they are there. -/
def readBytes (bs : List Byte) (p n : Nat) : Option (List Byte) :=
  if p + n ≤ bs.length then some ((bs.drop p).take n) else none

/-- Reads a C `int` in network order. -/
def readInt (bs : List Byte) (p : Nat) : Option Int := (uInt (bs.drop p)).map fun r => r.1.toInt

/-- The loop over the files that are left. -/
def unpackLoop (bs : List Byte) (endp : Nat) : Nat → Nat → List LenData → UnpackResult
  | 0, _, jfArray => .files jfArray
  | n + 1, p, jfArray =>
    if endp < p + netIntSize then .failed
    else
      match readInt bs p with
      | none => .overread
      | some fileLen =>
        if fileLen < 0 ∨ endp < p + netIntSize + fileLen.toNat then .failed
        else if 0 < fileLen then
          match readBytes bs (p + netIntSize) fileLen.toNat with
          | none => .overread
          | some d =>
            unpackLoop bs endp n (p + netIntSize + fileLen.toNat) (jfArray ++ [⟨fileLen, some d⟩])
        else unpackLoop bs endp n (p + netIntSize) (jfArray ++ [⟨fileLen, none⟩])

def unpackJobFiles (packed : LenData) : UnpackResult :=
  match packed.data with
  | none => .failed
  | some bs =>
    if packed.len < netIntSize then .failed
    else
      match readInt bs 0 with
      | none => .overread
      | some count =>
        if count ≤ 0 then .failed
        else unpackLoop bs packed.len.toNat count.toNat netIntSize []

theorem unpackJobFiles_some (len : Int) (bs : List Byte) {count : Int}
    (hlen : ¬ len < netIntSize) (hcount : readInt bs 0 = some count) :
    unpackJobFiles ⟨len, some bs⟩ =
      if count ≤ 0 then .failed else unpackLoop bs len.toNat count.toNat netIntSize [] := by
  show (if len < netIntSize then _ else match readInt bs 0 with | none => _ | some count => _) = _
  rw [if_neg hlen, hcount]

/-! ## What is written -/

/-- The memory from its beginning up to the offset. -/
def Holds (o : Output) (bs : List Byte) : Prop :=
  o.offset = bs.length ∧ ∀ i x, bs[i]? = some x → o.mem i = x

variable {bs : List Byte} {files : List LenData} {o : Output}

theorem Holds.write (h : Holds o bs) (more : List Byte) :
    Holds (o.write more) (bs ++ more) := by
  obtain ⟨hoff, hmem⟩ := h
  refine ⟨?_, fun i x hx => ?_⟩
  · rw [length_append, ← hoff]
    rfl
  · show Ring.memcpy o.mem o.offset more i = x
    rcases Nat.lt_or_ge i bs.length with hi | hi
    · rw [List.getElem?_append_left hi] at hx
      rw [Ring.memcpy_of_lt (by omega)]
      exact hmem i x hx
    · rw [List.getElem?_append_right hi, ← hoff] at hx
      have hsplit : i = o.offset + (i - o.offset) := by omega
      rw [hsplit]
      exact Ring.memcpy_add hx

/-- The bytes of a file behind its length. -/
def encode (f : LenData) : List Byte := htonl f.len ++ f.bytes

theorem length_htonl (n : Int) : (htonl n).length = netIntSize := rfl

variable {f : LenData}

theorem LenData.Valid.length_bytes (h : f.Valid) :
    (f.bytes.length : Int) = f.len := by
  have hnonneg := h.len_nonneg
  rcases eq_or_lt_of_le hnonneg with hzero | hpos
  · rw [LenData.bytes, ← hzero]
    simp
  · obtain ⟨bs, hbs, hle⟩ := h.data hpos
    rw [LenData.bytes, hbs, Option.getD_some, length_take]
    omega

theorem LenData.Valid.length_encode (h : f.Valid) :
    ((encode f).length : Int) = netIntSize + f.len := by
  rw [encode, length_append, length_htonl, Nat.cast_add, h.length_bytes]

theorem Holds.packFile (h : Holds o bs) (hf : f.Valid) :
    Holds (packFile o f) (bs ++ encode f) := by
  have hlen := h.write (htonl f.len)
  rw [encode, ← append_assoc, JobFiles.packFile.eq_def]
  by_cases hpos : 0 < f.len
  · obtain ⟨d, hd, -⟩ := hf.data hpos
    simp only [hd, if_pos hpos]
    have hbytes : f.bytes = d.take f.len.toNat := by rw [LenData.bytes, hd, Option.getD_some]
    rw [hbytes]
    exact hlen.write _
  · have hbytes : f.bytes = [] := by
      have := hf.length_bytes
      exact eq_nil_of_length_eq_zero (by omega)
    rw [hbytes, append_nil]
    cases f.data with
    | none => exact hlen
    | some d =>
      simp only [if_neg hpos]
      exact hlen

theorem Holds.packFiles (h : Holds o bs) (hfiles : ∀ f ∈ files, f.Valid) :
    Holds (files.foldl JobFiles.packFile o) (bs ++ files.flatMap encode) := by
  induction files generalizing o bs with
  | nil =>
    rw [flatMap_nil, append_nil]
    exact h
  | cons f files ih =>
    obtain ⟨hf, hfiles⟩ := forall_mem_cons.mp hfiles
    rw [foldl_cons, flatMap_cons, ← append_assoc]
    exact ih (h.packFile hf) hfiles

/-- The size is that of the string as long as it is a C `int`. -/
theorem totalSize_eq (hfiles : ∀ f ∈ files, f.Valid)
    (hsize : netIntSize + (files.flatMap encode).length < 2 ^ 31) :
    totalSize files = netIntSize + (files.flatMap encode).length := by
  -- Every partial sum is a C `int` as well.
  have hsum : ∀ (l : List LenData) (t : Nat), (∀ f ∈ l, f.Valid) →
      t + (l.flatMap encode).length < 2 ^ 31 →
      l.foldl (fun total f => Int.bmod (Int.bmod (total + netIntSize) (2 ^ 32) + f.len) (2 ^ 32))
        (t : Int) = t + (l.flatMap encode).length := by
    intro l
    induction l with
    | nil =>
      intro t _ _
      simp
    | cons f l ih =>
      intro t hl ht
      obtain ⟨hf, hl⟩ := forall_mem_cons.mp hl
      have hflen := hf.length_encode
      have hnonneg := hf.len_nonneg
      rw [flatMap_cons, length_append] at ht ⊢
      have hone : Int.bmod ((t : Int) + netIntSize) (2 ^ 32) = t + netIntSize := by
        rw [Int.bmod_eq_of_le] <;> simp only [netIntSize] at hflen ⊢ <;> omega
      have htwo : Int.bmod ((t : Int) + netIntSize + f.len) (2 ^ 32) =
          ((t + (encode f).length : Nat) : Int) := by
        rw [Int.bmod_eq_of_le] <;> push_cast <;> simp only [netIntSize] at hflen ⊢ <;> omega
      rw [foldl_cons, hone, htwo, ih _ hl (by omega)]
      push_cast
      ring
  have := hsum files netIntSize hfiles hsize
  exact this

theorem map_range_of_holds (h : Holds o bs) :
    (List.range bs.length).map o.mem = bs := by
  apply ext_getElem
  · simp
  · intro i h1 h2
    rw [getElem_map, getElem_range]
    exact h.2 i _ (List.getElem?_eq_getElem h2)

/-- **What packing returns.** -/
theorem packAllJobFiles_eq (heap : Nat → Byte) (hne : files ≠ []) (hfiles : ∀ f ∈ files, f.Valid)
    (hsize : netIntSize + (files.flatMap encode).length < 2 ^ 31) :
    packAllJobFiles heap files = some ⟨(htonl files.length ++ files.flatMap encode).length,
      some (htonl files.length ++ files.flatMap encode)⟩ := by
  have htotal := totalSize_eq hfiles hsize
  have hlen : (htonl files.length ++ files.flatMap encode).length =
      netIntSize + (files.flatMap encode).length := by
    rw [length_append, length_htonl]
  have hstart : Holds ⟨heap, 0⟩ [] := ⟨rfl, nofun⟩
  have hholds := (hstart.write (htonl files.length)).packFiles hfiles
  rw [nil_append] at hholds
  have hmem := map_range_of_holds hholds
  have htoNat : (totalSize files).toNat = (htonl files.length ++ files.flatMap encode).length := by
    rw [htotal, hlen]
    omega
  rw [packAllJobFiles, if_neg hne, if_neg (by omega)]
  simp only [htoNat, hmem]
  rw [htotal, hlen]
  push_cast
  rfl

/-! ## What is read -/

theorem readInt_append (pre rest : List Byte) {n : Int} (hn : 0 ≤ n) (hlt : n < 2 ^ 31) :
    readInt (pre ++ (htonl n ++ rest)) pre.length = some n := by
  rw [readInt, drop_left, htonl, uInt_putUInt, Option.map_some, BitVec.toInt_ofInt,
    Int.bmod_eq_of_le] <;> omega

/-- A file as the reader returns it. -/
def unpacked (f : LenData) : LenData := ⟨f.len, if 0 < f.len then some f.bytes else none⟩

theorem LenData.Valid.bytes_unpacked (h : f.Valid) :
    (unpacked f).bytes = f.bytes := by
  have hlen := h.length_bytes
  by_cases hpos : 0 < f.len
  · rw [unpacked, if_pos hpos]
    exact take_of_length_le (show f.bytes.length ≤ f.len.toNat by omega)
  · have hnil : f.bytes = [] := eq_nil_of_length_eq_zero (by omega)
    rw [unpacked, if_neg hpos, hnil]
    exact take_nil

/-- One round of the loop, for a file that lies at the pointer. -/
theorem unpackLoop_step {p n : Nat} {jfArray : List LenData}
    (hint : readInt bs p = some f.len) (hnonneg : 0 ≤ f.len)
    (hle : p + netIntSize + f.len.toNat ≤ bs.length)
    (hbytes : (bs.drop (p + netIntSize)).take f.len.toNat = f.bytes) :
    unpackLoop bs bs.length (n + 1) p jfArray =
      unpackLoop bs bs.length n (p + netIntSize + f.len.toNat) (jfArray ++ [unpacked f]) := by
  rw [unpackLoop, if_neg (by omega)]
  simp only [hint]
  rw [if_neg (by omega), readBytes, if_pos hle, hbytes, unpacked]
  by_cases hpos : 0 < f.len
  · simp only [if_pos hpos]
  · have hzero : f.len.toNat = 0 := by omega
    simp only [if_neg hpos, hzero, Nat.add_zero]

/-- **The loop reads back what lies behind its pointer.** -/
theorem unpackLoop_encode (hfiles : ∀ f ∈ files, f.Valid) (pre : List Byte) (jfArray : List LenData)
    (hsize : pre.length + (files.flatMap encode).length < 2 ^ 31) :
    unpackLoop (pre ++ files.flatMap encode) (pre ++ files.flatMap encode).length files.length
      pre.length jfArray = .files (jfArray ++ files.map unpacked) := by
  induction files generalizing pre jfArray with
  | nil => simp [unpackLoop]
  | cons f files ih =>
    obtain ⟨hf, hrest⟩ := forall_mem_cons.mp hfiles
    have hflen := hf.length_encode
    have hblen := hf.length_bytes
    have hnonneg := hf.len_nonneg
    have hstep := ih hrest (pre ++ encode f)
    rw [append_assoc, ← flatMap_cons] at hstep
    rw [flatMap_cons, length_append] at hsize
    have hall : (pre ++ (f :: files).flatMap encode).length =
        pre.length + ((encode f).length + (files.flatMap encode).length) := by
      rw [length_append, flatMap_cons, length_append]
    have hnext : (pre ++ encode f).length = pre.length + netIntSize + f.len.toNat := by
      rw [length_append]
      omega
    have hint : readInt (pre ++ (f :: files).flatMap encode) pre.length = some f.len := by
      rw [flatMap_cons, encode, append_assoc]
      exact readInt_append pre _ hnonneg (by omega)
    have hbytes : ((pre ++ (f :: files).flatMap encode).drop (pre.length + netIntSize)).take
        f.len.toNat = f.bytes := by
      have hcount : f.len.toNat = f.bytes.length := by omega
      rw [← drop_drop, drop_left, flatMap_cons, encode, append_assoc,
        ← length_htonl f.len, drop_left, hcount, take_left]
    rw [length_cons, unpackLoop_step hint hnonneg (by omega) hbytes, ← hnext,
      hstep _ (by omega), append_assoc]
    rfl

/-! ## Every string -/

/-- Files that lie one behind the other in a string, each behind its length. -/
def Laid (bs : List Byte) : Nat → List LenData → Prop
  | _, [] => True
  | p, f :: fs =>
    p + netIntSize ≤ bs.length ∧ readInt bs p = some f.len ∧ 0 ≤ f.len ∧
      p + netIntSize + f.len.toNat ≤ bs.length ∧
      f.bytes = (bs.drop (p + netIntSize)).take f.len.toNat ∧
      Laid bs (p + netIntSize + f.len.toNat) fs

theorem readInt_of_le {p : Nat} (h : p + netIntSize ≤ bs.length) :
    ∃ n, readInt bs p = some n := by
  obtain ⟨w, rest, hw, -⟩ := exists_uInt
    (show 4 ≤ (bs.drop p).length by rw [length_drop]; simp only [netIntSize] at h; omega)
  exact ⟨w.toInt, by rw [readInt, hw, Option.map_some]⟩

/-- The loop stays inside the string, and the files it adds lie there. -/
theorem unpackLoop_inside (bs : List Byte) (n p : Nat) (jfArray : List LenData) :
    unpackLoop bs bs.length n p jfArray = .failed ∨
      ∃ fs, unpackLoop bs bs.length n p jfArray = .files (jfArray ++ fs) ∧ fs.length = n ∧
        Laid bs p fs := by
  induction n generalizing p jfArray with
  | zero => exact .inr ⟨[], by rw [unpackLoop, append_nil], rfl, trivial⟩
  | succ n ih =>
    by_cases hhead : bs.length < p + netIntSize
    · rw [unpackLoop, if_pos hhead]
      exact .inl rfl
    obtain ⟨fileLen, hint⟩ := readInt_of_le (not_lt.mp hhead)
    by_cases hbad : fileLen < 0 ∨ bs.length < p + netIntSize + fileLen.toNat
    · rw [unpackLoop, if_neg hhead]
      simp only [hint]
      exact .inl (if_pos hbad)
    obtain ⟨hnonneg, hle⟩ := not_or.mp hbad
    obtain ⟨d, hd⟩ : ∃ d, (bs.drop (p + netIntSize)).take fileLen.toNat = d := ⟨_, rfl⟩
    have hbytes : d.take fileLen.toNat = d := by rw [← hd, take_take, min_self]
    have hvalid : LenData.Valid ⟨fileLen, some d⟩ := by
      refine ⟨not_lt.mp hnonneg, fun _ => ⟨d, rfl, ?_⟩⟩
      show fileLen ≤ d.length
      rw [← hd, length_take, length_drop]
      omega
    rw [unpackLoop_step (f := ⟨fileLen, some d⟩) hint (not_lt.mp hnonneg) (not_lt.mp hle)
      (hd.trans hbytes.symm)]
    rcases ih (p + netIntSize + fileLen.toNat) (jfArray ++ [unpacked ⟨fileLen, some d⟩]) with
      hfail | ⟨fs, hfs, hlen, hlaid⟩
    · exact .inl hfail
    · refine .inr ⟨unpacked ⟨fileLen, some d⟩ :: fs, ?_, by rw [length_cons, hlen],
        not_lt.mp hhead, hint, not_lt.mp hnonneg, not_lt.mp hle, ?_, hlaid⟩
      · rw [hfs, append_assoc]
        rfl
      · exact hvalid.bytes_unpacked.trans (hbytes.trans hd.symm)

theorem unpackJobFiles_inside (bs : List Byte) :
    unpackJobFiles ⟨bs.length, some bs⟩ = .failed ∨
      ∃ fs, unpackJobFiles ⟨bs.length, some bs⟩ = .files fs ∧
        readInt bs 0 = some (fs.length : Int) ∧ Laid bs netIntSize fs := by
  by_cases hshort : (bs.length : Int) < netIntSize
  · exact .inl (if_pos hshort)
  · obtain ⟨count, hcount⟩ := readInt_of_le (show 0 + netIntSize ≤ bs.length by omega)
    rw [unpackJobFiles_some _ bs hshort hcount, hcount]
    by_cases hle : count ≤ 0
    · rw [if_pos hle]
      exact .inl rfl
    · rw [if_neg hle, Int.toNat_natCast]
      rcases unpackLoop_inside bs count.toNat netIntSize [] with hfail | ⟨fs, hfs, hlen, hlaid⟩
      · exact .inl hfail
      · refine .inr ⟨fs, hfs, ?_, hlaid⟩
        rw [hlen, Int.toNat_of_nonneg (by omega)]

theorem unpack_packAllJobFiles (heap : Nat → Byte) (hne : files ≠ [])
    (hfiles : ∀ f ∈ files, f.Valid) (hsize : netIntSize + (files.flatMap encode).length < 2 ^ 31) :
    ∃ packed, packAllJobFiles heap files = some packed ∧
      unpackJobFiles packed = .files (files.map unpacked) := by
  have hlen : (htonl files.length ++ files.flatMap encode).length =
      netIntSize + (files.flatMap encode).length := by
    rw [length_append, length_htonl]
  -- Every file takes at least the bytes of its length, so their number is a C `int`.
  have hcount : files.length ≤ (files.flatMap encode).length := by
    rw [length_flatMap]
    calc files.length = (files.map fun _ => 1).sum := by simp
      _ ≤ (files.map fun f => (encode f).length).sum := by
        apply sum_le_sum
        intro f _
        rw [encode, length_append, length_htonl]
        simp [netIntSize]
        omega
  have hpos : 0 < files.length := length_pos_iff.mpr hne
  have hread := readInt_append [] (files.flatMap encode) (n := files.length) (by omega) (by omega)
  rw [nil_append, length_nil] at hread
  refine ⟨_, packAllJobFiles_eq heap hne hfiles hsize, ?_⟩
  rw [unpackJobFiles_some _ _ (by omega) hread, if_neg (by omega), Int.toNat_natCast,
    Int.toNat_natCast]
  have hloop := unpackLoop_encode hfiles (htonl files.length) [] (by rw [length_htonl]; exact hsize)
  rw [nil_append, length_htonl] at hloop
  exact hloop

end JobFiles

open JobFiles

/-- **Packed job files are unpacked as they were**, and whatever string arrives, the reader fails or
returns files that lie inside it, without reading behind its end. -/
theorem job_files_round_trip :
    (∀ (heap : Nat → Byte) (files : List LenData), files ≠ [] → (∀ f ∈ files, f.Valid) →
      (netIntSize : Int) + (files.map fun f => (netIntSize : Int) + f.len).sum < 2 ^ 31 →
      ∃ packed files', packAllJobFiles heap files = some packed ∧
        unpackJobFiles packed = .files files' ∧
        List.Forall₂ LenData.Same files files') ∧
    (∀ bs : List Byte, unpackJobFiles ⟨bs.length, some bs⟩ ≠ .overread ∧
      ∀ fs, unpackJobFiles ⟨bs.length, some bs⟩ = .files fs →
        readInt bs 0 = some (fs.length : Int) ∧ Laid bs netIntSize fs) := by
  constructor
  · intro heap files hne hfiles hsize
    have hlen : ((files.flatMap encode).length : Int) =
        (files.map fun f => (netIntSize : Int) + f.len).sum := by
      rw [length_flatMap, Nat.cast_list_sum, map_map]
      refine congrArg List.sum (map_congr_left fun f hf => ?_)
      exact (hfiles f hf).length_encode
    rw [← hlen] at hsize
    obtain ⟨packed, hpack, hunpack⟩ := unpack_packAllJobFiles heap hne hfiles (by omega)
    refine ⟨packed, _, hpack, hunpack, ?_⟩
    rw [forall₂_map_right_iff]
    exact forall₂_same.mpr fun f hf => ⟨rfl, (hfiles f hf).bytes_unpacked⟩
  · intro bs
    rcases unpackJobFiles_inside bs with hfail | ⟨fs, hfs, hcount, hlaid⟩
    · rw [hfail]
      exact ⟨by simp, nofun⟩
    · rw [hfs]
      refine ⟨by simp, fun fs' hfs' => ?_⟩
      obtain rfl := UnpackResult.files.inj hfs'
      exact ⟨hcount, hlaid⟩

/-- Two files, the second one empty. -/
def twoFiles : List LenData := [⟨2, some [35, 33]⟩, ⟨0, none⟩]

theorem two_files_round_trip :
    (∃ packed files', packAllJobFiles (fun _ => 255) twoFiles = some packed ∧
      unpackJobFiles packed = .files files' ∧ List.Forall₂ LenData.Same twoFiles files') ∧
    unpackJobFiles ⟨8, some [0, 0, 0, 1, 0, 0, 0, 9]⟩ ≠ .overread := by
  have hvalid : ∀ f ∈ twoFiles, f.Valid := by
    intro f hf
    rcases mem_cons.mp hf with rfl | hf
    · exact ⟨by decide, fun _ => ⟨_, rfl, by decide⟩⟩
    · obtain rfl := mem_singleton.mp hf
      exact ⟨by decide, fun h => absurd h (by decide)⟩
  exact ⟨job_files_round_trip.1 _ twoFiles (by decide) hvalid (by decide),
    (job_files_round_trip.2 [0, 0, 0, 1, 0, 0, 0, 9]).1⟩

end Volclava
