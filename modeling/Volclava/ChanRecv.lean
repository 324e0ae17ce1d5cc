import Volclava.ChanSend
import Volclava.Lib.Framing
import Volclava.Lib.Xdr

/-!
# The receiving side of a channel

`doread` and `doreadEpoll` (`lib.channel.c`) put a message together in one buffer: first the header
of 16 bytes, then, with the buffer grown by the length the header gives, the rest. The length is an
unsigned word, the length of the buffer an `int`. A length of 2³¹ - 16 or more makes it negative,
and one of 2³² - 16 or more shrinks the buffer below what it holds, so that the next `read()` is
asked for a negative count.

- `IsMsg`: a whole message. `RecvChan.Sound`: the buffer is in order and the messages delivered are
  those of the stream.
- `sound_of_small`: this holds for all ways to split a stream whose headers give small lengths.
- `huge_length_overruns`: a header with the length 2³² - 8.
- `end_to_end`: a sender and a receiver together.
-/

namespace Volclava

open Xdr List

/-! ## Headers and messages -/

/-- The header of a message. -/
structure LSFHeader where
  refCode : BitVec 16
  opCode : BitVec 16
  length : BitVec 32
  version : BitVec 16
  reserved : BitVec 16
  reserved0 : BitVec 32
  deriving DecidableEq

def lsfHeaderLen : Nat := 16

/-- Decodes the four words of a header. -/
def xdrLSFHeader (bs : List Byte) : Option (LSFHeader × List Byte) := do
  let (word1, bs) ← uInt bs
  let (word2, bs) ← uInt bs
  let (word3, bs) ← uInt bs
  let (word4, bs) ← uInt bs
  return ({ refCode := word1.extractLsb' 16 16
            opCode := word1.extractLsb' 0 16
            length := word2
            version := word3.extractLsb' 16 16
            reserved := word3.extractLsb' 0 16
            reserved0 := word4 }, bs)

/-- What the decoder reads of a byte string it accepts. -/
theorem xdrLSFHeader_eq_some {bs rest : List Byte} {hdr : LSFHeader}
    (h : xdrLSFHeader bs = some (hdr, rest)) : bs.length = lsfHeaderLen + rest.length ∧
      ∀ more, xdrLSFHeader (bs ++ more) = some (hdr, rest ++ more) := by
  simp only [xdrLSFHeader, Option.bind_eq_bind, Option.bind_eq_some_iff, Prod.exists,
    Option.pure_def, Option.some.injEq, Prod.mk.injEq] at h
  obtain ⟨w1, b1, h1, w2, b2, h2, w3, b3, h3, w4, b4, h4, hhdr, rfl⟩ := h
  refine ⟨?_, fun more => ?_⟩
  · have := length_of_uInt h1
    have := length_of_uInt h2
    have := length_of_uInt h3
    have := length_of_uInt h4
    simp only [lsfHeaderLen]
    omega
  · simp [xdrLSFHeader, uInt_append h1, uInt_append h2, uInt_append h3, uInt_append h4, ← hhdr]

theorem exists_xdrLSFHeader {bs : List Byte} (h : lsfHeaderLen ≤ bs.length) :
    ∃ hdr rest, xdrLSFHeader bs = some (hdr, rest) := by
  simp only [lsfHeaderLen] at h
  obtain ⟨w1, b1, h1, hl1⟩ := exists_uInt (show 4 ≤ bs.length by omega)
  obtain ⟨w2, b2, h2, hl2⟩ := exists_uInt (show 4 ≤ b1.length by omega)
  obtain ⟨w3, b3, h3, hl3⟩ := exists_uInt (show 4 ≤ b2.length by omega)
  obtain ⟨w4, b4, h4, -⟩ := exists_uInt (show 4 ≤ b3.length by omega)
  simp [xdrLSFHeader, h1, h2, h3, h4]

/-- A whole message: a header and as many bytes as it says. -/
def IsMsg (m : List Byte) : Prop :=
  ∃ hdr rest, xdrLSFHeader m = some (hdr, rest) ∧ rest.length = hdr.length.toNat

theorem isMsg_prefixFree : Framing.PrefixFree IsMsg where
  ne_nil m hm heq := by
    obtain ⟨hdr, rest, h, -⟩ := hm
    rw [heq] at h
    cases h
  eq_of_begins m n hm hn hp := by
    obtain ⟨hdr, rest, hm, hml⟩ := hm
    obtain ⟨hdr', rest', hn, hnl⟩ := hn
    obtain ⟨more, rfl⟩ := hp
    rw [(xdrLSFHeader_eq_some hm).2 more] at hn
    simp only [Option.some.injEq, Prod.mk.injEq] at hn
    obtain ⟨rfl, rfl⟩ := hn
    have hmore : more = [] := by
      rw [← length_eq_zero_iff]
      rw [length_append] at hnl
      omega
    rw [hmore, append_nil]

/-! ## The buffer and the channel -/

/-- A buffer of the receive queue. `size` is the size of the memory behind it, `data` what the reads
have put there. -/
structure RecvBuf where
  data : List Byte
  pos : Int
  len : Int
  size : Nat
  deriving DecidableEq

def newBuf : RecvBuf := ⟨[], 0, 0, 0⟩

/-- The result of `read()`: some bytes, a failure that passes (`VALID_IO_ERR`), the end of the
stream with or without `errno` at `EINTR`, or another failure. -/
inductive ReadRes where
  | data (n : Nat)
  | temporary
  | eofIntr
  | eof
  | bad
  deriving DecidableEq

inductive ChanErr where
  | malloc | connReset | badHdr
  deriving DecidableEq

/-- What the caller learns about the channel. -/
inductive Notice where
  | none
  | ready
  | error (chanerr : ChanErr)
  deriving DecidableEq

/-- Which allocations succeed. -/
structure AllocEnv where
  newBuf : Bool
  header : Bool
  realloc : Bool
  deriving DecidableEq

/-- The receiving side of a connected channel. -/
structure RecvChan where
  recv : List RecvBuf
  notice : Notice
  /-- The bytes that have not been read yet. -/
  stream : List Byte
  /-- History: the bytes read. -/
  taken : List Byte
  /-- History: the contents of the buffers `chanDequeue_` has given out. -/
  delivered : List (List Byte)
  /-- History: `read()` was asked for a negative count or for bytes beyond the buffer. -/
  fault : Bool
  deriving DecidableEq

namespace RecvChan

/-- A new channel for a stream. -/
def init (stream : List Byte) : RecvChan := ⟨[], .none, stream, [], [], false⟩

/-- The length of a message as the `int` field `len` holds it. -/
def msgLen (hdr : LSFHeader) : Int := (BitVec.ofNat 32 (hdr.length.toNat + lsfHeaderLen)).toInt

/-- Grows the buffer of a header to the length of its message. `len` is set first. The size goes to
`realloc` as a `size_t`: a negative one cannot be had, and for `0` the memory is freed. -/
def grow (b : RecvBuf) (hdr : LSFHeader) (realloc : Bool) : RecvBuf × Notice :=
  if hdr.length = 0 then (b, .none)
  else
    let b := { b with len := msgLen hdr }
    if b.len < 0 then (b, .error .malloc)
    else if b.len = 0 then ({ b with data := [], size := 0 }, .error .malloc)
    else if realloc then
      ({ b with data := b.data.take b.len.toNat, size := b.len.toNat }, .none)
    else (b, .error .malloc)

/-- Takes in bytes that were read: a header that is complete decides about the length, and a buffer
that is full makes the channel ready. -/
def takeIn (b : RecvBuf) (bytes : List Byte) (realloc : Bool) : RecvBuf × Notice :=
  let b := { b with data := b.data ++ bytes, pos := b.pos + bytes.length }
  let r :=
    if b.len = (lsfHeaderLen : Int) ∧ b.pos = b.len then
      match xdrLSFHeader b.data with
      | none => (b, .error .badHdr)
      | some (hdr, _) => grow b hdr realloc
    else (b, .none)
  if r.2 = .none ∧ r.1.pos = r.1.len then (r.1, .ready) else r

/-- The body of `doread` from `read()` on, for the front buffer. -/
def readInto (c : RecvChan) (b : RecvBuf) (rest : List RecvBuf) (res : ReadRes) (realloc : Bool) :
    RecvChan :=
  if b.len - b.pos < 0 ∨ b.pos < 0 ∨ (b.size : Int) < b.len then
    { c with recv := b :: rest, fault := true }
  else
    match res with
    | .temporary | .eofIntr => { c with recv := b :: rest, notice := .none }
    | .eof | .bad => { c with recv := b :: rest, notice := .error .connReset }
    | .data n =>
      let bytes := c.stream.take (min n (b.len - b.pos).toNat)
      if bytes = [] then { c with recv := b :: rest, notice := .none }
      else
        let r := takeIn b bytes realloc
        { c with
          recv := r.1 :: rest
          notice := r.2
          stream := c.stream.drop bytes.length
          taken := c.taken ++ bytes }

/-- The receiving step both reads share. -/
def recvStep (c : RecvChan) (res : ReadRes) (env : AllocEnv) : RecvChan :=
  match (match c.recv with
    | [] => if env.newBuf then some (newBuf, []) else none
    | b :: rest => some (b, rest)) with
  | none => { c with notice := .error .malloc }
  | some (b, rest) =>
    if b.len = 0 then
      if env.header then
        readInto c ⟨[], 0, lsfHeaderLen, lsfHeaderLen⟩ rest res env.realloc
      else { c with recv := b :: rest, notice := .error .malloc }
    else if b.pos = b.len then { c with notice := .ready }
    else readInto c b rest res env.realloc

/-- The read of `chanSelect_`, which reports in the masks. -/
def doread (c : RecvChan) (res : ReadRes) (env : AllocEnv) : RecvChan := c.recvStep res env

/-- The read of `chanEpoll_`, which reports in `readyEvents`. -/
def doreadEpoll (c : RecvChan) (res : ReadRes) (env : AllocEnv) : RecvChan := c.recvStep res env

/-- Gives out the front buffer. -/
def chanDequeue (c : RecvChan) : RecvChan :=
  match c.recv with
  | [] => c
  | b :: rest => { c with recv := rest, notice := .none, delivered := c.delivered ++ [b.data] }

/-- What may happen to the receiving side. -/
inductive Event where
  | read (epoll : Bool) (res : ReadRes) (env : AllocEnv)
  | dequeue

def step (c : RecvChan) : Event → RecvChan
  | .read epoll res env => if epoll then c.doreadEpoll res env else c.doread res env
  | .dequeue => c.chanDequeue

/-! ## Soundness -/

/-- The bytes read that were not given out. -/
def held (c : RecvChan) : List Byte := (c.recv.map (·.data)).flatten

/-- The buffer is in order, no read leaves it, and the messages given out are the first ones of the
stream `full`; a message that was read in full is given out or the channel is ready with it. -/
structure Sound (full : List Byte) (c : RecvChan) : Prop where
  buffer : ∀ b ∈ c.recv, 0 ≤ b.pos ∧ b.pos ≤ b.len ∧ b.len = b.size
  no_fault : c.fault = false
  no_loss : full = c.delivered.flatten ++ c.held ++ c.stream
  messages : ∀ m ∈ c.delivered, IsMsg m
  in_order : ∀ ms rest, (∀ m ∈ ms, IsMsg m) → full = ms.flatten ++ rest →
    c.delivered <+: ms ∨ ms <+: c.delivered
  complete : ∀ ms, (∀ m ∈ ms, IsMsg m) → ms.flatten <+: c.taken →
    ms <+: c.delivered ∨ (c.notice = .ready ∧ ms = c.delivered ++ [c.held])

/-- How far the front buffer is: its header is being read, or its header has been read and it is as
long as the message. -/
inductive Filling : RecvBuf → Prop where
  | fresh : Filling newBuf
  | header (data : List Byte) (h : data.length < lsfHeaderLen) :
      Filling ⟨data, data.length, lsfHeaderLen, lsfHeaderLen⟩
  | body (data rest : List Byte) (hdr : LSFHeader) (h : xdrLSFHeader data = some (hdr, rest))
      (hle : rest.length ≤ hdr.length.toNat) :
      Filling ⟨data, data.length, (lsfHeaderLen + hdr.length.toNat : Nat),
        lsfHeaderLen + hdr.length.toNat⟩

variable {b : RecvBuf} {c : RecvChan} {full : List Byte}

theorem Filling.bounds (h : Filling b) :
    0 ≤ b.pos ∧ b.pos ≤ b.len ∧ b.len = b.size := by
  cases h with
  | fresh => decide
  | header data h =>
    exact ⟨Int.natCast_nonneg _, Int.ofNat_le.mpr h.le, rfl⟩
  | body data rest hdr h hle =>
    have hlen := (xdrLSFHeader_eq_some h).1
    exact ⟨Int.natCast_nonneg _, Int.ofNat_le.mpr (by omega), rfl⟩

/-- A buffer is full exactly when it holds a message, and it never holds more than one. -/
theorem Filling.isMsg (h : Filling b) (hlen : b.len ≠ 0) (hfull : b.pos = b.len) :
    IsMsg b.data := by
  cases h with
  | fresh => exact absurd rfl hlen
  | header data h =>
    exact absurd (Int.ofNat_inj.mp hfull) h.ne
  | body data rest hdr h hle =>
    have hl := (xdrLSFHeader_eq_some h).1
    have hf : data.length = lsfHeaderLen + hdr.length.toNat := Int.ofNat_inj.mp hfull
    exact ⟨hdr, rest, h, by omega⟩

theorem Filling.full_of_isMsg (h : Filling b) {m : List Byte} (hm : IsMsg m) (hp : m <+: b.data) :
    b.pos = b.len ∧ b.len ≠ 0 ∧ m = b.data := by
  obtain ⟨hdr', rest', hm, hml⟩ := hm
  have hm' := xdrLSFHeader_eq_some hm
  cases h with
  | fresh =>
    rw [newBuf, prefix_nil] at hp
    rw [hp] at hm
    cases hm
  | header data h =>
    have := hp.length_le
    simp only at this
    omega
  | body data rest hdr h hle =>
    obtain ⟨more, rfl⟩ : ∃ more, m ++ more = data := hp
    rw [hm'.2 more] at h
    simp only [Option.some.injEq, Prod.mk.injEq] at h
    obtain ⟨rfl, rfl⟩ := h
    rw [length_append] at hle
    obtain rfl : more = [] := length_eq_zero_iff.mp (by omega)
    refine ⟨?_, ?_, (append_nil m).symm⟩
    · simp only [append_nil]
      exact_mod_cast by omega
    · simp only [lsfHeaderLen]
      omega

theorem grow_filling {data : List Byte} {hdr : LSFHeader} (h : xdrLSFHeader data = some (hdr, []))
    (hsmall : hdr.length.toNat + lsfHeaderLen < 2 ^ 31) :
    grow ⟨data, data.length, lsfHeaderLen, lsfHeaderLen⟩ hdr true =
      (⟨data, data.length, (lsfHeaderLen + hdr.length.toNat : Nat),
        lsfHeaderLen + hdr.length.toNat⟩, .none) := by
  have hdata : data.length = lsfHeaderLen := (xdrLSFHeader_eq_some h).1
  rw [grow]
  by_cases h0 : hdr.length = 0
  · rw [if_pos h0]
    simp [h0]
  · have hmod : (BitVec.ofNat 32 (hdr.length.toNat + lsfHeaderLen)).toNat =
        lsfHeaderLen + hdr.length.toNat := by
      rw [BitVec.toNat_ofNat, Nat.mod_eq_of_lt (by omega), Nat.add_comm]
    have hlen : msgLen hdr = (lsfHeaderLen + hdr.length.toNat : Nat) := by
      rw [msgLen, BitVec.toInt_eq_toNat_of_lt (by omega), hmod]
    have hpos : (0 : Int) < (lsfHeaderLen + hdr.length.toNat : Nat) := by
      simp only [lsfHeaderLen]
      omega
    rw [if_neg h0]
    simp only [hlen, if_true]
    rw [if_neg (not_lt.mpr hpos.le), if_neg hpos.ne', Int.toNat_natCast,
      take_of_length_le (by omega)]

/-- Bytes that fit into the buffer are taken in, and the channel is ready when it is full. -/
theorem Filling.takeIn (h : Filling b) (hlen : b.len ≠ 0) (hopen : b.pos ≠ b.len)
    {bytes : List Byte} (hfit : (bytes.length : Int) ≤ b.len - b.pos)
    (hsmall : ∀ hdr rest, xdrLSFHeader (b.data ++ bytes) = some (hdr, rest) →
      hdr.length.toNat + lsfHeaderLen < 2 ^ 31) :
    ∃ b', RecvChan.takeIn b bytes true = (b', if b'.pos = b'.len then .ready else .none) ∧
      Filling b' ∧ b'.len ≠ 0 ∧ b'.data = b.data ++ bytes := by
  cases h with
  | fresh => exact absurd rfl hlen
  | header data h =>
    obtain ⟨data', hdata'⟩ : ∃ data', data ++ bytes = data' := ⟨_, rfl⟩
    have hl : data'.length = data.length + bytes.length := by
      rw [← hdata', length_append]
    have hpos : (data.length : Int) + bytes.length = data'.length := by
      rw [hl]
      rfl
    rw [hdata'] at hsmall
    simp only at hfit
    simp only [RecvChan.takeIn, hdata', hpos, true_and]
    by_cases hhdr : (data'.length : Int) = (lsfHeaderLen : Int)
    · -- The header is complete.
      have hcount : data'.length = lsfHeaderLen := Int.ofNat_inj.mp hhdr
      obtain ⟨hdr, rest, hx⟩ := exists_xdrLSFHeader hcount.ge
      have hxl := (xdrLSFHeader_eq_some hx).1
      obtain rfl : rest = [] := length_eq_zero_iff.mp (by omega)
      rw [if_pos hhdr, hx]
      simp only [grow_filling hx (hsmall hdr [] hx), true_and]
      refine ⟨_, ?_, .body data' [] hdr hx (Nat.zero_le _), ?_, rfl⟩
      · split_ifs <;> rfl
      · simp only [lsfHeaderLen]
        omega
    · rw [if_neg hhdr]
      have hlt : data'.length < lsfHeaderLen := by
        have : data'.length ≠ lsfHeaderLen := fun heq => hhdr (by rw [heq])
        omega
      refine ⟨_, ?_, .header data' hlt, ?_, rfl⟩
      · simp only [true_and]
        rw [if_neg hhdr, if_neg hhdr]
      · simp [lsfHeaderLen]
  | body data rest hdr h hle =>
    have hx := xdrLSFHeader_eq_some h
    have hne : hdr.length.toNat ≠ 0 := by
      intro h0
      apply hopen
      show (data.length : Int) = (lsfHeaderLen + hdr.length.toNat : Nat)
      rw [hx.1]
      exact_mod_cast by omega
    have hnot : ¬ (((lsfHeaderLen + hdr.length.toNat : Nat) : Int) = (lsfHeaderLen : Int) ∧
        (data.length : Int) + bytes.length = (lsfHeaderLen + hdr.length.toNat : Nat)) := by
      intro hc
      have := Int.ofNat_inj.mp hc.1
      omega
    simp only [RecvChan.takeIn]
    rw [if_neg hnot]
    have hlen' : data.length + bytes.length = (data ++ bytes).length :=
      (length_append ..).symm
    have hpos : (data.length : Int) + bytes.length = ((data ++ bytes).length : Nat) := by
      rw [← hlen']
      rfl
    simp only at hfit
    have hfit' : data.length + bytes.length ≤ lsfHeaderLen + hdr.length.toNat := by omega
    refine ⟨_, ?_, .body (data ++ bytes) (rest ++ bytes) hdr (hx.2 bytes) ?_, hlen, rfl⟩
    · simp only [true_and, hpos]
      split_ifs <;> rfl
    · rw [length_append]
      omega

/-- The state of the channel between two events. -/
structure Inv (full : List Byte) (c : RecvChan) : Prop where
  queue : c.recv = [] ∨ ∃ b, c.recv = [b] ∧ Filling b
  notice : c.notice = .ready ↔ ∃ b ∈ c.recv, b.len ≠ 0 ∧ b.pos = b.len
  taken : c.taken = c.delivered.flatten ++ c.held
  all : full = c.taken ++ c.stream
  messages : ∀ m ∈ c.delivered, IsMsg m
  no_fault : c.fault = false

theorem inv_init (full : List Byte) : (init full).Inv full := by
  refine ⟨.inl rfl, ?_, rfl, rfl, ?_, rfl⟩
  · simp [init]
  · simp [init]

/-- The bytes held are those of the one buffer. -/
theorem held_singleton (h : c.recv = [b]) : c.held = b.data := by
  simp [held, h]

theorem Inv.sound (h : c.Inv full) : c.Sound full where
  buffer b hb := by
    rcases h.queue with hq | ⟨b', hq, hf⟩
    · simp [hq] at hb
    · rw [hq, mem_singleton] at hb
      rw [hb]
      exact hf.bounds
  no_fault := h.no_fault
  no_loss := by rw [← h.taken, ← h.all]
  messages := h.messages
  in_order ms rest hms heq := by
    have hcut : c.delivered.flatten ++ (c.held ++ c.stream) = ms.flatten ++ rest := by
      rw [← heq, h.all, h.taken, append_assoc]
    exact isMsg_prefixFree.cut_unique h.messages hms hcut
  complete ms hms hp := by
    obtain ⟨more, hmore⟩ := hp
    rw [h.taken] at hmore
    rcases isMsg_prefixFree.cut_unique hms h.messages hmore with hle | ⟨ms', rfl⟩
    · exact .inl hle
    · -- The messages beyond those given out are in the buffer.
      rw [flatten_append, append_assoc, append_cancel_left_eq] at hmore
      cases ms' with
      | nil => exact .inl (by simp)
      | cons m ms' =>
        have hm : IsMsg m := hms m (by simp)
        rw [flatten_cons, append_assoc] at hmore
        rcases h.queue with hq | ⟨b, hq, hf⟩
        · have hnil : m ++ (ms'.flatten ++ more) = [] := by
            rw [hmore, held, hq]
            rfl
          exact absurd (append_eq_nil_iff.mp hnil).1 (isMsg_prefixFree.ne_nil m hm)
        · rw [held_singleton hq] at hmore ⊢
          obtain ⟨hfull, hlen, rfl⟩ := hf.full_of_isMsg hm ⟨_, hmore⟩
          have hnil : ms'.flatten = [] := by
            have := append_right_eq_self.mp hmore
            exact (append_eq_nil_iff.mp this).1
          have hms' : ms' = [] := eq_nil_iff_forall_not_mem.mpr fun m' hm' =>
            isMsg_prefixFree.ne_nil m' (hms m' (by simp [hm']))
              (flatten_eq_nil_iff.mp hnil m' hm')
          refine .inr ⟨?_, by rw [hms']⟩
          rw [h.notice]
          exact ⟨b, by simp [hq], hlen, hfull⟩

/-! ## Steps -/

/-- The headers of the stream's messages give lengths that fit with the header into an `int`. -/
def SmallHeaders (full : List Byte) : Prop :=
  ∀ (ms : List (List Byte)) (rest : List Byte), (∀ m ∈ ms, IsMsg m) → full = ms.flatten ++ rest →
    ∀ hdr tail, xdrLSFHeader rest = some (hdr, tail) → hdr.length.toNat + lsfHeaderLen < 2 ^ 31

/-- The queue becomes a buffer that holds what it held. -/
theorem Inv.keep (h : c.Inv full) (hf : Filling b) (hheld : c.held = b.data) {nt : Notice}
    (hnt : nt = .ready ↔ b.len ≠ 0 ∧ b.pos = b.len) :
    Inv full { c with recv := [b], notice := nt } := by
  refine ⟨.inr ⟨b, rfl, hf⟩, by simpa using hnt, ?_, h.all, h.messages, h.no_fault⟩
  rw [h.taken, hheld, held_singleton rfl]

/-- A buffer is read into: it stands for the queue, which holds what it holds. -/
theorem Inv.readInto (h : c.Inv full) (hsmall : SmallHeaders full) (hf : Filling b)
    (hlen : b.len ≠ 0) (hopen : b.pos ≠ b.len) (hheld : c.held = b.data) (res : ReadRes) :
    (c.readInto b [] res true).Inv full := by
  have hb := hf.bounds
  have hidle : ∀ nt, nt ≠ .ready → Inv full { c with recv := [b], notice := nt } :=
    fun nt hnt => h.keep hf hheld (by simp [hnt, hopen])
  have hok : ¬ (b.len - b.pos < 0 ∨ b.pos < 0 ∨ (b.size : Int) < b.len) := by omega
  rw [RecvChan.readInto.eq_def, if_neg hok]
  cases res with
  | temporary => exact hidle _ (by decide)
  | eofIntr => exact hidle _ (by decide)
  | eof => exact hidle _ (by simp)
  | bad => exact hidle _ (by simp)
  | data n =>
    simp only
    generalize hbytes : c.stream.take (min n (b.len - b.pos).toNat) = bytes
    have hfit : (bytes.length : Int) ≤ b.len - b.pos := by
      have : bytes.length ≤ (b.len - b.pos).toNat := by
        rw [← hbytes, length_take]
        omega
      omega
    have hsplit : bytes ++ c.stream.drop bytes.length = c.stream := by
      have hp : bytes <+: c.stream := hbytes ▸ take_prefix _ _
      conv_lhs => rw [prefix_iff_eq_take.mp hp]
      rw [length_take, Nat.min_eq_left hp.length_le, take_append_drop]
    split_ifs with hnil
    · exact hidle _ (by decide)
    · have hcut :
          full = c.delivered.flatten ++ (b.data ++ bytes ++ c.stream.drop bytes.length) := by
        rw [h.all, h.taken, hheld, append_assoc, append_assoc, hsplit]
      obtain ⟨b', htake, hf', hlen', hdata'⟩ := hf.takeIn hlen hopen hfit (fun hdr rest hx =>
        hsmall _ _ h.messages hcut hdr _ ((xdrLSFHeader_eq_some hx).2 _))
      rw [htake]
      refine ⟨.inr ⟨b', rfl, hf'⟩, ?_, ?_, ?_, h.messages, h.no_fault⟩
      · simp [hlen']
      · show c.taken ++ bytes = c.delivered.flatten ++ _
        rw [held_singleton rfl, hdata', h.taken, hheld, append_assoc]
      · show full = c.taken ++ bytes ++ c.stream.drop bytes.length
        rw [append_assoc, hsplit, h.all]

theorem Inv.recvStep (h : c.Inv full) (hsmall : SmallHeaders full) (res : ReadRes) {env : AllocEnv}
    (henv : env.realloc = true) :
    (c.recvStep res env).Inv full := by
  have hheader : Filling ⟨[], 0, lsfHeaderLen, lsfHeaderLen⟩ := .header [] (by decide)
  rw [RecvChan.recvStep, henv]
  rcases h.queue with hq | ⟨b, hq, hf⟩
  · simp only [hq]
    have hheld : c.held = [] := by simp [held, hq]
    by_cases hnew : env.newBuf = true
    · simp only [if_pos hnew, newBuf, if_true]
      split_ifs with hmem
      · exact h.readInto hsmall hheader (by decide) (by decide) hheld res
      · exact h.keep .fresh hheld (by simp [newBuf])
    · simp only [if_neg hnew]
      refine ⟨.inl rfl, ?_, ?_, h.all, h.messages, h.no_fault⟩
      · simp
      · rw [h.taken, hheld]
        rfl
  · simp only [hq]
    split_ifs with hzero hmem hfull
    · have hdata : b.data = [] := by
        cases hf with
        | fresh => rfl
        | header data h => exact absurd hzero (by simp [lsfHeaderLen])
        | body data rest hdr =>
          simp only [lsfHeaderLen] at hzero
          omega
      exact h.readInto hsmall hheader (by decide) (by decide) (by rw [held_singleton hq, hdata]) res
    · exact h.keep hf (held_singleton hq) (by simp [hzero])
    · exact hq ▸ h.keep hf (held_singleton hq) (by simp [hzero, hfull])
    · exact h.readInto hsmall hf hzero hfull (held_singleton hq) res

theorem Inv.dequeue (h : c.Inv full) (hready : c.notice = .ready) :
    c.chanDequeue.Inv full := by
  rw [h.notice] at hready
  rcases h.queue with hq | ⟨b, hq, hf⟩
  · simp [hq] at hready
  · rw [hq] at hready
    obtain ⟨b', hb', hlen, hfull⟩ := hready
    rw [mem_singleton] at hb'
    subst hb'
    have hmsg := hf.isMsg hlen hfull
    simp only [chanDequeue, hq]
    refine ⟨.inl rfl, ?_, ?_, h.all, ?_, h.no_fault⟩
    · simp
    · show c.taken = (c.delivered ++ [b'.data]).flatten ++ _
      rw [h.taken, held_singleton hq]
      simp [held]
    · exact forall_mem_append.mpr ⟨h.messages, forall_mem_singleton.mpr hmsg⟩

/-! ## Runs -/

/-- A buffer is taken only after the channel was reported ready, and the buffer of a header can be
grown. -/
def Ok (c : RecvChan) : Event → Prop
  | .read _ _ env => env.realloc = true
  | .dequeue => c.notice = .ready

instance (c : RecvChan) : ∀ e : Event, Decidable (c.Ok e)
  | .read _ _ env => inferInstanceAs (Decidable (env.realloc = true))
  | .dequeue => inferInstanceAs (Decidable (c.notice = .ready))

theorem Inv.step (hsmall : SmallHeaders full) (h : c.Inv full) {e : Event} (hok : c.Ok e) :
    (c.step e).Inv full := by
  cases e with
  | read epoll res env =>
    simp only [RecvChan.step]
    split_ifs
    · exact h.recvStep hsmall res hok
    · exact h.recvStep hsmall res hok
  | dequeue => exact h.dequeue hok

/-- **A stream with small headers is received message by message**, however `read()` splits it. -/
theorem sound_of_small {full : List Byte} (hsmall : SmallHeaders full) {es : List Event}
    (h : Run.Along step Ok (init full) es) (n : Nat) :
    (Run.run step (init full) (es.take n)).Sound full :=
  (Run.inv_take (fun _ _ hok h => h.step hsmall hok) (inv_init full) h n).sound

/-- Messages that are not longer than an `int` says make a stream with small headers. -/
theorem smallHeaders_flatten {ms : List (List Byte)} (hms : ∀ m ∈ ms, IsMsg m)
    (hlt : ∀ m ∈ ms, m.length < 2 ^ 31) : SmallHeaders ms.flatten := by
  intro ms' rest hms' heq hdr tail hx
  obtain ⟨ms, rfl⟩ := isMsg_prefixFree.begins hms' hms ⟨rest, heq.symm⟩
  rw [flatten_append, append_cancel_left_eq] at heq
  subst heq
  cases ms with
  | nil => cases hx
  | cons m ms =>
    obtain ⟨hdr', body, hm, hbody⟩ := hms m (by simp)
    obtain ⟨hlen, hmore⟩ := xdrLSFHeader_eq_some hm
    rw [flatten_cons, hmore, Option.some.injEq, Prod.mk.injEq] at hx
    rw [← hx.1, ← hbody, add_comm, ← hlen]
    exact hlt m (by simp)

/-- Messages whose headers give the lengths 1 and 2. -/
def oneByte : List Byte := [0, 0, 0, 7, 0, 0, 0, 1, 0, 30, 0, 0, 0, 0, 0, 0, 65]

def twoBytes : List Byte := [0, 0, 0, 8, 0, 0, 0, 2, 0, 30, 0, 0, 0, 0, 0, 0, 66, 67]

theorem isMsg_bytes : ∀ m ∈ [oneByte, twoBytes], IsMsg m :=
  forall_mem_cons.mpr ⟨⟨⟨0, 7, 1, 30, 0, 0⟩, [65], by decide, by decide⟩,
    forall_mem_singleton.mpr ⟨⟨0, 8, 2, 30, 0, 0⟩, [66, 67], by decide, by decide⟩⟩

theorem smallHeaders_bytes : SmallHeaders (oneByte ++ twoBytes) :=
  smallHeaders_flatten isMsg_bytes (by decide)

/-- The messages arrive in pieces. -/
def pieces : List Event :=
  let env : AllocEnv := ⟨true, true, true⟩
  [.read true (.data 10) env, .read true .temporary env, .read false (.data 100) env,
    .read true (.data 100) env, .dequeue, .read true (.data 3) env, .read false (.data 100) env,
    .read true (.data 1) env, .read true (.data 100) env, .dequeue]

theorem pieces_sound :
    Run.Along step Ok (init (oneByte ++ twoBytes)) pieces ∧
      (Run.run step (init (oneByte ++ twoBytes)) pieces).delivered = [oneByte, twoBytes] ∧
      ∀ n, (Run.run step (init (oneByte ++ twoBytes)) (pieces.take n)).Sound
        (oneByte ++ twoBytes) :=
  have h : Run.Along step Ok (init (oneByte ++ twoBytes)) pieces := by decide
  ⟨h, by decide, sound_of_small smallHeaders_bytes h⟩

/-- With the length 2³² - 8 the buffer shrinks to 8 bytes while its position is at 16: the next
`read()` is asked for -8 bytes. -/
theorem huge_length_overruns :
    let header : List Byte := [0, 0, 0, 7, 255, 255, 255, 248, 0, 30, 0, 0, 0, 0, 0, 0]
    let env : AllocEnv := ⟨true, true, true⟩
    Run.Along step Ok (init header) [.read true (.data 16) env, .read true .temporary env] ∧
    (Run.run step (init header) [.read true (.data 16) env]).recv =
      [⟨header.take 8, 16, 8, 8⟩] ∧
    (Run.run step (init header) [.read true (.data 16) env, .read true .temporary env]).fault =
      true := by
  decide

/-! ## A sender and a receiver -/

/-- **From end to end**: what was delivered of the bytes a sender has written is the beginning of
what it has queued, and all of it once nothing is left on the way. -/
theorem end_to_end (es : List (SendChan.Event Byte)) (fs : List Event)
    (hes : Run.Along SendChan.step SendChan.NoTemporary .init es) :
    let s := Run.run SendChan.step .init es
    let c := Run.run step (init s.written) fs
    (∀ m ∈ s.queued, IsMsg m) → SmallHeaders s.written → Run.Along step Ok (init s.written) fs →
      c.delivered <+: s.queued ∧
        (s.send = [] → c.stream = [] → c.recv = [] → c.delivered = s.queued) := by
  intro s c hmsg hsmall hfs
  have hs : s.Inv := Run.inv_run (fun _ _ hok h => h.step hok) SendChan.inv_init hes
  have hc : c.Inv s.written := Run.inv_run (fun _ _ hok h => h.step hsmall hok) (inv_init _) hfs
  have hall := hc.sound.no_loss
  rw [append_assoc] at hall
  have hle : c.delivered.flatten <+: s.queued.flatten :=
    (hall ▸ prefix_append _ _ : _ <+: s.written).trans hs.sound.in_order
  have hbegins := isMsg_prefixFree.begins hc.messages hmsg hle
  refine ⟨hbegins, fun hsend hstream hrecv => ?_⟩
  have hwritten : s.written = s.queued.flatten := by
    simp [hs.written, hs.queued, SendChan.frontWritten, hsend]
  rw [hwritten, hstream, held, hrecv] at hall
  have heq : s.queued.flatten = c.delivered.flatten := by simpa using hall
  exact hbegins.eq_of_length_le
    (isMsg_prefixFree.begins hmsg hc.messages (heq ▸ prefix_refl _)).length_le

theorem two_messages_arrive :
    (Run.run step (init (oneByte ++ twoBytes)) pieces).delivered = [oneByte, twoBytes] :=
  (end_to_end [.enqueue oneByte, .write true (.wrote 5), .enqueue twoBytes,
      .write false (.wrote 12), .write true (.wrote 11), .write true (.wrote 7)] pieces (by decide)
    isMsg_bytes smallHeaders_bytes (by decide)).2 rfl rfl rfl

end RecvChan

end Volclava
