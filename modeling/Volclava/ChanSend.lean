import Volclava.Lib.Run

/-!
# The send queue of a channel

`chanEnqueue_` puts a buffer at the end of the queue of a channel. `dowrite` and `dowriteEpoll`
(`lib.channel.c`) hand the rest of the front buffer to `write()` and add its result to `pos`. They
return early on a failure that is not `EAGAIN`, `EWOULDBLOCK` or `EINTR`; on one of these three the
result `-1` is added as well, so the position goes back by one byte.

- `SendChan.Sound`: what was written is a prefix of what was queued, and buffers are released whole.
- `sound_of_no_temporary`: this holds in every run without a temporary failure.
- `byte_sent_twice`: a temporary failure after a short write sends a byte twice, and one at the
  beginning of a buffer makes `pos` negative.
-/

namespace Volclava

open List

variable {β : Type}

/-- A buffer of the send queue; `len` is the length of `data`. -/
structure SendBuf (β : Type) where
  data : List β
  pos : Int
  deriving DecidableEq

/-- The result of `write()`: some bytes, a failure that passes (`VALID_IO_ERR`), or another one. -/
inductive WriteRes where
  | wrote (n : Nat)
  | temporary
  | bad
  deriving DecidableEq

/-- The sending side of a connected channel. -/
structure SendChan (β : Type) where
  send : List (SendBuf β)
  /-- `chanerr` is set. -/
  failed : Bool
  /-- History: the messages queued so far. -/
  queued : List (List β)
  /-- History: the messages whose buffers were released. -/
  released : List (List β)
  /-- History: the bytes `write()` took. -/
  written : List β
  /-- History: `write()` was given bytes from before the buffer. -/
  fault : Bool
  deriving DecidableEq

namespace SendChan

/-- Nothing queued, nothing written. -/
def init : SendChan β := ⟨[], false, [], [], [], false⟩

/-- Queues a message. -/
def chanEnqueue (c : SendChan β) (msg : List β) : SendChan β :=
  { c with send := c.send ++ [⟨msg, 0⟩], queued := c.queued ++ [msg] }

/-- Adds the result of `write()` to the position of the front buffer and releases the buffer when
the position has reached its end. -/
def advance (c : SendChan β) (b : SendBuf β) (rest : List (SendBuf β)) (cc : Int) : SendChan β :=
  if b.pos + cc = b.data.length then
    { c with send := rest, released := c.released ++ [b.data] }
  else { c with send := ⟨b.data, b.pos + cc⟩ :: rest }

/-- Writes the rest of the front buffer. `write()` takes no more bytes than it is given. -/
def writeFront (c : SendChan β) (res : WriteRes) : SendChan β :=
  match c.send with
  | [] => c
  | b :: rest =>
    if b.pos < 0 then { c with fault := true }
    else
      match res with
      | .bad => { c with failed := true }
      | .temporary => c.advance b rest (-1)
      | .wrote n =>
        let bytes := (b.data.drop b.pos.toNat).take n
        { c with written := c.written ++ bytes }.advance b rest bytes.length

/-- The write of `chanSelect_`. -/
def dowrite (c : SendChan β) (res : WriteRes) : SendChan β := c.writeFront res

/-- The write of `chanEpoll_`, which also stops listening for room when the queue is empty. -/
def dowriteEpoll (c : SendChan β) (res : WriteRes) : SendChan β := c.writeFront res

/-- What may happen to the sending side. -/
inductive Event (β : Type) where
  | enqueue (msg : List β)
  | write (epoll : Bool) (res : WriteRes)

def step (c : SendChan β) : Event β → SendChan β
  | .enqueue msg => c.chanEnqueue msg
  | .write epoll res => if epoll then c.dowriteEpoll res else c.dowrite res

/-! ## Soundness -/

/-- What was written is a prefix of what was queued, the front buffer is at a position inside it,
and all bytes of the released buffers were written. -/
structure Sound (c : SendChan β) : Prop where
  in_order : c.written <+: c.queued.flatten
  front : ∀ b ∈ c.send.head?, 0 ≤ b.pos ∧ b.pos ≤ b.data.length
  released : c.released.flatten <+: c.written
  no_fault : c.fault = false

/-- The bytes of the front buffer that were written. -/
def frontWritten (c : SendChan β) : List β :=
  match c.send with
  | [] => []
  | b :: _ => b.data.take b.pos.toNat

/-- What holds between the queue and its history. -/
structure Inv (c : SendChan β) : Prop where
  queued : c.queued = c.released ++ c.send.map (·.data)
  written : c.written = c.released.flatten ++ c.frontWritten
  front : ∀ b ∈ c.send.head?, 0 ≤ b.pos ∧ b.pos ≤ b.data.length
  later : ∀ b ∈ c.send.tail, b.pos = 0
  no_fault : c.fault = false

theorem inv_init : (init : SendChan β).Inv := by
  refine ⟨rfl, rfl, ?_, ?_, rfl⟩
  · intro b hb
    cases hb
  · intro b hb
    cases hb

variable {c : SendChan β}

theorem Inv.sound (h : c.Inv) : c.Sound where
  in_order := by
    rw [h.written, h.queued, flatten_append, prefix_append_right_inj, frontWritten]
    split
    · exact nil_prefix
    next b rest hsend =>
      rw [hsend, map_cons, flatten_cons]
      refine .trans ?_ (prefix_append _ _)
      exact take_prefix _ _
  front := h.front
  released := by
    rw [h.written]
    exact prefix_append _ _
  no_fault := h.no_fault

theorem Inv.enqueue (h : c.Inv) (msg : List β) : (c.chanEnqueue msg).Inv := by
  cases hsend : c.send with
  | nil =>
    refine ⟨?_, ?_, ?_, ?_, h.no_fault⟩
    · simp [chanEnqueue, h.queued]
    · simp [chanEnqueue, h.written, hsend, frontWritten]
    · simp [chanEnqueue, hsend]
    · simp [chanEnqueue, hsend]
  | cons b rest =>
    have hfront := h.front
    have hlater := h.later
    rw [hsend] at hfront hlater
    refine ⟨?_, ?_, ?_, ?_, h.no_fault⟩
    · simp [chanEnqueue, h.queued]
    · simp [chanEnqueue, h.written, hsend, frontWritten]
    · simpa [chanEnqueue, hsend] using hfront
    · intro b' hb'
      simp only [chanEnqueue, hsend, cons_append, tail_cons, mem_append,
        mem_singleton] at hb'
      rcases hb' with hb' | rfl
      · exact hlater b' hb'
      · rfl

/-- The position moves over the bytes that were taken. -/
theorem Inv.wrote (h : c.Inv) {b : SendBuf β} {rest : List (SendBuf β)} (hsend : c.send = b :: rest)
    (n : Nat) :
    ({ c with written := c.written ++ (b.data.drop b.pos.toNat).take n }.advance b rest
      ((b.data.drop b.pos.toNat).take n).length).Inv := by
  obtain ⟨hpos, hle⟩ := h.front b (by rw [hsend]; rfl)
  have hlater : ∀ b' ∈ rest, b'.pos = 0 := by
    have := h.later
    rwa [hsend] at this
  obtain ⟨p, hp⟩ : ∃ p : Nat, b.pos = p := ⟨b.pos.toNat, (Int.toNat_of_nonneg hpos).symm⟩
  obtain ⟨k, hk⟩ : ∃ k, ((b.data.drop p).take n).length = k := ⟨_, rfl⟩
  have hkn : (b.data.drop p).take n = (b.data.drop p).take k := by
    rw [← hk, length_take]
    exact (take_eq_take_min ..)
  have hkle : p + k ≤ b.data.length := by
    rw [← hk, length_take, length_drop]
    omega
  -- The bytes before the position and those taken now.
  have htake : b.data.take p ++ (b.data.drop p).take n = b.data.take (p + k) := by
    rw [hkn, take_add]
  have hwritten : c.written = c.released.flatten ++ b.data.take p := by
    rw [h.written, frontWritten, hsend]
    simp only [hp, Int.toNat_natCast]
  have hqueued : c.queued = c.released ++ b.data :: rest.map (·.data) := by
    rw [h.queued, hsend]
    rfl
  rw [hp, Int.toNat_natCast, hk, advance, hp]
  split_ifs with hend
  · have hfull : p + k = b.data.length := by exact_mod_cast hend
    refine ⟨by simp [hqueued], ?_, ?_, ?_, h.no_fault⟩
    · show c.written ++ _ = (c.released ++ [b.data]).flatten ++ _
      rw [hwritten, append_assoc, htake, hfull, take_length, frontWritten]
      cases rest with
      | nil => simp
      | cons b' rest => simp [hlater b' (mem_cons_self ..)]
    · intro b' hb'
      have hz := hlater b' (mem_of_mem_head? hb')
      rw [hz]
      exact ⟨le_rfl, Int.natCast_nonneg _⟩
    · exact fun b' hb' => hlater b' (mem_of_mem_tail hb')
  · refine ⟨hqueued, ?_, ?_, hlater, h.no_fault⟩
    · show c.written ++ _ = c.released.flatten ++ b.data.take ((p : Int) + (k : Int)).toNat
      rw [hwritten, append_assoc, htake, ← Nat.cast_add, Int.toNat_natCast]
    · intro b' hb'
      obtain rfl := Option.some.inj hb'
      have hle' : (p : Int) + k ≤ b.data.length := by exact_mod_cast hkle
      exact ⟨by positivity, hle'⟩

theorem Inv.writeFront (h : c.Inv) {res : WriteRes} (hres : c.send ≠ [] → res ≠ .temporary) :
    (c.writeFront res).Inv := by
  rw [SendChan.writeFront]
  split
  · exact h
  next b rest hsend =>
    obtain ⟨hpos, -⟩ := h.front b (by rw [hsend]; rfl)
    rw [if_neg (not_lt.mpr hpos)]
    cases res with
    | bad => exact { h with }
    | temporary => exact absurd rfl (hres (by simp [hsend]))
    | wrote n => exact h.wrote hsend n

/-! ## Runs -/

/-- `write()` does not fail for the time being while a buffer is queued. -/
def NoTemporary (c : SendChan β) : Event β → Prop
  | .enqueue _ => True
  | .write _ res => c.send ≠ [] → res ≠ .temporary

instance [DecidableEq β] (c : SendChan β) : ∀ e : Event β, Decidable (c.NoTemporary e)
  | .enqueue _ => inferInstanceAs (Decidable True)
  | .write _ res => inferInstanceAs (Decidable (c.send ≠ [] → res ≠ .temporary))

theorem Inv.step (h : c.Inv) {e : Event β} (hok : c.NoTemporary e) :
    (c.step e).Inv := by
  cases e with
  | enqueue msg => exact h.enqueue msg
  | write epoll res =>
    simp only [SendChan.step]
    split_ifs
    · exact h.writeFront hok
    · exact h.writeFront hok

/-- **Without temporary failures the queue is sent in order.** -/
theorem sound_of_no_temporary {es : List (Event β)} (h : Run.Along step NoTemporary init es)
    (n : Nat) : (Run.run step init (es.take n)).Sound :=
  (Run.inv_take (fun _ _ hok h => h.step hok) inv_init h n).sound

/-- Two messages are queued and sent in three writes, one of which fails. -/
def shortWrites : List (Event Nat) :=
  [.enqueue [1, 2, 3], .write false (.wrote 2), .enqueue [4], .write true .bad,
    .write true (.wrote 5), .write false (.wrote 1)]

theorem short_writes_sound :
    Run.Along step NoTemporary init shortWrites ∧
      ∀ n, (Run.run step init (shortWrites.take n)).Sound :=
  have h : Run.Along step NoTemporary init shortWrites := by decide
  ⟨h, sound_of_no_temporary h⟩

/-- A temporary failure after a short write sends a byte twice. One at the beginning of a buffer
makes its position negative, and the next `write()` is given a byte from before the buffer. -/
theorem byte_sent_twice :
    (Run.run step init [.enqueue [1, 2, 3], .write false (.wrote 2), .write false .temporary,
      .write false (.wrote 2)]).written = [1, 2, 2, 3] ∧
    (Run.run step init [.enqueue [1, 2, 3], .write true .temporary]).send = [⟨[1, 2, 3], -1⟩] ∧
    (Run.run step init [.enqueue [1, 2, 3], .write true .temporary, .write true (.wrote 1)]).fault =
      true := by
  decide

end SendChan

end Volclava
