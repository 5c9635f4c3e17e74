import IoEngine.Lib.Blocks
import IoEngine.IoTypes

/-!
# The Circular Buffer

This module embeds `cbuffer.c` and `cbuffer.h`, the buffer in which posted handlers wait. The
buffer is a block of bytes with two pointers into it, which are offsets here; reading and
writing outside of the block fails.

A run of calls yields a list of events: what was pushed, what was found at the front and popped,
and which pushes were refused. The buffer refines a queue if these are events of a queue.

## Main results

* `CbufInv.run_step`: **one call** keeps the buffer in order, and does to its contents what the
  queue does.
* `cbuf_refines_fifo`: **the buffer refines a queue**, over every run.
* `CbufInv.push_abs`: the service's model of its buffer, `CBuffer`, is an abstraction of this one.
-/

open Blocks

namespace IoEngine

/-! ### The buffer -/

/-- `cbuffer`. The block is between `data` and `data_limit`; `begin` and `end` are offsets from
`data`, and 0 without a block. -/
structure CbufMem where
  data : Option (List UInt8)
  nelems : ℕ
  objSize : ℕ
  beginPos : ℕ
  endPos : ℕ

namespace CbufMem

/-- The bytes of the block. -/
def bytes (cbuf : CbufMem) : List UInt8 := cbuf.data.getD []

/-- `begin` or `end` moved on by one object: at `data_limit` it goes back to `data`. -/
def advance (cbuf : CbufMem) (pos : ℕ) : ℕ :=
  if pos + cbuf.objSize = cbuf.bytes.length then 0 else pos + cbuf.objSize

/-- The object at a position. -/
def load (cbuf : CbufMem) (pos : ℕ) : Option (List UInt8) :=
  if pos + cbuf.objSize ≤ cbuf.bytes.length then some ((cbuf.bytes.drop pos).take cbuf.objSize)
  else none

/-- An object is assigned to a position. -/
def store (cbuf : CbufMem) (pos : ℕ) (x : List UInt8) : Option CbufMem :=
  if pos + x.length ≤ cbuf.bytes.length then
    some { cbuf with data := some (overwrite cbuf.bytes pos x) }
  else none

/-- The objects from a position on, with wrap-around. -/
def readFrom (cbuf : CbufMem) : ℕ → ℕ → List (List UInt8)
  | 0, _ => []
  | k + 1, pos =>
      (cbuf.bytes.drop pos).take cbuf.objSize :: cbuf.readFrom k (cbuf.advance pos)

/-- **The contents**: `nelems` objects from `begin` on. -/
def contents (cbuf : CbufMem) : List (List UInt8) := cbuf.readFrom cbuf.nelems cbuf.beginPos

end CbufMem

/-- `cbuf_init`. -/
def cbufInit (objSize : ℕ) : CbufMem := ⟨none, 0, objSize, 0, 0⟩

/-- The object at `cbuf_front`. -/
def cbufFront (cbuf : CbufMem) : Option (List UInt8) := cbuf.load cbuf.beginPos

/-- `cbuf_pop`. -/
def cbufPop (cbuf : CbufMem) : CbufMem :=
  { cbuf with nelems := cbuf.nelems - 1, beginPos := cbuf.advance cbuf.beginPos }

/-- `cbuf_clear`. -/
def cbufClear (cbuf : CbufMem) : CbufMem :=
  { cbuf with nelems := 0, beginPos := 0, endPos := 0 }

/-- `memmove` of `size` bytes at `src` to the position `pos` of a new block. -/
def moveTo (newData : List UInt8) (pos : ℕ) (data : List UInt8) (src size : ℕ) :
    Option (List UInt8) :=
  if pos + size ≤ newData.length ∧ src + size ≤ data.length then
    some (overwrite newData pos ((data.drop src).take size))
  else none

/-- The resize of `cbuf_push`, to a new block with the bytes `fill` in it: what is from `begin`
to the end of the old block comes first, and then what is before `end`. -/
def cbufResize (cbuf : CbufMem) (fill : ℕ → UInt8) : Option CbufMem := do
  let newCapacity := max cbuf.objSize (2 * cbuf.bytes.length)
  let newData := (List.range newCapacity).map fill
  let fstCopySize := cbuf.bytes.length - cbuf.beginPos
  let scdCopySize := cbuf.endPos
  let newData ← moveTo newData 0 cbuf.bytes cbuf.beginPos fstCopySize
  let newData ← moveTo newData fstCopySize cbuf.bytes 0 scdCopySize
  some { cbuf with
    data := some newData
    beginPos := 0
    endPos := fstCopySize + scdCopySize }

/-- The end of `cbuf_push`: the slot at `end` is returned. -/
def cbufTake (cbuf : CbufMem) : Option ℕ × CbufMem :=
  (some cbuf.endPos,
    { cbuf with nelems := cbuf.nelems + 1, endPos := cbuf.advance cbuf.endPos })

/-- `cbuf_push`: the slot, or `NULL`. A new block is `none` when `malloc` fails, and else
anything. -/
def cbufPush (cbuf : CbufMem) (malloc : Option (ℕ → UInt8)) : Option (Option ℕ × CbufMem) :=
  if cbuf.data.isNone ∨ (cbuf.beginPos = cbuf.endPos ∧ cbuf.nelems ≠ 0) then
    match malloc with
    | none => some (none, cbuf)
    | some fill => (cbufResize cbuf fill).map cbufTake
  else some (cbufTake cbuf)

/-! ### Runs -/

/-- An object of `n` bytes. -/
abbrev CbufObj (n : ℕ) : Type := { x : List UInt8 // x.length = n }

/-- A use of the buffer; an object is assigned to the slot that `cbuf_push` returns. -/
inductive CbufOp (n : ℕ)
  | push (x : CbufObj n) (malloc : Option (ℕ → UInt8))
  | pop
  | clear

/-- What is seen of a queue. -/
inductive QueueEvent (α : Type)
  | pushed (x : α)
  | refused
  | popped (x : α)
  | cleared

/-- **The queue**: the events that it can have, and what they leave. -/
def QueueEvent.apply {α : Type} [DecidableEq α] (q : List α) : QueueEvent α → Option (List α)
  | .pushed x => some (q ++ [x])
  | .refused => some q
  | .popped x => if q.head? = some x then some q.tail else none
  | .cleared => some []

/-- A list of events. -/
def fifoRun {α : Type} [DecidableEq α] (q : List α) : List (QueueEvent α) → Option (List α)
  | [] => some q
  | ev :: evs => (ev.apply q).bind fun q => fifoRun q evs

/-- Use the buffer. There is a `cbuf_pop` only of a buffer that is not empty, and the front is
looked at before. -/
def CbufOp.run {n : ℕ} (cbuf : CbufMem) :
    CbufOp n → Option (QueueEvent (List UInt8) × CbufMem)
  | .push x malloc => do
      match ← cbufPush cbuf malloc with
      | (none, cbuf) => some (.refused, cbuf)
      | (some slot, cbuf) =>
          let cbuf ← cbuf.store slot x
          some (.pushed x, cbuf)
  | .pop =>
      if cbuf.nelems = 0 then none
      else do
        let x ← cbufFront cbuf
        some (.popped x, cbufPop cbuf)
  | .clear => some (.cleared, cbufClear cbuf)

/-- Use the buffer again and again. -/
def cbufRun {n : ℕ} (cbuf : CbufMem) :
    List (CbufOp n) → Option (List (QueueEvent (List UInt8)) × CbufMem)
  | [] => some ([], cbuf)
  | op :: ops => do
      let (ev, cbuf) ← op.run cbuf
      let (evs, cbuf) ← cbufRun cbuf ops
      some (ev :: evs, cbuf)

/-! ### A buffer in order -/

/-- **The layout** of a buffer with a block: a ring of `cap` objects, of which the ones from the
object `b` on are in use, and `end` is behind them. -/
structure Layout (n : ℕ) (cbuf : CbufMem) (data : List UInt8) (cap b : ℕ) : Prop where
  block : cbuf.data = some data
  size : cbuf.objSize = n
  length : data.length = cap * n
  start : b < cap
  begin : cbuf.beginPos = b * n
  room : cbuf.nelems ≤ cap
  stop : cbuf.endPos = wrap cap (b + cbuf.nelems) * n

/-- A buffer is new, or has a block in order. -/
def CbufInv (n : ℕ) (cbuf : CbufMem) : Prop :=
  cbuf = cbufInit n ∨ ∃ data cap b, Layout n cbuf data cap b

section

variable {n : ℕ} {cbuf : CbufMem} {data : List UInt8} {cap b : ℕ}

/-- The bytes of the buffer are the data of its layout. -/
theorem Layout.bytes (h : Layout n cbuf data cap b) : cbuf.bytes = data := by
  rw [CbufMem.bytes, h.block, Option.getD_some]

/-- Each slot lies inside the memory. -/
theorem Layout.slot_le (h : Layout n cbuf data cap b) {i : ℕ} (hi : i < cap) :
    (i + 1) * n ≤ cbuf.bytes.length := by
  rw [h.bytes, h.length]
  exact Nat.mul_le_mul_right n hi

/-- Moving on is going to the next object of the ring. -/
theorem Layout.advance (h : Layout n cbuf data cap b) (hn : 0 < n) {i : ℕ} (hi : i < cap) :
    cbuf.advance (i * n) = wrap cap (i + 1) * n := by
  have hlast : i * n + n = cap * n ↔ i + 1 = cap := by
    rw [← Nat.succ_mul, Nat.mul_left_inj (Nat.pos_iff_ne_zero.mp hn)]
  rw [CbufMem.advance, h.bytes, h.length, h.size]
  unfold wrap
  by_cases hend : i + 1 = cap
  · rw [if_pos (hlast.mpr hend), if_neg (by omega), hend, Nat.sub_self, Nat.zero_mul]
  · rw [if_neg fun hc => hend (hlast.mp hc), if_pos (by omega), Nat.succ_mul]

/-- Reading from a position on is reading the ring. -/
theorem Layout.readFrom (h : Layout n cbuf data cap b) (hn : 0 < n) {k i : ℕ} (hi : i < cap)
    (hk : k ≤ cap) : cbuf.readFrom k (i * n) = ring data n cap i k := by
  induction k generalizing i with
  | zero => rfl
  | succ k ih =>
      rw [CbufMem.readFrom, h.advance hn hi, ih (wrap_lt (by omega)) (by omega), h.bytes, h.size,
        ring_cons _ hi (by omega)]
      rfl

/-- **The contents** are the objects of the ring that are in use. -/
theorem Layout.contents (h : Layout n cbuf data cap b) (hn : 0 < n) :
    cbuf.contents = ring data n cap b cbuf.nelems := by
  rw [CbufMem.contents, h.begin, h.readFrom hn h.start h.room]

/-- The number of objects that the block has room for. -/
def CbufMem.capacity (cbuf : CbufMem) : ℕ := cbuf.bytes.length / cbuf.objSize

/-- The capacity is the number of the slots. -/
theorem Layout.capacity (h : Layout n cbuf data cap b) (hn : 0 < n) : cbuf.capacity = cap := by
  rw [CbufMem.capacity, h.bytes, h.length, h.size, Nat.mul_div_cancel _ hn]

/-- **`begin` and `end` meet** in a buffer with objects when it is full. -/
theorem Layout.full_iff (h : Layout n cbuf data cap b) (hn : 0 < n) :
    (cbuf.beginPos = cbuf.endPos ∧ cbuf.nelems ≠ 0) ↔ cbuf.nelems = cap := by
  have hstart := h.start
  have hroom := h.room
  rw [h.begin, h.stop, Nat.mul_left_inj (Nat.pos_iff_ne_zero.mp hn)]
  unfold wrap
  constructor
  · rintro ⟨hmeet, hne⟩
    split at hmeet <;> omega
  · intro hfull
    rw [if_neg (by omega)]
    omega

/-! ### The calls -/

/-- **Taking a slot** where there is one, and assigning an object to it. -/
theorem Layout.take (h : Layout n cbuf data cap b) (hn : 0 < n) (hroom : cbuf.nelems < cap)
    {x : List UInt8} (hx : x.length = n) :
    ∃ cbuf', (cbufTake cbuf).2.store cbuf.endPos x = some cbuf' ∧
      Layout n cbuf' (overwrite data cbuf.endPos x) cap b ∧
      cbuf'.contents = cbuf.contents ++ [x] := by
  have hb := h.start
  have hlt : wrap cap (b + cbuf.nelems) < cap := wrap_lt (by omega)
  have hslot := h.slot_le hlt
  have hlen : cbuf.endPos + x.length ≤ cbuf.bytes.length := by
    rw [h.stop, hx, ← Nat.succ_mul]
    exact hslot
  rw [h.bytes] at hslot
  have hl : Layout n { (cbufTake cbuf).2 with data := some (overwrite data cbuf.endPos x) }
      (overwrite data cbuf.endPos x) cap b := by
    refine ⟨rfl, h.size, ?_, hb, h.begin, hroom, ?_⟩
    · rw [length_overwrite (by rwa [h.bytes] at hlen), h.length]
    · show cbuf.advance cbuf.endPos = _
      rw [h.stop, h.advance hn hlt, wrap_wrap_add (by omega)]
      rfl
  refine ⟨_, ?_, hl, ?_⟩
  · rw [CbufMem.store, show (cbufTake cbuf).2.bytes = cbuf.bytes from rfl, if_pos hlen, h.bytes]
  · rw [hl.contents hn, h.contents hn]
    show ring _ n cap b (cbuf.nelems + 1) = _
    rw [ring_succ, h.stop, block_overwrite_self hslot hx]
    refine congrArg (· ++ [x]) (ring_congr fun i hi => ?_)
    refine block_overwrite_of_ne hslot hx fun heq => ?_
    have := wrap_add_inj (by omega) (by omega) heq
    omega

/-- **The resize** of a full buffer puts its contents, in order, in a block of twice the size. -/
theorem Layout.resize (h : Layout n cbuf data cap b) (hn : 0 < n) (hfull : cbuf.nelems = cap)
    (fill : ℕ → UInt8) :
    ∃ cbuf' data', cbufResize cbuf fill = some cbuf' ∧ Layout n cbuf' data' (2 * cap) 0 ∧
      cbuf'.nelems = cap ∧ cbuf'.contents = cbuf.contents := by
  have hb := h.start
  have hbn : b * n ≤ cap * n := Nat.mul_le_mul_right n (Nat.le_of_lt hb)
  have hcap : n ≤ cap * n := Nat.le_mul_of_pos_left n (by omega)
  have hend : cbuf.endPos = b * n := by
    rw [h.stop, hfull, wrap, if_neg (by omega), Nat.add_sub_cancel]
  have hlen : (data.drop (b * n)).length = cap * n - b * n := by rw [List.length_drop, h.length]
  obtain ⟨new, hnew, hN⟩ : ∃ new, new = (List.range (max n (2 * (cap * n)))).map fill ∧
      new.length = 2 * (cap * n) := by
    refine ⟨_, rfl, ?_⟩
    rw [List.length_map, List.length_range]
    omega
  -- the two copies, one after the other
  have hfst : moveTo new 0 data (b * n) (cap * n - b * n) =
      some (data.drop (b * n) ++ new.drop (cap * n - b * n)) := by
    rw [moveTo, if_pos ⟨by omega, by rw [h.length]; omega⟩,
      List.take_of_length_le (Nat.le_of_eq hlen), overwrite_zero, hlen]
  have hscd : moveTo (data.drop (b * n) ++ new.drop (cap * n - b * n)) (cap * n - b * n) data 0
      (b * n) = some (data.drop (b * n) ++
        (data.take (b * n) ++ (new.drop (cap * n - b * n)).drop (b * n))) := by
    have htake : (data.take (b * n)).length = b * n := by
      rw [List.length_take, h.length]
      omega
    rw [moveTo, if_pos ⟨by simp only [List.length_append, List.length_drop, h.length]; omega,
      by rw [h.length]; omega⟩, List.drop_zero, ← hlen, overwrite_append, hlen, htake]
  let joined := data.drop (b * n) ++
    (data.take (b * n) ++ (new.drop (cap * n - b * n)).drop (b * n))
  have hl : Layout n
      { cbuf with data := some joined, beginPos := 0, endPos := cap * n - b * n + b * n } joined
      (2 * cap) 0 := by
    refine ⟨rfl, h.size, ?_, by omega, by rw [Nat.zero_mul], ?_, ?_⟩
    · simp only [joined, List.length_append, List.length_drop, List.length_take, h.length, hN]
      rw [Nat.mul_assoc]
      omega
    · show cbuf.nelems ≤ 2 * cap
      omega
    · show cap * n - b * n + b * n = wrap (2 * cap) (0 + cbuf.nelems) * n
      rw [wrap_of_lt (by omega), hfull, Nat.zero_add, Nat.sub_add_cancel hbn]
  refine ⟨_, joined, ?_, hl, hfull, ?_⟩
  · rw [cbufResize, h.bytes, h.length, h.size, ← hnew, h.begin, hend]
    simp only [bind, hfst, hscd, Option.bind_some]
    rfl
  · rw [hl.contents hn, h.contents hn]
    show ring joined n (2 * cap) 0 cbuf.nelems = _
    refine ring_congr fun i hi => ?_
    rw [Nat.zero_add, wrap_of_lt (by omega), block_rotate _ h.length hb (by omega)]

/-- **The first block** has room for one object. -/
theorem cbufResize_init (n : ℕ) (fill : ℕ → UInt8) :
    ∃ cbuf' data', cbufResize (cbufInit n) fill = some cbuf' ∧ Layout n cbuf' data' 1 0 ∧
      cbuf'.nelems = 0 := by
  refine ⟨{ cbufInit n with data := some ((List.range n).map fill) }, (List.range n).map fill, ?_,
    ⟨rfl, rfl, by simp, by omega, by simp [cbufInit], by simp [cbufInit], by simp [cbufInit, wrap]⟩,
    rfl⟩
  simp [cbufResize, cbufInit, CbufMem.bytes, moveTo, overwrite]

/-- **Popping** the front. -/
theorem Layout.pop (h : Layout n cbuf data cap b) (hn : 0 < n) (hne : cbuf.nelems ≠ 0) :
    ∃ x, cbufFront cbuf = some x ∧ Layout n (cbufPop cbuf) data cap (wrap cap (b + 1)) ∧
      cbuf.contents = x :: (cbufPop cbuf).contents := by
  have hb := h.start
  have hroom := h.room
  have hslot := h.slot_le hb
  have hl : Layout n (cbufPop cbuf) data cap (wrap cap (b + 1)) := by
    refine ⟨h.block, h.size, h.length, wrap_lt (by omega), ?_, ?_, ?_⟩
    · rw [cbufPop, h.begin, h.advance hn hb]
    · show cbuf.nelems - 1 ≤ cap
      omega
    · show cbuf.endPos = _
      rw [h.stop, show (cbufPop cbuf).nelems = cbuf.nelems - 1 from rfl,
        wrap_wrap_add (by omega)]
      congr 2
      omega
  refine ⟨Blocks.block data n b, ?_, hl, ?_⟩
  · rw [cbufFront, CbufMem.load, h.begin, h.size, if_pos (by rwa [← Nat.succ_mul]), h.bytes,
      Blocks.block]
  · obtain ⟨k, hk⟩ := Nat.exists_eq_succ_of_ne_zero hne
    rw [h.contents hn, hl.contents hn, show (cbufPop cbuf).nelems = cbuf.nelems - 1 from rfl, hk,
      Nat.succ_sub_one]
    exact ring_cons data hb (by omega)

/-- A new buffer is in order. -/
theorem cbufInv_init (n : ℕ) : CbufInv n (cbufInit n) := .inl rfl

theorem contents_init (n : ℕ) : (cbufInit n).contents = [] := rfl

/-- **`nelems` is the length** of the contents. -/
theorem CbufInv.nelems_eq (h : CbufInv n cbuf) (hn : 0 < n) :
    cbuf.nelems = cbuf.contents.length := by
  rcases h with rfl | ⟨data, cap, b, h⟩
  · rfl
  · rw [h.contents hn, length_ring]

/-- **What `cbuf_push` does**: it refuses when the buffer is full and `malloc` fails, and else
takes a slot of a block that has room and the same contents. -/
theorem CbufInv.push_ready (h : CbufInv n cbuf) (hn : 0 < n) (malloc : Option (ℕ → UInt8)) :
    (malloc = none ∧ cbuf.nelems = cbuf.capacity ∧ cbufPush cbuf malloc = some (none, cbuf)) ∨
    ∃ cbuf₁ data cap b, cbufPush cbuf malloc = some (cbufTake cbuf₁) ∧
      Layout n cbuf₁ data cap b ∧ cbuf₁.nelems < cap ∧ cbuf₁.contents = cbuf.contents ∧
      (cbuf.nelems = cbuf.capacity → malloc ≠ none) ∧
      cap = if cbuf.nelems = cbuf.capacity then max 1 (2 * cbuf.capacity) else cbuf.capacity := by
  rcases h with rfl | ⟨data, cap, b, h⟩
  · have hcap : (cbufInit n).capacity = 0 := Nat.zero_div n
    cases malloc with
    | none => exact .inl ⟨rfl, hcap.symm, rfl⟩
    | some fill =>
        obtain ⟨cbuf₁, data, hrun, hl, hzero⟩ := cbufResize_init n fill
        refine .inr ⟨cbuf₁, data, 1, 0, ?_, hl, by omega, ?_, by simp, ?_⟩
        · rw [cbufPush, if_pos (.inl rfl), hrun]
          rfl
        · rw [hl.contents hn, hzero]
          rfl
        · rw [hcap]
          rfl
  · have hcap := h.capacity hn
    by_cases hfull : cbuf.nelems = cap
    · have hmeet := (h.full_iff hn).mpr hfull
      cases malloc with
      | none => exact .inl ⟨rfl, by rw [hcap, hfull], by rw [cbufPush, if_pos (.inr hmeet)]⟩
      | some fill =>
          obtain ⟨cbuf₁, data', hrun, hl, hsame, hcont⟩ := h.resize hn hfull fill
          have hb := h.start
          refine .inr ⟨cbuf₁, data', 2 * cap, 0, ?_, hl, by omega, hcont, by simp, ?_⟩
          · rw [cbufPush, if_pos (.inr hmeet), hrun]
            rfl
          · rw [hcap, if_pos hfull]
            omega
    · have hroom := h.room
      refine .inr ⟨cbuf, data, cap, b, ?_, h, by omega, rfl, fun hc => absurd (hcap ▸ hc) hfull,
        by rw [hcap, if_neg hfull]⟩
      rw [cbufPush.eq_def, if_neg]
      rintro (hnull | hmeet)
      · rw [h.block] at hnull
        cases hnull
      · exact hfull ((h.full_iff hn).mp hmeet)

/-- **Pushing an object**: it is refused and nothing changes, or it comes to the end. -/
theorem CbufInv.push (h : CbufInv n cbuf) (hn : 0 < n) (x : CbufObj n)
    (malloc : Option (ℕ → UInt8)) :
    (malloc = none ∧ cbuf.nelems = cbuf.capacity ∧
      (CbufOp.push x malloc).run cbuf = some (.refused, cbuf)) ∨
    ∃ cbuf', (CbufOp.push x malloc).run cbuf = some (.pushed x, cbuf') ∧ CbufInv n cbuf' ∧
      cbuf'.contents = cbuf.contents ++ [x.1] ∧ (cbuf.nelems = cbuf.capacity → malloc ≠ none) ∧
      cbuf'.capacity =
        if cbuf.nelems = cbuf.capacity then max 1 (2 * cbuf.capacity) else cbuf.capacity := by
  rcases h.push_ready hn malloc with
    ⟨hm, hfull, hpush⟩ | ⟨cbuf₁, data, cap, b, hpush, hl, hroom, hc, hfull, hcap⟩
  · refine .inl ⟨hm, hfull, ?_⟩
    simp only [CbufOp.run, hpush, bind, Option.bind_some]
  · obtain ⟨cbuf', hstore, hl', hc'⟩ := hl.take hn hroom x.2
    refine .inr ⟨cbuf', ?_, .inr ⟨_, cap, b, hl'⟩, by rw [hc', hc], hfull,
      by rw [hl'.capacity hn, hcap]⟩
    simp only [CbufOp.run, hpush, bind, Option.bind_some, cbufTake] at hstore ⊢
    rw [hstore]
    rfl

/-- **Popping** a buffer that is not empty. -/
theorem CbufInv.pop (h : CbufInv n cbuf) (hn : 0 < n) (hne : cbuf.nelems ≠ 0) :
    ∃ x, cbufFront cbuf = some x ∧ CbufInv n (cbufPop cbuf) ∧
      cbuf.contents = x :: (cbufPop cbuf).contents := by
  rcases h with rfl | ⟨data, cap, b, h⟩
  · exact absurd rfl hne
  · obtain ⟨x, hx, hl, hc⟩ := h.pop hn hne
    exact ⟨x, hx, .inr ⟨data, cap, _, hl⟩, hc⟩

/-- `cbuf_clear` keeps the buffer in order. -/
theorem CbufInv.clear (h : CbufInv n cbuf) : CbufInv n (cbufClear cbuf) := by
  rcases h with rfl | ⟨data, cap, b, h⟩
  · exact .inl rfl
  · have hb := h.start
    refine .inr ⟨data, cap, 0, h.block, h.size, h.length, by omega, (Nat.zero_mul n).symm,
      Nat.zero_le _, ?_⟩
    show 0 = wrap cap (0 + 0) * n
    rw [wrap_of_lt (by omega), Nat.zero_mul]

/-! ### Refinement -/

/-- **One use** of the buffer does to its contents what the queue does. -/
theorem CbufInv.run_step (h : CbufInv n cbuf) (hn : 0 < n) {op : CbufOp n}
    {ev : QueueEvent (List UInt8)} {cbuf' : CbufMem} (hrun : op.run cbuf = some (ev, cbuf')) :
    CbufInv n cbuf' ∧ ev.apply cbuf.contents = some cbuf'.contents := by
  cases op with
  | push x malloc =>
      rcases h.push hn x malloc with ⟨-, -, hrun'⟩ | ⟨cbuf₁, hrun', hinv, hc, -⟩
      all_goals obtain ⟨rfl, rfl⟩ := Prod.mk.inj (Option.some.inj (hrun'.symm.trans hrun))
      · exact ⟨h, rfl⟩
      · exact ⟨hinv, congrArg some hc.symm⟩
  | pop =>
      rw [CbufOp.run] at hrun
      split at hrun
      next => cases hrun
      next hne =>
        obtain ⟨x, hx, hinv, hc⟩ := h.pop hn hne
        simp only [hx, bind, Option.bind_some, Option.some.injEq, Prod.mk.injEq] at hrun
        obtain ⟨rfl, rfl⟩ := hrun
        refine ⟨hinv, ?_⟩
        rw [hc, QueueEvent.apply, List.head?_cons, if_pos rfl, List.tail_cons]
  | clear =>
      obtain ⟨rfl, rfl⟩ := Prod.mk.inj (Option.some.inj hrun)
      exact ⟨h.clear, rfl⟩

/-- **A run** does to the contents what the queue does. -/
theorem CbufInv.run (h : CbufInv n cbuf) (hn : 0 < n) {ops : List (CbufOp n)}
    {evs : List (QueueEvent (List UInt8))} {cbuf' : CbufMem}
    (hrun : cbufRun cbuf ops = some (evs, cbuf')) :
    CbufInv n cbuf' ∧ fifoRun cbuf.contents evs = some cbuf'.contents := by
  induction ops generalizing cbuf evs with
  | nil =>
      obtain ⟨rfl, rfl⟩ := Prod.mk.inj (Option.some.inj hrun)
      exact ⟨h, rfl⟩
  | cons op ops ih =>
      obtain ⟨⟨ev, cbuf₁⟩, hstep, hrun⟩ := Option.bind_eq_some_iff.mp hrun
      obtain ⟨⟨evs₁, cbuf₂⟩, hrest, hrun⟩ := Option.bind_eq_some_iff.mp hrun
      obtain ⟨rfl, rfl⟩ := Prod.mk.inj (Option.some.inj hrun)
      obtain ⟨hinv₁, happly⟩ := h.run_step hn hstep
      obtain ⟨hinv, hfifo⟩ := ih hinv₁ hrest
      exact ⟨hinv, by rw [fifoRun, happly, Option.bind_some, hfifo]⟩

/-- `cbuf_front` finds the oldest element. -/
theorem CbufInv.front (h : CbufInv n cbuf) (hn : 0 < n) {x : List UInt8} {q : List (List UInt8)}
    (hx : cbuf.contents = x :: q) : cbufFront cbuf = some x := by
  have hne : cbuf.nelems ≠ 0 := by
    rw [h.nelems_eq hn, hx]
    simp
  obtain ⟨y, hy, -, hc⟩ := h.pop hn hne
  rw [hy, (List.cons.inj (hc.symm.trans hx)).1]

/-- **The front stays** where it is over any number of pushes. -/
theorem CbufInv.front_stays (h : CbufInv n cbuf) (hn : 0 < n) {x : List UInt8}
    {q : List (List UInt8)} (hx : cbuf.contents = x :: q) {ops : List (CbufOp n)}
    (hops : ∀ op ∈ ops, ∃ y malloc, op = .push y malloc)
    {evs : List (QueueEvent (List UInt8))} {cbuf' : CbufMem}
    (hrun : cbufRun cbuf ops = some (evs, cbuf')) : cbufFront cbuf' = some x := by
  induction ops generalizing cbuf q evs with
  | nil =>
      obtain ⟨-, rfl⟩ := Prod.mk.inj (Option.some.inj hrun)
      exact h.front hn hx
  | cons op ops ih =>
      obtain ⟨⟨ev, cbuf₁⟩, hstep, hrun⟩ := Option.bind_eq_some_iff.mp hrun
      obtain ⟨⟨evs₁, cbuf₂⟩, hrest, hrun⟩ := Option.bind_eq_some_iff.mp hrun
      obtain ⟨rfl, rfl⟩ := Prod.mk.inj (Option.some.inj hrun)
      obtain ⟨y, malloc, rfl⟩ := hops op List.mem_cons_self
      have hops' : ∀ op ∈ ops, ∃ y malloc, op = .push y malloc := fun op hop =>
        hops op (List.mem_cons_of_mem _ hop)
      rcases h.push hn y malloc with ⟨-, -, hrun'⟩ | ⟨cbuf₃, hrun', hinv, hc, -⟩
      all_goals obtain ⟨-, rfl⟩ := Prod.mk.inj (Option.some.inj (hrun'.symm.trans hstep))
      · exact ih h hx hops' hrest
      · exact ih (q := q ++ [y.1]) hinv (by rw [hc, hx]; rfl) hops' hrest

/-- **The buffer refines a queue.** For every positive object size and every run of pushes, pops
and clears of a new buffer, whatever `malloc` does: the events of the run are events of a queue,
which is then what is read from `begin` on with wrap-around, and `nelems` is its length. Every
use of the buffer returns, but for a pop of an empty one. A push appends, or is refused and
changes nothing; and what is at the front stays there until it is popped. -/
theorem cbuf_refines_fifo (hn : 0 < n) {ops : List (CbufOp n)}
    {evs : List (QueueEvent (List UInt8))}
    (h : cbufRun (cbufInit n) ops = some (evs, cbuf)) :
    fifoRun [] evs = some cbuf.contents ∧ cbuf.nelems = cbuf.contents.length ∧
    (∀ op : CbufOp n, (op.run cbuf).isSome = true ∨ (op = .pop ∧ cbuf.contents = [])) ∧
    (∀ (x : CbufObj n) malloc,
      (malloc = none ∧ (CbufOp.push x malloc).run cbuf = some (.refused, cbuf)) ∨
      ∃ cbuf', (CbufOp.push x malloc).run cbuf = some (.pushed x, cbuf') ∧
        cbuf'.contents = cbuf.contents ++ [x.1]) ∧
    ∀ x q, cbuf.contents = x :: q → cbufFront cbuf = some x ∧
      ∀ (ops' : List (CbufOp n)) evs' cbuf', (∀ op ∈ ops', ∃ y malloc, op = .push y malloc) →
        cbufRun cbuf ops' = some (evs', cbuf') → cbufFront cbuf' = some x := by
  obtain ⟨hinv, hfifo⟩ := (cbufInv_init n).run hn h
  have hlen := hinv.nelems_eq hn
  have hpush : ∀ (x : CbufObj n) malloc,
      (malloc = none ∧ (CbufOp.push x malloc).run cbuf = some (.refused, cbuf)) ∨
      ∃ cbuf', (CbufOp.push x malloc).run cbuf = some (.pushed x, cbuf') ∧
        cbuf'.contents = cbuf.contents ++ [x.1] := by
    intro x malloc
    rcases hinv.push hn x malloc with ⟨hm, -, hrun⟩ | ⟨cbuf', hrun, -, hc, -⟩
    · exact .inl ⟨hm, hrun⟩
    · exact .inr ⟨cbuf', hrun, hc⟩
  refine ⟨hfifo, hlen, fun op => ?_, hpush, fun x q hx => ?_⟩
  · cases op with
    | push x malloc =>
        rcases hpush x malloc with ⟨-, hrun⟩ | ⟨cbuf', hrun, -⟩
        all_goals exact .inl (by rw [hrun]; rfl)
    | pop =>
        by_cases hne : cbuf.nelems = 0
        · exact .inr ⟨rfl, List.length_eq_zero_iff.mp (hlen ▸ hne)⟩
        · obtain ⟨x, hx, -⟩ := hinv.pop hn hne
          refine .inl ?_
          rw [CbufOp.run, if_neg hne, hx]
          rfl
    | clear => exact .inl rfl
  · exact ⟨hinv.front hn hx, fun _ _ _ hops' hrun => hinv.front_stays hn hx hops' hrun⟩

end

/-- Four objects of one byte are pushed and the first one is popped, so that the block that the
last push finds full begins in its middle. -/
def wrappedOps : List (CbufOp 1) :=
  [.push ⟨[1], rfl⟩ (some fun _ => 0), .push ⟨[2], rfl⟩ (some fun _ => 0), .pop,
    .push ⟨[3], rfl⟩ none, .push ⟨[4], rfl⟩ none, .push ⟨[4], rfl⟩ (some fun _ => 0)]

/-- The contents are then in the order of the pushes. -/
theorem cbuf_refines_fifo_wrapped :
    ∃ evs cbuf, cbufRun (cbufInit 1) wrappedOps = some (evs, cbuf) ∧
      fifoRun [] evs = some [[2], [3], [4]] ∧ cbuf.nelems = 3 := by
  have hcontents : (cbufRun (cbufInit 1) wrappedOps).map (fun r => r.2.contents) =
      some [[2], [3], [4]] := by decide
  obtain ⟨⟨evs, cbuf⟩, hrun, hc⟩ := Option.map_eq_some_iff.mp hcontents
  obtain ⟨hfifo, hlen, -⟩ := cbuf_refines_fifo (by decide) hrun
  exact ⟨evs, cbuf, hrun, by rw [hfifo, hc], by rw [hlen, hc]; rfl⟩

/-! ### The buffer of the service -/

/-- The buffer as a queue with a capacity. -/
def CbufMem.abs (cbuf : CbufMem) : CBuffer (List UInt8) := ⟨cbuf.contents, cbuf.capacity⟩

section

variable {n : ℕ} {cbuf : CbufMem}

/-- A new buffer abstracts to a new one. -/
theorem abs_init (n : ℕ) : (cbufInit n).abs = CBuffer.init := by
  rw [CbufMem.abs, contents_init, CbufMem.capacity]
  exact congrArg (CBuffer.mk []) (Nat.zero_div n)

/-- **A push of the service** is a push of the buffer. -/
theorem CbufInv.push_abs (h : CbufInv n cbuf) (hn : 0 < n) (x : CbufObj n) (al : Alloc)
    (fill : ℕ → UInt8) :
    ((CbufOp.push x (if al.ok al.next then some fill else none)).run cbuf).map (fun r => r.2.abs) =
      some ((cbuf.abs.push x.1 al).1.getD cbuf.abs) := by
  have hfull : cbuf.abs.elems.length = cbuf.abs.capacity ↔ cbuf.nelems = cbuf.capacity := by
    rw [h.nelems_eq hn]
    rfl
  rcases h.push hn x (if al.ok al.next then some fill else none) with
    ⟨hm, hf, hrun⟩ | ⟨cbuf', hrun, -, hc, hm, hcap⟩
  · have hno : al.ok al.next = false := by simpa using hm
    rw [hrun, CBuffer.push, if_pos (hfull.mpr hf), Alloc.malloc, if_neg (by simp [hno])]
    rfl
  · rw [hrun, CBuffer.push, Option.map_some, CbufMem.abs, hc, hcap]
    by_cases hf : cbuf.nelems = cbuf.capacity
    · have hok : al.ok al.next = true := by simpa using hm hf
      rw [if_pos (hfull.mpr hf), if_pos hf, Alloc.malloc, if_pos hok]
      rfl
    · rw [if_neg fun hc => hf (hfull.mp hc), if_neg hf]
      rfl

/-- A pop of the service is a pop of the buffer. -/
theorem CbufInv.pop_abs (h : CbufInv n cbuf) (hn : 0 < n) (hne : cbuf.nelems ≠ 0) :
    (cbufPop cbuf).abs = cbuf.abs.pop := by
  obtain ⟨x, -, -, hc⟩ := h.pop hn hne
  rw [CBuffer.pop, CbufMem.abs, CbufMem.abs, hc, List.tail_cons]
  rfl

end

end IoEngine
