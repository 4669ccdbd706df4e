import Foundation.Spec.RingBuffer

/-! Whatever is written to the ring and read from it, the bytes between its head and its tail are
the frames of the payloads not read yet, as long as none of them is empty. -/

namespace Foundation.RingBuffer

theorem u32_of_lt {n : ℕ} (h : n < 2 ^ 32) : u32 n = n := Nat.mod_eq_of_lt h

/-! ### Accesses inside the buffer -/

theorem bind_ok {α β : Type} {x : Buffered α} {f : α → Buffered β} {m m' : Region} {a : α}
    (h : x m = .ok a m') :
    (x >>= f) m = f a m' := by
  simp only [bind, EStateM.bind, h]

variable {off len : ℕ} {bs : List UInt8}

theorem readAt_ok {m : Region} (h : off + len ≤ m.size) (h32 : off + len < 2 ^ 32) :
    readAt off len m = .ok (m.read off len) m := by
  have hvalid : validateRegion off len m.size = .ok () := by
    rw [validateRegion, if_neg (by omega), if_neg (by omega)]
  rw [readAt, bind_ok (x := get) (a := m) rfl, hvalid]
  rfl

theorem writeAt_ok {m : Region} {off : ℕ} (h : off + bs.length ≤ m.size)
    (h32 : off + bs.length < 2 ^ 32) : writeAt off bs m = .ok () (m.write off bs) := by
  have hvalid : validateRegion off bs.length m.size = .ok () := by
    rw [validateRegion, if_neg (by omega), if_neg (by omega)]
  have hlen : ¬2 ^ 32 ≤ bs.length := by omega
  rw [writeAt, bind_ok (x := get) (a := m) rfl, if_neg hlen, hvalid]
  rfl

/-! ### Positions around the ring -/

/-- Where a position lies past another, both taken around a ring. -/
theorem lap_sub {n j : ℕ} (h : j < n) (t : ℕ) : ((t + j) % n + n - t % n) % n = j := by
  have ht : t % n < n := Nat.mod_lt _ (by omega)
  rw [Nat.add_mod, Nat.mod_eq_of_lt h]
  rcases Nat.lt_or_ge (t % n + j) n with hlt | hge
  · rw [Nat.mod_eq_of_lt hlt, show t % n + j + n - t % n = j + n by omega, Nat.add_mod_right,
      Nat.mod_eq_of_lt h]
  · have hwrap : (t % n + j) % n = t % n + j - n := by
      rw [Nat.mod_eq_sub_mod hge, Nat.mod_eq_of_lt (by omega)]
    rw [hwrap, show t % n + j - n + n - t % n = j by omega, Nat.mod_eq_of_lt h]

namespace RuntimeRingBuffer

variable (r : RuntimeRingBuffer) {m : Region}

def Fits (m : Region) : Prop := r.baseOffset + (r.capacity + headerBytes) ≤ m.size

def head (m : Region) : ℕ := m.word r.baseOffset 4

def tail (m : Region) : ℕ := m.word (r.baseOffset + 4) 4

def cell (m : Region) (i : ℕ) : UInt8 := m.byte (r.baseOffset + headerBytes + i % r.capacity)

/-- The `len` bytes from position `t` on, around the ring. -/
def content (m : Region) (t len : ℕ) : List UInt8 := (List.range len).map fun k => r.cell m (t + k)

def writeRaw (off : ℕ) (bs : List UInt8) (m : Region) : Region :=
  let first := min bs.length (r.capacity - off)
  let m' := m.write (r.baseOffset + headerBytes + off) (bs.take first)
  if 0 < bs.length - first then m'.write (r.baseOffset + headerBytes) (bs.drop first) else m'

theorem capacity_pos : 0 < r.capacity := Nat.zero_lt_of_lt r.large

theorem dataBase_eq : r.dataBase = r.baseOffset + headerBytes :=
  u32_of_lt (by have := r.addressable; omega)

theorem cell_add_capacity (m : Region) (i : ℕ) : r.cell m (i + r.capacity) = r.cell m i := by
  rw [cell, Nat.add_mod_right, cell]

@[simp] theorem length_content (m : Region) (t len : ℕ) : (r.content m t len).length = len := by
  simp [content]

theorem content_add (m : Region) (t a b : ℕ) :
    r.content m t (a + b) = r.content m t a ++ r.content m (t + a) b := by
  simp only [content, List.range_add, List.map_append, List.map_map, Function.comp_def,
    Nat.add_assoc]

theorem content_add_capacity (m : Region) (t len : ℕ) :
    r.content m (t + r.capacity) len = r.content m t len := by
  refine List.map_congr_left fun k _ => ?_
  rw [Nat.add_right_comm, cell_add_capacity]

theorem content_mod (m : Region) (t len : ℕ) :
    r.content m (t % r.capacity) len = r.content m t len := by
  refine List.map_congr_left fun k _ => ?_
  rw [cell, cell, Nat.mod_add_mod]

theorem content_congr {m m' : Region} (h : ∀ i, r.cell m' i = r.cell m i) (t len : ℕ) :
    r.content m' t len = r.content m t len :=
  List.map_congr_left fun _ _ => h _

theorem read_eq_content (h : off + len ≤ r.capacity) :
    m.read (r.baseOffset + headerBytes + off) len = r.content m off len := by
  rw [Region.read, content, List.range'_eq_map_range, List.map_map]
  refine List.map_congr_left fun k hk => ?_
  have := List.mem_range.mp hk
  rw [Function.comp_apply, cell, Nat.mod_eq_of_lt (by omega), Nat.add_assoc _ off]

theorem cell_writeRaw {off : ℕ} (hoff : off < r.capacity) (hbs : bs.length ≤ r.capacity) (i : ℕ) :
    r.cell (r.writeRaw off bs m) i = (bs[(i % r.capacity + r.capacity - off) % r.capacity]?).getD
      (r.cell m i) := by
  have hi : i % r.capacity < r.capacity := Nat.mod_lt _ r.capacity_pos
  simp only [cell, writeRaw]
  generalize i % r.capacity = i at hi
  rcases Nat.lt_or_ge i off with hlt | hge
  · -- A byte before the offset is reached only by what went past the end.
    rw [Nat.mod_eq_of_lt (by omega)]
    split
    · rw [Region.byte_write, if_pos (by omega), List.getElem?_drop, Region.byte_write,
        if_neg (by omega)]
      congr 2
      omega
    · rw [Region.byte_write, if_neg (by omega), List.getElem?_eq_none (by omega), Option.getD_none]
  · rw [show i + r.capacity - off = i - off + r.capacity by omega, Nat.add_mod_right,
      Nat.mod_eq_of_lt (by omega)]
    have hfirst :
        (m.write (r.baseOffset + headerBytes + off)
        (bs.take (min bs.length (r.capacity - off)))).byte
        (r.baseOffset + headerBytes + i) =
          (bs[i - off]?).getD (m.byte (r.baseOffset + headerBytes + i)) := by
      rw [Region.byte_write, if_pos (by omega),
        show r.baseOffset + headerBytes + i - (r.baseOffset + headerBytes + off) = i - off by omega,
        List.getElem?_take]
      split
      · rfl
      · rw [List.getElem?_eq_none (by omega)]
    split
    · rw [Region.byte_write_of_outside, hfirst]
      rw [List.length_drop]
      omega
    · exact hfirst

theorem cell_writeRaw_at (hbs : bs.length ≤ r.capacity) {t j : ℕ} (hj : j < r.capacity) :
    r.cell (r.writeRaw (t % r.capacity) bs m) (t + j) = (bs[j]?).getD (r.cell m (t + j)) := by
  rw [cell_writeRaw r (Nat.mod_lt _ r.capacity_pos) hbs, lap_sub hj]

theorem content_writeRaw_self (hbs : bs.length ≤ r.capacity) (t : ℕ) :
    r.content (r.writeRaw (t % r.capacity) bs m) t bs.length = bs := by
  refine List.ext_getElem (length_content ..) fun k hk hk' => ?_
  simp only [content, List.getElem_map, List.getElem_range]
  rw [cell_writeRaw_at r hbs (by omega), List.getElem?_eq_getElem hk', Option.getD_some]

/-- The bytes after those written, up to a whole round, are left alone. -/
theorem content_writeRaw_past {t j len : ℕ} (hj : bs.length ≤ j) (hlen : j + len ≤ r.capacity) :
    r.content (r.writeRaw (t % r.capacity) bs m) (t + j) len = r.content m (t + j) len := by
  refine List.map_congr_left fun k hk => ?_
  have := List.mem_range.mp hk
  rw [Nat.add_assoc, cell_writeRaw_at r (by omega) (by omega), List.getElem?_eq_none (by omega),
    Option.getD_none]

@[simp] theorem size_writeRaw (off : ℕ) (bs : List UInt8) :
    (r.writeRaw off bs m).size = m.size := by
  simp only [writeRaw]
  split <;> simp only [Region.size_write]

theorem word_writeRaw {off p : ℕ} (hp : p + 4 ≤ r.baseOffset + headerBytes) :
    (r.writeRaw off bs m).word p 4 = m.word p 4 := by
  simp only [writeRaw]
  split
  · rw [Region.word_write_of_disjoint _ (by omega), Region.word_write_of_disjoint _ (by omega)]
  · rw [Region.word_write_of_disjoint _ (by omega)]

theorem cell_write_header {p n : ℕ} (hp : p + 4 ≤ r.baseOffset + headerBytes) (i : ℕ) :
    r.cell (m.write p (leBytes 4 n)) i = r.cell m i :=
  Region.byte_write_of_outside _ (by rw [length_leBytes]; omega)

/-! ### The accesses of the ring -/

section

variable {r} (hfit : r.Fits m)

include hfit

theorem loadHead_ok : r.loadHead m = .ok (r.head m) m := by
  have := r.addressable
  have hh : headerBytes = 8 := rfl
  rw [loadHead, bind_ok (readAt_ok (by rw [Fits] at hfit; omega) (by omega))]
  rfl

theorem loadTail_ok : r.loadTail m = .ok (r.tail m) m := by
  have := r.addressable
  have hh : headerBytes = 8 := rfl
  rw [loadTail, u32_of_lt (by omega), bind_ok (readAt_ok (by rw [Fits] at hfit; omega) (by omega))]
  rfl

theorem freeSpace_ok :
    r.freeSpace m = .ok (r.capacity - r.distance (r.head m) (r.tail m) - 1) m := by
  rw [freeSpace, bind_ok (loadHead_ok hfit), bind_ok (loadTail_ok hfit)]
  rfl

theorem storeHead_ok (n : ℕ) : r.storeHead n m = .ok () (m.write r.baseOffset (leBytes 4 n)) := by
  have := r.addressable
  have hh : headerBytes = 8 := rfl
  rw [Fits] at hfit
  exact writeAt_ok (by rw [length_leBytes]; omega) (by rw [length_leBytes]; omega)

theorem storeTail_ok (n : ℕ) :
    r.storeTail n m = .ok () (m.write (r.baseOffset + 4) (leBytes 4 n)) := by
  have := r.addressable
  have hh : headerBytes = 8 := rfl
  rw [Fits] at hfit
  rw [storeTail, u32_of_lt (by omega)]
  exact writeAt_ok (by rw [length_leBytes]; omega) (by rw [length_leBytes]; omega)

theorem writeRawAt_ok {off : ℕ} (hoff : off < r.capacity) (hbs : bs.length ≤ r.capacity) :
    r.writeRawAt off bs m = .ok () (r.writeRaw off bs m) := by
  have := r.addressable
  rw [Fits] at hfit
  simp only [writeRawAt, dataBase_eq]
  rw [u32_of_lt (by omega),
    bind_ok (writeAt_ok (by rw [List.length_take]; omega) (by rw [List.length_take]; omega)),
    writeRaw]
  split
  · exact writeAt_ok (by rw [List.length_drop, Region.size_write]; omega)
      (by rw [List.length_drop]; omega)
  · rfl

theorem readRawAt_ok (hoff : off < r.capacity) (hlen : len ≤ r.capacity) :
    r.readRawAt off len m = .ok (r.content m off len) m := by
  have := r.addressable
  rw [Fits] at hfit
  simp only [readRawAt, dataBase_eq]
  rw [u32_of_lt (by omega), bind_ok (readAt_ok (by omega) (by omega)), read_eq_content r (by omega)]
  split
  · rw [bind_ok (readAt_ok (by omega) (by omega))]
    -- What is past the end of the ring starts again at its first cell.
    have hsecond : m.read (r.baseOffset + headerBytes) (len - min len (r.capacity - off)) =
        r.content m (off + min len (r.capacity - off)) (len - min len (r.capacity - off)) := by
      have hread : m.read (r.baseOffset + headerBytes + 0) (len - min len (r.capacity - off)) =
          r.content m 0 (len - min len (r.capacity - off)) := r.read_eq_content (by omega)
      rw [Nat.add_zero] at hread
      rw [hread, show off + min len (r.capacity - off) = 0 + r.capacity by omega,
        content_add_capacity]
    rw [hsecond, ← content_add, show min len (r.capacity - off) +
      (len - min len (r.capacity - off)) = len by omega]
    rfl
  · rw [show min len (r.capacity - off) = len by omega]
    rfl

end

/-! ### The frames of a queue -/

def frame (payload : List UInt8) : List UInt8 := leBytes 4 payload.length ++ payload

def frames (queue : List (List UInt8)) : List UInt8 := queue.flatMap frame

@[simp] theorem length_frame (payload : List UInt8) :
    (frame payload).length = payload.length + 4 := by
  rw [frame, List.length_append, length_leBytes, Nat.add_comm]

theorem frames_cons (payload : List UInt8) (queue : List (List UInt8)) :
    frames (payload :: queue) = leBytes 4 payload.length ++ (payload ++ frames queue) := by
  rw [frames, List.flatMap_cons, frame, List.append_assoc, frames]

theorem frames_concat (queue : List (List UInt8)) (payload : List UInt8) :
    frames (queue ++ [payload]) = frames queue ++ frame payload := by
  simp [frames]

/-- The ring holds the frames of `queue` from its head to its tail. -/
structure Holds (m : Region) (queue : List (List UInt8)) : Prop where
  fits : r.Fits m
  head_lt : r.head m < r.capacity
  length_lt : (frames queue).length < r.capacity
  tail_eq : r.tail m = (r.head m + (frames queue).length) % r.capacity
  content_eq : r.content m (r.head m) (frames queue).length = frames queue

theorem distance_eq {head len : ℕ} (hhead : head < r.capacity) (hlen : len < r.capacity) :
    r.distance head ((head + len) % r.capacity) = len := by
  rw [distance]
  rcases Nat.lt_or_ge (head + len) r.capacity with hlt | hge
  · rw [Nat.mod_eq_of_lt hlt, if_pos (by omega)]
    omega
  · rw [Nat.mod_eq_sub_mod hge, Nat.mod_eq_of_lt (by omega), if_neg (by omega)]
    omega

def pushed (payload : List UInt8) (m : Region) : Region :=
  (r.writeRaw (r.tail m) (leBytes 4 payload.length)
    (r.writeRaw ((r.tail m + frameHeaderBytes) % r.capacity) payload m)).write (r.baseOffset + 4)
      (leBytes 4 ((r.tail m + (payload.length + frameHeaderBytes)) % r.capacity))

def popped (payload : List UInt8) (m : Region) : Region :=
  (r.writeRaw (r.head m) [0, 0, 0, 0] m).write r.baseOffset
    (leBytes 4 ((r.head m + frameHeaderBytes + payload.length) % r.capacity))

variable {r}

variable {queue : List (List UInt8)} {payload : List UInt8}

theorem Holds.pushed (h : r.Holds m queue)
    (hfree : (frames queue).length + (payload.length + 4) < r.capacity) :
    r.Holds (r.pushed payload m) (queue ++ [payload]) := by
  have hh : headerBytes = 8 := rfl
  have haddr := r.addressable
  have htail := h.tail_eq
  have hlen : (frames (queue ++ [payload])).length = (frames queue).length +
      (payload.length + 4) := by
    rw [frames_concat, List.length_append, length_frame]
  have hhead : r.head (r.pushed payload m) = r.head m := by
    rw [head, RuntimeRingBuffer.pushed, Region.word_write_of_disjoint _ (by omega),
      word_writeRaw _ (by omega),
      word_writeRaw _ (by omega), head]
  set t := r.head m + (frames queue).length with ht
  refine ⟨?_, by rw [hhead]; exact h.head_lt, by omega, ?_, ?_⟩
  · have := h.fits
    simpa only [Fits, RuntimeRingBuffer.pushed, Region.size_write, size_writeRaw] using this
  · rw [hhead, RuntimeRingBuffer.pushed, tail, Region.word_write_self, htail, hlen, Nat.mod_add_mod,
      ← Nat.add_assoc (r.head m), ← ht]
    · rfl
    · have := Nat.mod_lt (r.tail m + (payload.length + frameHeaderBytes)) r.capacity_pos
      omega
  · have hcontent : ∀ start len, r.content (r.pushed payload m) start len =
        r.content (r.writeRaw (t % r.capacity) (leBytes 4 payload.length)
          (r.writeRaw ((t + 4) % r.capacity) payload m)) start len := by
      intro start len
      rw [RuntimeRingBuffer.pushed, htail, Nat.mod_add_mod]
      exact r.content_congr (r.cell_write_header (by omega)) start len
    have hold : r.content (r.pushed payload m) (r.head m) (frames queue).length = frames queue := by
      -- The old frames lie one round further than the free cells.
      rw [hcontent, ← content_add_capacity,
        show r.head m + r.capacity = t + (r.capacity - (frames queue).length) by omega,
        content_writeRaw_past r (by rw [length_leBytes]; omega) (by omega),
        show t + (r.capacity - (frames queue).length) = t + 4 +
            (r.capacity - (frames queue).length - 4) by omega,
        content_writeRaw_past r (by omega) (by omega),
        show t + 4 + (r.capacity - (frames queue).length - 4) = r.head m + r.capacity by omega,
            content_add_capacity,
        h.content_eq]
    have hlength : r.content (r.pushed payload m) t 4 = leBytes 4 payload.length := by
      have hwidth : (leBytes 4 payload.length).length ≤ r.capacity := by
        rw [length_leBytes]
        omega
      have hself :=
        r.content_writeRaw_self (m := r.writeRaw ((t + 4) % r.capacity) payload m) hwidth t
      rwa [length_leBytes, ← hcontent] at hself
    have hpayload : r.content (r.pushed payload m) (t + 4) payload.length = payload := by
      rw [hcontent, content_writeRaw_past r (by rw [length_leBytes]) (by omega),
        content_writeRaw_self r (by omega)]
    rw [hhead, hlen, content_add, hold, Nat.add_comm payload.length, content_add, ← ht,
      hlength, hpayload,
      frames_concat, frame]

theorem Holds.popped {rest : List (List UInt8)} (h : r.Holds m (payload :: rest)) :
    r.Holds (r.popped payload m) rest := by
  have hh : headerBytes = 8 := rfl
  have haddr := r.addressable
  have hlt := h.length_lt
  have hlen : (frames (payload :: rest)).length = 4 + (payload.length + (frames rest).length) := by
    rw [frames_cons, List.length_append, List.length_append, length_leBytes]
  have hhead : r.head (r.popped payload m) =
      (r.head m + frameHeaderBytes + payload.length) % r.capacity := by
    rw [head, RuntimeRingBuffer.popped, Region.word_write_self]
    have := Nat.mod_lt (r.head m + frameHeaderBytes + payload.length) r.capacity_pos
    omega
  refine ⟨?_, by rw [hhead]; exact Nat.mod_lt _ r.capacity_pos, by omega, ?_, ?_⟩
  · have := h.fits
    simpa only [Fits, RuntimeRingBuffer.popped, Region.size_write, size_writeRaw] using this
  · have htail : r.tail (r.popped payload m) = r.tail m := by
      rw [tail, RuntimeRingBuffer.popped,
        Region.word_write_of_disjoint _ (by rw [length_leBytes]; omega),
        word_writeRaw _ (by omega), tail]
    rw [htail, h.tail_eq, hhead, Nat.mod_add_mod, hlen, ← Nat.add_assoc, ← Nat.add_assoc]
    rfl
  · have hold := h.content_eq
    have hwritten : r.content (r.popped payload m) (r.head m + (4 + payload.length))
        (frames rest).length =
        r.content m (r.head m + (4 + payload.length)) (frames rest).length := by
      rw [RuntimeRingBuffer.popped]
      rw [r.content_congr (r.cell_write_header (by omega)), ← Nat.mod_eq_of_lt h.head_lt]
      have hmod : ∀ n, r.head m % r.capacity + n = r.head m + n :=
        fun n => by rw [Nat.mod_eq_of_lt h.head_lt]
      rw [hmod]
      exact content_writeRaw_past r (by simp) (by omega)
    rw [hlen, frames_cons, ← Nat.add_assoc, content_add, ← List.append_assoc] at hold
    rw [hhead, content_mod, Nat.add_assoc]
    exact hwritten.trans (List.append_inj_right hold (by simp))

/-! ### The calls -/

theorem Holds.free (h : r.Holds m queue) :
    r.distance (r.head m) (r.tail m) = (frames queue).length := by
  rw [h.tail_eq, distance_eq r h.head_lt h.length_lt]

theorem Holds.writeMessage (h : r.Holds m queue) (hsmall : r.capacity ≤ 2 ^ 31)
    (payload : List UInt8) :
    r.writeMessage payload m = .ok true (r.pushed payload m) ∧
      r.Holds (r.pushed payload m) (queue ++ [payload]) ∨
      r.writeMessage payload m = .ok false m ∨ ∃ e, r.writeMessage payload m = .error e m := by
  have hh : frameHeaderBytes = 4 := rfl
  have htail : r.tail m < r.capacity := by
    rw [h.tail_eq]
    exact Nat.mod_lt _ r.capacity_pos
  rw [RuntimeRingBuffer.writeMessage]
  split
  · exact .inr (.inr ⟨_, rfl⟩)
  split
  · exact .inr (.inr ⟨_, rfl⟩)
  split
  · exact .inr (.inr ⟨_, rfl⟩)
  rw [bind_ok (freeSpace_ok h.fits), h.free]
  split
  · exact .inr (.inl rfl)
  · refine .inl ⟨?_, h.pushed (by omega)⟩
    have hfits : r.Fits (r.writeRaw ((r.tail m + frameHeaderBytes) % r.capacity) payload m) := by
      simpa only [Fits, size_writeRaw] using h.fits
    rw [bind_ok (loadTail_ok h.fits), u32_of_lt (by omega),
      bind_ok (writeRawAt_ok h.fits (Nat.mod_lt _ r.capacity_pos) (by omega)),
      bind_ok (writeRawAt_ok hfits htail (by rw [length_leBytes]; omega)), u32_of_lt (by omega),
      bind_ok (storeTail_ok (by simpa only [Fits, size_writeRaw] using h.fits) _)]
    rfl

theorem Holds.readMessage_nil (h : r.Holds m []) (targetLen : ℕ) :
    r.readMessage targetLen m = .ok none m := by
  have heq : r.head m = r.tail m := by
    rw [h.tail_eq]
    exact (Nat.mod_eq_of_lt h.head_lt).symm
  rw [RuntimeRingBuffer.readMessage, bind_ok (loadHead_ok h.fits),
    bind_ok (loadTail_ok h.fits), if_pos heq]
  rfl

/-- A target that is too small leaves the message where it is. -/
theorem Holds.readMessage_cons {rest : List (List UInt8)} (h : r.Holds m (payload :: rest))
    (hsmall : r.capacity ≤ 2 ^ 31) (hne : payload ≠ []) (targetLen : ℕ) :
    if payload.length ≤ targetLen then
      r.readMessage targetLen m = .ok (some payload) (r.popped payload m)
    else ∃ e, r.readMessage targetLen m = .error e m := by
  have hh : frameHeaderBytes = 4 := rfl
  have hlt := h.length_lt
  have hhead := h.head_lt
  have hdist := h.free
  have hpos : 0 < payload.length := List.length_pos_iff.mpr hne
  have hlen : (frames (payload :: rest)).length = 4 + (payload.length + (frames rest).length) := by
    rw [frames_cons, List.length_append, List.length_append, length_leBytes]
  have hcontent := h.content_eq
  rw [hlen, frames_cons, content_add, content_add] at hcontent
  have hlength : r.content m (r.head m) 4 = leBytes 4 payload.length :=
    List.append_inj_left hcontent (by simp)
  have hpayload : r.content m (r.head m + 4) payload.length = payload :=
    List.append_inj_left (List.append_inj_right hcontent (by simp)) (by simp)
  have hhave : r.head m ≠ r.tail m := by
    intro heq
    rw [← heq, distance, if_pos le_rfl] at hdist
    omega
  have hwhole : ¬r.distance (r.head m) (r.tail m) - frameHeaderBytes < payload.length := by omega
  rw [RuntimeRingBuffer.readMessage, bind_ok (loadHead_ok h.fits), bind_ok (loadTail_ok h.fits),
    if_neg hhave,
    bind_ok (readRawAt_ok h.fits hhead (by omega)), hlength, leNat_leBytes_of_lt (by omega),
    if_neg hpos.ne',
    if_neg hwhole]
  by_cases htarget : payload.length ≤ targetLen
  · rw [if_pos htarget, if_neg (by omega), u32_of_lt (by omega),
      bind_ok (readRawAt_ok h.fits (Nat.mod_lt _ r.capacity_pos) (by omega)), content_mod,
      hh, hpayload,
      bind_ok
        (writeRawAt_ok h.fits hhead (by simp only [List.length_cons, List.length_nil]; omega)),
      u32_of_lt (by omega),
      bind_ok (storeHead_ok (by simpa only [Fits, size_writeRaw] using h.fits) _)]
    rfl
  · rw [if_neg htarget, if_pos (by omega)]
    exact ⟨_, rfl⟩

/-! ### Runs -/

/-- The accepted payloads are those delivered and then those in the ring, none of them empty. -/
structure Queued (r : RuntimeRingBuffer) (s : Session) (pending : List (List UInt8)) : Prop where
  accepted : s.accepted = s.delivered ++ pending
  nonempty : ∀ payload ∈ pending, payload ≠ []
  holds : r.Holds s.memory pending

theorem Queued.call {s : Session} {pending : List (List UInt8)} (h : Queued r s pending)
    (hsmall : r.capacity ≤ 2 ^ 31) (c : Call) (hc : ∀ payload, c = .write payload → payload ≠ []) :
    ∃ pending', Queued r (r.call s c) pending' := by
  cases c with
  | write payload =>
    rw [RuntimeRingBuffer.call]
    rcases h.holds.writeMessage hsmall payload with ⟨hwrite, hholds⟩ | hwrite | ⟨e, hwrite⟩
    · rw [hwrite]
      refine ⟨pending ++ [payload], by simp [h.accepted], fun p hp => ?_, hholds⟩
      rcases List.mem_append.mp hp with hp | hp
      · exact h.nonempty p hp
      · rw [List.mem_singleton.mp hp]
        exact hc payload rfl
    · rw [hwrite]
      exact ⟨pending, h⟩
    · rw [hwrite]
      exact ⟨pending, h⟩
  | read targetLen =>
    rw [RuntimeRingBuffer.call]
    cases pending with
    | nil =>
      rw [h.holds.readMessage_nil]
      exact ⟨[], h⟩
    | cons payload rest =>
      have hread :=
        h.holds.readMessage_cons hsmall (h.nonempty payload List.mem_cons_self) targetLen
      split at hread
      · rw [hread]
        exact ⟨rest, by simp [h.accepted], fun p hp => h.nonempty p (List.mem_cons_of_mem _ hp),
          h.holds.popped⟩
      · obtain ⟨e, hread⟩ := hread
        rw [hread]
        exact ⟨payload :: rest, h⟩

theorem Queued.calls {s : Session} {pending : List (List UInt8)} (h : Queued r s pending)
    (hsmall : r.capacity ≤ 2 ^ 31) (calls : List Call)
    (hcalls : ∀ payload, .write payload ∈ calls → payload ≠ []) :
    ∃ pending', Queued r (calls.foldl r.call s) pending' := by
  induction calls generalizing s pending with
  | nil => exact ⟨pending, h⟩
  | cons c calls ih =>
    obtain ⟨pending', h'⟩ :=
      h.call hsmall c fun payload hp => hcalls payload (hp ▸ List.mem_cons_self)
    exact ih h' fun payload hp => hcalls payload (List.mem_cons_of_mem _ hp)

theorem holds_nil (hfit : r.Fits m) (hhead : r.head m = 0) (htail : r.tail m = 0) : r.Holds m [] :=
  ⟨hfit, hhead ▸ r.capacity_pos, r.capacity_pos, by rw [htail, hhead]; exact (Nat.zero_mod _).symm,
    rfl⟩

/-- On a ring of at most `2 ^ 31` bytes whose payloads are not empty, a read returns the first
payload that was accepted and not read yet. -/
theorem ring_is_fifo (r : RuntimeRingBuffer) (hsmall : r.capacity ≤ 2 ^ 31) (m : Region)
    (hfit : r.Fits m) (hhead : r.head m = 0) (htail : r.tail m = 0) (calls : List Call)
    (hcalls : ∀ payload, .write payload ∈ calls → payload ≠ []) :
    let s := calls.foldl r.call ⟨m, [], []⟩
    s.delivered <+: s.accepted ∧ ∀ targetLen, (∀ payload ∈ s.accepted, payload.length ≤ targetLen) →
      ∃ m', r.readMessage targetLen s.memory = .ok s.accepted[s.delivered.length]? m' := by
  intro s
  have hstart : Queued r ⟨m, [], []⟩ [] := ⟨rfl, by simp, holds_nil hfit hhead htail⟩
  obtain ⟨pending, h⟩ := hstart.calls hsmall calls hcalls
  have haccepted : s.accepted = s.delivered ++ pending := h.accepted
  refine ⟨⟨pending, haccepted.symm⟩, fun targetLen htarget => ?_⟩
  rw [haccepted, List.getElem?_append_right le_rfl, Nat.sub_self]
  cases pending with
  | nil => exact ⟨_, h.holds.readMessage_nil targetLen⟩
  | cons payload rest =>
    have hread := h.holds.readMessage_cons hsmall (h.nonempty payload List.mem_cons_self) targetLen
    rw [if_pos (htarget payload (by simp [haccepted]))] at hread
    exact ⟨_, hread⟩

def smallRing : RuntimeRingBuffer := ⟨4, 11, by decide, by decide⟩

def zeroed : Region := ⟨23, fun _ => 0⟩

/-- Three frames around the end of the ring. -/
theorem wraps_in_order : RuntimeRingBuffer.new 4 19 = .ok smallRing ∧
    let s :=
      [Call.write [7, 8], .read 4, .write [1, 2, 3], .read 4, .write [9]].foldl smallRing.call
      ⟨zeroed, [], []⟩
    s.delivered <+: s.accepted ∧ ∀ targetLen, (∀ payload ∈ s.accepted, payload.length ≤ targetLen) →
      ∃ m', smallRing.readMessage targetLen s.memory = .ok s.accepted[s.delivered.length]? m' :=
  ⟨rfl, ring_is_fifo smallRing (by decide) zeroed (le_of_eq rfl) (by decide)
    (by decide) _ (by simp)⟩

/-- An empty payload is accepted, and the ring then looks empty to the reader. -/
theorem empty_payload_hides :
    let s := [Call.write [], .write [5]].foldl smallRing.call ⟨zeroed, [], []⟩
    s.accepted = [[]] ++ [[5]] ∧ s.delivered = [] ∧ (smallRing.readMessage 8).run' s.memory =
      some none := by
  decide +kernel

end RuntimeRingBuffer

end Foundation.RingBuffer
