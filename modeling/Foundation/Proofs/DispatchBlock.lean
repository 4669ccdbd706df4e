import Foundation.Spec.DispatchBlock

/-! When a snapshot is one published table. A reader that started on a buffer reads that buffer
to the end; what keeps its rows together is that no publication fills the buffer meanwhile.
And what the word of units in flight counts, whoever claims and releases. -/

namespace Foundation.Dispatch

/-! ### Rows in the region -/

@[simp] theorem length_encodeDescriptor (d : DispatchLaneDescriptor) :
    (encodeDescriptor d).length = laneRowBytes := by
  simp [encodeDescriptor, laneRowBytes]

theorem decode_encode (d : DispatchLaneDescriptor) : decodeDescriptor (encodeDescriptor d) = d := by
  have h64 : ∀ x : UInt64, UInt64.ofNat (leNat (leBytes 8 x.toNat)) = x := fun x => by
    rw [leNat_leBytes_of_lt x.toNat_lt, UInt64.ofNat_toNat]
  have h32 : ∀ x : UInt32, UInt32.ofNat (leNat (leBytes 4 x.toNat)) = x := fun x => by
    rw [leNat_leBytes_of_lt x.toNat_lt, UInt32.ofNat_toNat]
  have h16 : ∀ x : UInt16, UInt16.ofNat (leNat (leBytes 2 x.toNat)) = x := fun x => by
    rw [leNat_leBytes_of_lt x.toNat_lt, UInt16.ofNat_toNat]
  simp [decodeDescriptor, encodeDescriptor, List.append_assoc, List.drop_append, h64, h32, h16]

theorem rowOffset_disjoint {b b' s s' : ℕ} (hs : s < maxLanes) (hs' : s' < maxLanes)
    (h : b ≠ b' ∨ s ≠ s') :
    rowOffset b' s' + laneRowBytes ≤ rowOffset b s ∨
      rowOffset b s + laneRowBytes ≤ rowOffset b' s' := by
  simp only [rowOffset, laneRowBytes, bufferBytes, buffersOffset, maxLanes] at *
  omega

theorem readRow_writeRow_self (m : Region) (b s : ℕ) (d : DispatchLaneDescriptor) :
    readRow (writeRow m b s d) b s = d := by
  have hread := m.read_write_self (rowOffset b s) (encodeDescriptor d)
  rw [length_encodeDescriptor] at hread
  rw [readRow, writeRow, hread, decode_encode]

theorem readRow_writeRow_of_ne (m : Region) {b b' s s' : ℕ} (d : DispatchLaneDescriptor)
    (hs : s < maxLanes) (hs' : s' < maxLanes) (h : b ≠ b' ∨ s ≠ s') :
    readRow (writeRow m b s d) b' s' = readRow m b' s' := by
  rw [readRow, writeRow, Region.read_write_of_disjoint, readRow]
  rw [length_encodeDescriptor]
  exact rowOffset_disjoint hs hs' h

theorem flipIndex_writeRow (m : Region) (b s : ℕ) (d : DispatchLaneDescriptor) :
    flipIndex (writeRow m b s d) = flipIndex m :=
  m.word_write_of_disjoint (.inl (by simp only [flipIndexOffset, rowOffset, buffersOffset]; omega))

theorem readRow_storeFlipIndex (m : Region) (index b s : ℕ) :
    readRow (storeFlipIndex m index) b s = readRow m b s := by
  rw [readRow, storeFlipIndex, Region.read_write_of_disjoint, readRow]
  rw [length_leBytes]
  exact .inr (by simp only [flipIndexOffset, rowOffset, buffersOffset]; omega)

theorem flipIndex_storeFlipIndex (m : Region) {index : ℕ} (h : index < 2) :
    flipIndex (storeFlipIndex m index) = index :=
  m.word_write_self (h.trans (by decide))

/-! ### The invariant -/

/-- The buffer holds the publication's table. -/
def Holds (m : Region) (buffer : ℕ) (p : Publication) : Prop :=
  ∀ slot < maxLanes, readRow m buffer slot = p.row slot

variable {p : Publication} {reader : Reader}

theorem Holds.storeFlipIndex {m : Region} {buffer : ℕ} (h : Holds m buffer p) (index : ℕ) :
    Holds (storeFlipIndex m index) buffer p :=
  fun slot hslot => (readRow_storeFlipIndex m index buffer slot).trans (h slot hslot)

theorem Holds.writeRow {m : Region} {buffer target slot : ℕ} (h : Holds m buffer p)
    (hslot : slot < maxLanes) (hne : target ≠ buffer) (d : DispatchLaneDescriptor) :
    Holds (writeRow m target slot d) buffer p :=
  fun s hs => (readRow_writeRow_of_ne m d hslot hs (.inl hne)).trans (h s hs)

/-- The publisher fills the buffer the flip index does not name. -/
def Publisher.Sound (m : Region) : Publisher → Prop
  | .idle => True
  | .filling p target slot =>
    target = 1 - flipIndex m ∧ slot ≤ maxLanes ∧ ∀ s < slot, readRow m target s = p.row s

/-- The reader has a part of a published table that its buffer still holds. -/
def Reader.Sound (b : Board) : Reader → Prop
  | .idle => True
  | .reading active rows =>
    rows.length < maxLanes ∧ (∃ p ∈ b.published, rows = p.table.take rows.length ∧
      Holds b.region active p) ∧
      ∀ p target slot, b.publisher = .filling p target slot → active ≠ target

structure Board.Sound (b : Board) : Prop where
  flip : flipIndex b.region < 2
  active : ∀ p, b.published.head? = some p → Holds b.region (flipIndex b.region) p
  publisher : b.publisher.Sound b.region
  readers : ∀ r, (b.readers r).Sound b
  whole : ∀ snapshot ∈ b.snapshots, ∃ p ∈ b.published, snapshot = p.table

/-- No reader is left on the buffer a publication is about to fill, and no snapshot starts
before the first publication is flipped in. -/
def Quiet (b : Board) : BoardStep → Prop
  | .publish _ => ∀ r active rows, b.readers r = .reading active rows → active = flipIndex b.region
  | .load _ => b.published ≠ []
  | _ => True

theorem length_table (p : Publication) : p.table.length = maxLanes := by simp [Publication.table]

theorem take_table_succ (p : Publication) {n : ℕ} (h : n < maxLanes) :
    p.table.take (n + 1) = p.table.take n ++ [p.row n] := by
  have hn : n < p.table.length := by rwa [length_table]
  rw [List.take_succ_eq_append_getElem hn]
  simp [Publication.table]

/-- What a reader knows survives as long as its table stays published and in place. -/
theorem Reader.Sound.mono {b b' : Board} (h : reader.Sound b)
    (hpublished : ∀ p ∈ b.published, p ∈ b'.published)
    (hkeep : ∀ active rows p, reader = .reading active rows → Holds b.region active p →
      Holds b'.region active p)
    (hapart : ∀ active rows p target slot, reader = .reading active rows →
      b'.publisher = .filling p target slot → active ≠ target) : reader.Sound b' := by
  cases reader with
  | idle => trivial
  | reading active rows =>
    obtain ⟨hlength, ⟨p, hp, hrows, hholds⟩, -⟩ := h
    exact ⟨hlength, ⟨p, hpublished p hp, hrows, hkeep active rows p rfl hholds⟩,
      fun q target slot hq => hapart active rows q target slot rfl hq⟩

theorem Reader.Sound.setReader {b : Board} (h : reader.Sound b) (r : ℕ) (other : Reader) :
    reader.Sound (b.setReader r other) :=
  h.mono (fun _ hp => hp) (fun _ _ _ _ hholds => hholds) fun _ _ _ _ _ hreader hpublisher => by
    subst hreader
    exact h.2.2 _ _ _ hpublisher

theorem Board.Sound.setReader {b : Board} (h : b.Sound) (r : ℕ) (hreader : reader.Sound b) :
    (b.setReader r reader).Sound := by
  refine ⟨h.flip, h.active, h.publisher, fun i => ?_, h.whole⟩
  by_cases hi : i = r
  · simpa [Board.setReader, hi] using hreader.setReader r reader
  · simpa [Board.setReader, hi] using (h.readers i).setReader r reader

theorem Board.Sound.publish {b b' : Board} (h : b.Sound) (hq : Quiet b (.publish p))
    (hstep : b.step (.publish p) = some b') : b'.Sound := by
  simp only [Board.step] at hstep
  cases hpublisher : b.publisher with
  | filling _ _ _ => simp [hpublisher] at hstep
  | idle =>
    rw [hpublisher] at hstep
    dsimp only at hstep
    by_cases hrows : p.rows.length > maxLanes
    · rw [if_pos hrows] at hstep
      exact Option.some_inj.mp hstep ▸ h
    rw [if_neg hrows, if_neg (not_le.mpr h.flip)] at hstep
    obtain rfl := Option.some_inj.mp hstep
    refine ⟨h.flip, h.active, ⟨rfl, Nat.zero_le _, fun s hs => absurd hs (Nat.not_lt_zero s)⟩,
      fun r => ?_, h.whole⟩
    refine (h.readers r).mono (fun _ hp => hp) (fun _ _ _ _ hholds => hholds) ?_
    intro active rows q target slot hreader htarget
    cases htarget
    have hactive := hq r active rows hreader
    have hflip := h.flip
    omega

theorem Board.Sound.fill {b b' : Board} (h : b.Sound) (hstep : b.step .fill = some b') :
    b'.Sound := by
  simp only [Board.step] at hstep
  cases hpublisher : b.publisher with
  | idle => simp [hpublisher] at hstep
  | filling p target slot =>
    rw [hpublisher] at hstep
    dsimp only at hstep
    by_cases hslot : slot < maxLanes
    swap
    · rw [if_neg hslot] at hstep
      cases hstep
    rw [if_pos hslot] at hstep
    obtain rfl := Option.some_inj.mp hstep
    have hsound := h.publisher
    rw [hpublisher] at hsound
    obtain ⟨htarget, -, hwritten⟩ := hsound
    have hflip := h.flip
    have hne : target ≠ flipIndex b.region := by omega
    refine ⟨?_, fun q hq => ?_, ⟨?_, hslot, fun s hs => ?_⟩, fun r => ?_, h.whole⟩
    · rwa [flipIndex_writeRow]
    · rw [flipIndex_writeRow]
      exact (h.active q hq).writeRow hslot hne _
    · rwa [flipIndex_writeRow]
    · rcases Nat.lt_succ_iff_lt_or_eq.mp hs with hlt | rfl
      · rw [readRow_writeRow_of_ne _ _ hslot (hlt.trans hslot) (.inr hlt.ne')]
        exact hwritten s hlt
      · exact readRow_writeRow_self _ _ _ _
    · have hreader := h.readers r
      refine hreader.mono (fun _ hp => hp) (fun active rows q heq hholds => ?_) fun active rows q t
        s heq hq => ?_
      · rw [heq] at hreader
        exact hholds.writeRow hslot (hreader.2.2 p target slot hpublisher).symm _
      · cases hq
        rw [heq] at hreader
        exact hreader.2.2 p target slot hpublisher

theorem Board.Sound.flipped {b b' : Board} (h : b.Sound) (hstep : b.step .flip = some b') :
    b'.Sound := by
  simp only [Board.step] at hstep
  cases hpublisher : b.publisher with
  | idle => simp [hpublisher] at hstep
  | filling p target slot =>
    rw [hpublisher] at hstep
    dsimp only at hstep
    by_cases hslot : slot < maxLanes
    · rw [if_pos hslot] at hstep
      cases hstep
    rw [if_neg hslot] at hstep
    obtain rfl := Option.some_inj.mp hstep
    have hsound := h.publisher
    rw [hpublisher] at hsound
    obtain ⟨htarget, -, hwritten⟩ := hsound
    have htwo : target < 2 := by omega
    have hfull : Holds b.region target p := fun s hs => hwritten s (by omega)
    refine ⟨?_, fun q hq => ?_, trivial, fun r => ?_, fun snapshot hsnapshot => ?_⟩
    · rwa [flipIndex_storeFlipIndex _ htwo]
    · obtain rfl := Option.some_inj.mp hq
      rw [flipIndex_storeFlipIndex _ htwo]
      exact hfull.storeFlipIndex target
    · exact (h.readers r).mono (fun _ hp => List.mem_cons_of_mem _ hp)
        (fun _ _ _ _ hholds => hholds.storeFlipIndex target) fun _ _ _ _ _ _ hq => by cases hq
    · obtain ⟨q, hq, heq⟩ := h.whole snapshot hsnapshot
      exact ⟨q, List.mem_cons_of_mem _ hq, heq⟩

theorem Board.Sound.load {b b' : Board} {r : ℕ} (h : b.Sound) (hq : Quiet b (.load r))
    (hstep : b.step (.load r) = some b') : b'.Sound := by
  simp only [Board.step] at hstep
  cases hreader : b.readers r with
  | reading _ _ => simp [hreader] at hstep
  | idle =>
    rw [hreader] at hstep
    dsimp only at hstep
    rw [if_neg (not_le.mpr h.flip)] at hstep
    obtain rfl := Option.some_inj.mp hstep
    obtain ⟨p, rest, hpublished⟩ := List.exists_cons_of_ne_nil hq
    refine h.setReader r ⟨by decide,
      ⟨p, by simp [hpublished], by simp, h.active p (by simp [hpublished])⟩, ?_⟩
    intro q target slot hpublisher
    have hsound := h.publisher
    rw [hpublisher] at hsound
    have hflip := h.flip
    have htarget := hsound.1
    omega

theorem Board.Sound.read {b b' : Board} {r : ℕ} (h : b.Sound) (hstep : b.step (.read r) = some b') :
    b'.Sound := by
  simp only [Board.step] at hstep
  cases hreader : b.readers r with
  | idle => simp [hreader] at hstep
  | reading active rows =>
    have hsound := h.readers r
    rw [hreader] at hsound hstep
    obtain ⟨hlength, ⟨p, hp, hrows, hholds⟩, hapart⟩ := hsound
    have hnext : rows ++ [readRow b.region active rows.length] =
        p.table.take (rows.length + 1) := by
      rw [take_table_succ p hlength, ← hrows, hholds _ hlength]
    dsimp only at hstep
    rw [List.length_append, List.length_singleton] at hstep
    by_cases hlast : rows.length + 1 < maxLanes
    · rw [if_pos hlast] at hstep
      obtain rfl := Option.some_inj.mp hstep
      refine h.setReader r ⟨?_, ⟨p, hp, ?_, hholds⟩, hapart⟩
      · rwa [List.length_append, List.length_singleton]
      · rw [List.length_append, List.length_singleton, hnext]
    · rw [if_neg hlast] at hstep
      obtain rfl := Option.some_inj.mp hstep
      have hidle : (b.setReader r .idle).Sound := h.setReader r trivial
      refine ⟨hidle.flip, hidle.active, hidle.publisher, fun i => ?_, fun snapshot hsnapshot => ?_⟩
      · exact (hidle.readers i).mono (fun _ hp => hp) (fun _ _ _ _ hh => hh) fun _ _ _ _
          _ heq hq => by
          have hi := hidle.readers i
          rw [heq] at hi
          exact hi.2.2 _ _ _ hq
      · rcases List.mem_cons.mp hsnapshot with rfl | hold
        · refine ⟨p, hp, ?_⟩
          rw [hnext, List.take_of_length_le]
          rw [length_table]
          omega
        · exact h.whole snapshot hold

theorem sound_of_reached {b : Board} (h : Reached Board.step Quiet .fresh b) : b.Sound := by
  refine h.invariant ⟨by decide, nofun, trivial, fun _ => trivial, nofun⟩ fun b e b' hquiet
    hstep ih => ?_
  cases e with
  | publish p => exact ih.publish hquiet hstep
  | fill => exact ih.fill hstep
  | flip => exact ih.flipped hstep
  | load r => exact ih.load hquiet hstep
  | read r => exact ih.read hstep

/-! ### Runs -/

def publishing (p : Publication) : List BoardStep :=
  .publish p :: List.replicate maxLanes .fill ++ [.flip]

theorem generation_of_mem_table {row : DispatchLaneDescriptor} (h : row ∈ p.table) :
    row.generation = p.generation := by
  obtain ⟨slot, -, rfl⟩ := List.mem_map.mp h
  rfl

/-- Every snapshot is one published table, all of one generation. -/
theorem snapshots_whole {b : Board} (h : Reached Board.step Quiet .fresh b) :
    ∀ snapshot ∈ b.snapshots, ∃ p ∈ b.published, snapshot = p.table ∧
      ∀ row ∈ snapshot, row.generation = p.generation := by
  intro snapshot hsnapshot
  obtain ⟨p, hp, rfl⟩ := (sound_of_reached h).whole snapshot hsnapshot
  exact ⟨p, hp, rfl, fun row hrow => generation_of_mem_table hrow⟩

theorem readers_publishing {b b' : Board} (h : runSteps Board.step b (publishing p) = some b') :
    b'.readers = b.readers := by
  have hstep : ∀ (e : BoardStep) (b b' : Board), e ∈ publishing p → b.step e = some b' →
      b'.readers = b.readers := by
    intro e b b' he hs
    have hkind : (∃ p, e = .publish p) ∨ e = .fill ∨ e = .flip := by
      rcases List.mem_append.mp he with he | he
      · rcases List.mem_cons.mp he with he | he
        · exact .inl ⟨p, he⟩
        · exact .inr (.inl (List.eq_of_mem_replicate he))
      · exact .inr (.inr (List.mem_singleton.mp he))
    rcases hkind with ⟨q, rfl⟩ | rfl | rfl <;> simp only [Board.step] at hs <;> split at hs
    all_goals grind
  generalize publishing p = es at h hstep
  induction es generalizing b with
  | nil => rw [Option.some.inj h]
  | cons e es ih =>
    obtain ⟨next, hnext, h⟩ := Option.bind_eq_some_iff.mp h
    rw [ih h fun e b b' he => hstep e b b' (List.mem_cons_of_mem _ he),
      hstep e b next List.mem_cons_self hnext]

theorem reached_publishing {b b' : Board} (h : Reached Board.step Quiet .fresh b)
    (hquiet : Quiet b (.publish p)) (hrun : runSteps Board.step b (publishing p) = some b') :
    Reached Board.step Quiet .fresh b' := by
  obtain ⟨filling, hpublish, hrun⟩ := Option.bind_eq_some_iff.mp hrun
  refine (h.next _ hquiet hpublish).of_free (fun e he b => ?_) hrun
  rcases List.mem_append.mp he with he | he
  · rw [List.eq_of_mem_replicate he]
    trivial
  · rw [List.mem_singleton.mp he]
    trivial

/-- A publication that is filled while a snapshot is read and flipped in after it. -/
theorem snapshot_beside_publication_whole :
    ∃ b, Reached Board.step Quiet .fresh b ∧ b.snapshots.length = 1 ∧ b.published.length = 2 ∧
      ∀ snapshot ∈ b.snapshots, ∃ p ∈ b.published, snapshot = p.table ∧
        ∀ row ∈ snapshot, row.generation = p.generation := by
  have hany : (runSteps Board.step .fresh (publishing ⟨[], 1⟩ ++ .load 0 :: .publish ⟨[], 2⟩ ::
      (List.replicate maxLanes .fill ++ List.replicate maxLanes (.read 0) ++ [.flip]))).any
      (fun b => b.snapshots.length == 1 && b.published.length == 2) = true := by
    decide +kernel
  have hfirst : (runSteps Board.step .fresh (publishing ⟨[], 1⟩)).all (!·.published.isEmpty) =
      true := by
    decide +kernel
  obtain ⟨b, hrun, hlengths⟩ := (Option.any_eq_true _ _).mp hany
  obtain ⟨flipped, hflipped, hrun⟩ := (runSteps_append _ _).mp hrun
  obtain ⟨loaded, hload, hrun⟩ := Option.bind_eq_some_iff.mp hrun
  obtain ⟨filling, hpublish, hrun⟩ := Option.bind_eq_some_iff.mp hrun
  have hreach : Reached Board.step Quiet .fresh flipped :=
    reached_publishing .start (fun _ _ _ hreading => by cases hreading) hflipped
  have hpublished : Quiet flipped (.load 0) := by
    rw [hflipped, Option.all_some] at hfirst
    intro hnil
    rw [hnil] at hfirst
    cases hfirst
  have hidle : ∀ r, flipped.readers r = .idle := congrFun (readers_publishing hflipped)
  have hactive : Quiet loaded (.publish ⟨[], 2⟩) := by
    have hstep := hload
    simp only [Board.step, hidle, if_neg (not_le.mpr (sound_of_reached hreach).flip),
      Option.some_inj] at hstep
    subst hstep
    intro r active rows hreading
    simp only [Board.setReader, hidle] at hreading
    split_ifs at hreading
    exact (Reader.reading.inj hreading).1.symm
  have hall := ((hreach.next _ hpublished hload).next _ hactive hpublish).of_free (fun e he b => by
    rcases List.mem_append.mp he with he | he
    · rcases List.mem_append.mp he with he | he
      · rw [List.eq_of_mem_replicate he]
        trivial
      · rw [List.eq_of_mem_replicate he]
        trivial
    · rw [List.mem_singleton.mp he]
      trivial) hrun
  rw [Bool.and_eq_true, beq_iff_eq, beq_iff_eq] at hlengths
  exact ⟨b, hall, hlengths.1, hlengths.2, snapshots_whole hall⟩

/-- A reader loads the flip index after the first publication; the second one is flipped in and
the third one has filled one row when the reader reads. -/
theorem overtaken_snapshot_torn : ∃ b, Reached Board.step (fun _ _ => True) .fresh b ∧
    ∃ snapshot ∈ b.snapshots, ∀ p : Publication, snapshot ≠ p.table := by
  have hrun : (runSteps Board.step .fresh (publishing ⟨[], 1⟩ ++ .load 0 :: publishing ⟨[], 2⟩ ++
      .publish ⟨[], 3⟩ :: .fill :: List.replicate maxLanes (.read 0))).map
        (fun b => b.snapshots.map fun snapshot => (snapshot.take 2).map (·.generation)) =
          some [[3, 1]] := by
    decide +kernel
  obtain ⟨b, hb, hsnapshots⟩ := Option.map_eq_some_iff.mp hrun
  obtain ⟨snapshot, hsnapshot, hgenerations⟩ : ∃ snapshot ∈ b.snapshots,
      (snapshot.take 2).map (·.generation) = [3, 1] :=
    List.mem_map.mp (hsnapshots ▸ List.mem_singleton_self _)
  refine ⟨b, Reached.start.of_free (fun _ _ _ => trivial) hb, snapshot, hsnapshot, fun p hp => ?_⟩
  have hsame : ∀ g ∈ (snapshot.take 2).map (·.generation), g = p.generation := by
    rintro _ hg
    obtain ⟨row, hrow, rfl⟩ := List.mem_map.mp hg
    exact generation_of_mem_table (hp ▸ List.mem_of_mem_take hrow)
  rw [hgenerations] at hsame
  have hone := hsame 1 (by simp)
  have hthree := hsame 3 (by simp)
  exact absurd (hone.trans hthree.symm) (by decide)

/-! ### Units in flight -/

/-- Every attempt a call has used up was paid for by a change of the word. -/
def Release.Paid (word changes : ℕ) : Release → Prop
  | .loading since left => since + releaseMaxAttempts ≤ changes + left + 1
  | .swapping since left current => current ≠ 0 ∧ since + releaseMaxAttempts ≤ changes + left + 1 ∧
      (word ≠ current → since + releaseMaxAttempts ≤ changes + left)
  | .contended since => since + releaseMaxAttempts ≤ changes
  | _ => True

theorem Release.Paid.change {word changes : ℕ} {call : Release} (h : call.Paid word changes)
    (word' : ℕ) :
    call.Paid word' (changes + 1) := by
  cases call <;> grind [Release.Paid]

theorem Release.paid_attempt {word changes since left : ℕ}
    (h : since + releaseMaxAttempts ≤ changes + left) :
    (Release.attempt since left).Paid word changes := by
  cases left <;> exact h

namespace Inflight

structure Sound (s : Inflight) : Prop where
  released_le : s.released ≤ s.claimed
  word_eq : s.word = (s.claimed - s.released) % 2 ^ 32
  paid : ∀ i, (s.calls i).Paid s.word (s.claimed + s.released)

variable {s : Inflight}

theorem Sound.goTo (h : s.Sound) (i : ℕ) {call : Release}
    (hc : call.Paid s.word (s.claimed + s.released)) :
    (s.goTo i call).Sound where
  released_le := h.released_le
  word_eq := h.word_eq
  paid := (Function.forall_update_iff s.calls fun _ c => c.Paid _ _).mpr ⟨hc, fun j _ => h.paid j⟩

theorem Sound.take (h : s.Sound) (hw : s.word ≠ 0) : s.take.Sound := by
  obtain ⟨hle, hword, hpaid⟩ := h
  exact ⟨show s.released + 1 ≤ s.claimed by omega,
    show s.word - 1 = (s.claimed - (s.released + 1)) % 2 ^ 32 by omega,
    fun i => (hpaid i).change _⟩

theorem Sound.step (h : s.Sound) (a : Access) : (s.step a).Sound := by
  cases a with
  | claim =>
    obtain ⟨hle, hword, hpaid⟩ := h
    refine ⟨Nat.le_succ_of_le hle,
      show (s.word + 1) % 2 ^ 32 = (s.claimed + 1 - s.released) % 2 ^ 32 by omega, fun i => ?_⟩
    have hchange := (hpaid i).change ((s.word + 1) % 2 ^ 32)
    rwa [Nat.add_right_comm] at hchange
  | releaseOne =>
    rw [Inflight.step]
    split_ifs with hw
    · exact h
    · exact h.take hw
  | begin i =>
    rw [Inflight.step]
    split
    · exact h.goTo i (Release.paid_attempt le_rfl)
    · exact h
  | load i =>
    rw [Inflight.step]
    split
    · next since left hi =>
      have hpaid := h.paid i
      rw [hi] at hpaid
      refine h.goTo i ?_
      split_ifs with hw
      · trivial
      · exact ⟨hw, hpaid, fun hne => absurd rfl hne⟩
    · exact h
  | swap i =>
    rw [Inflight.step]
    split
    · next since left current hi =>
      have hpaid := h.paid i
      rw [hi] at hpaid
      split_ifs with hw
      · exact (h.take (hw ▸ hpaid.1)).goTo i trivial
      · exact h.goTo i (Release.paid_attempt (hpaid.2.2 hw))
    · exact h

/-- However claims and the releases of both hosts interleave, no release takes a unit that was not
claimed, the word counts the units in flight, and a release gives up only if the word has changed
eight times since it began. -/
theorem counts_claims (accesses : List Access) :
    let s := accesses.foldl step {}
    s.released ≤ s.claimed ∧ s.word = (s.claimed - s.released) % 2 ^ 32 ∧
      ∀ i since, s.calls i = .contended since → since + 8 ≤ s.claimed + s.released := by
  intro s
  have hs : s.Sound :=
    List.foldlRecOn accesses step ⟨le_rfl, rfl, fun _ => trivial⟩ fun _ h a _ => h.step a
  refine ⟨hs.released_le, hs.word_eq, fun i since hi => ?_⟩
  have hpaid := hs.paid i
  rwa [hi] at hpaid

end Inflight

end Foundation.Dispatch
