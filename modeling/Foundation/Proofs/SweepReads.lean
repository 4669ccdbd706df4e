import Mathlib.Data.List.Basic
import Mathlib.Order.Lattice
import Foundation.Spec.MirrorSweep

/-! Repeated sweeps of one source. A pass that succeeds has pushed all it visited and moves the
cursor to the latest time it saw; whatever the read left out of that same time is never read again.
No row is skipped when no group of equal times straddles the read's limit. -/

namespace Foundation.Hermes

/-- At this cursor the limit does not fall inside a group of equal times. -/
def WholeGroups (rows : List SourceRow) (limit : ℕ) (cursor : Time) : Prop :=
  ∀ t, rows.countP (fun row => decide (cursor < row.updatedAt ∧ row.updatedAt < t)) < limit →
    rows.countP (fun row => decide (cursor < row.updatedAt ∧ row.updatedAt ≤ t)) ≤ limit

namespace SweepLocals

structure Visited (cursor : Time) (rows : List SourceRow) (l : SweepLocals) : Prop where
  records : l.pushed ++ l.batch = rows.map SourceRow.record
  swept : l.swept = rows.length
  cursor_le : cursor ≤ l.next
  le_next : ∀ row ∈ rows, row.updatedAt ≤ l.next
  next_mem : l.next = cursor ∨ ∃ row ∈ rows, row.updatedAt = l.next

section visit
variable {cursor : Time} {rows : List SourceRow} {l : SweepLocals} {accepts : ℕ → Bool}

theorem Visited.flush (h : l.Visited cursor rows) : (l.flush accepts).1.Visited cursor rows := by
  unfold SweepLocals.flush
  split_ifs
  · exact h
  · exact ⟨by simpa using h.records, h.swept, h.cursor_le, h.le_next, h.next_mem⟩
  · exact ⟨h.records, h.swept, h.cursor_le, h.le_next, h.next_mem⟩

theorem flush_batch (h : (l.flush accepts).2 = false) : (l.flush accepts).1.batch = [] := by
  unfold SweepLocals.flush at h ⊢
  split_ifs at h ⊢ with hb
  · exact hb
  · rfl

theorem add_next (l : SweepLocals) (row : SourceRow) :
    (l.add row).next = max l.next row.updatedAt := by
  change (if row.updatedAt > l.next then row.updatedAt else l.next) = _
  rcases lt_or_ge l.next row.updatedAt with hlt | hge
  · rw [if_pos hlt, max_eq_right hlt.le]
  · rw [if_neg (not_lt.mpr hge), max_eq_left hge]

theorem Visited.add (h : l.Visited cursor rows) (row : SourceRow) :
    (l.add row).Visited cursor (rows ++ [row]) := by
  refine ⟨?_, by simp [SweepLocals.add, h.swept], ?_, ?_, ?_⟩
  · simp [SweepLocals.add, ← List.append_assoc, h.records]
  · rw [add_next]
    exact h.cursor_le.trans (le_max_left _ _)
  · rw [add_next]
    intro r hr
    rcases List.mem_append.mp hr with hr | hr
    · exact (h.le_next r hr).trans (le_max_left _ _)
    · rw [List.mem_singleton.mp hr]
      exact le_max_right _ _
  · rw [add_next]
    rcases max_choice l.next row.updatedAt with hm | hm
    · rw [hm]
      exact h.next_mem.imp_right fun ⟨r, hr, heq⟩ => ⟨r, List.mem_append_left _ hr, heq⟩
    · exact .inr ⟨row, by simp, hm.symm⟩

theorem Visited.visit (h : l.Visited cursor rows) (opts : MirrorSweepOptions) (row : SourceRow) :
    (l.visit opts accepts row).1.Visited cursor (rows ++ [row]) := by
  unfold SweepLocals.visit
  split_ifs
  · exact (h.add row).flush
  · exact h.add row

theorem visitAll_visited (opts : MirrorSweepOptions) (cursor : Time) (rows : List SourceRow) :
    (visitAll opts accepts { next := cursor } rows).Visited cursor rows := by
  induction rows using List.reverseRecOn with
  | nil => exact ⟨rfl, rfl, le_rfl, fun _ h => absurd h List.not_mem_nil, .inl rfl⟩
  | append_singleton rows row ih =>
    unfold visitAll at ih ⊢
    rw [List.foldl_append]
    exact ih.visit opts row

end visit

end SweepLocals

section pass
variable {opts : MirrorSweepOptions} {rows : List SourceRow} {limit : ℕ} {cursor : Time}
  {pass : SourcePass}

/-- A pass without an error has pushed what the source visited. -/
structure Converged (rows : List SourceRow) (limit : ℕ) (cursor : Time) (r : SweepResult) :
  Prop where
  read : ∃ read, Reads rows limit cursor read ∧ r.pushed = read.map SourceRow.record ∧
    r.swept = read.length ∧ (∀ row ∈ read, row.updatedAt ≤ r.next) ∧
    (r.next = cursor ∨ ∃ row ∈ read, row.updatedAt = r.next)
  cursor_le : cursor ≤ r.next

theorem sweepSource_converged (hserves : Serves rows limit cursor pass)
    (hok : (sweepSource opts cursor pass).failed = false) :
    Converged rows limit cursor (sweepSource opts cursor pass) := by
  obtain ⟨read, hread, -, hall⟩ := hserves
  have hvisited := @SweepLocals.visitAll_visited pass.accepts opts cursor pass.visited
  unfold sweepSource at hok ⊢
  simp only at hok ⊢
  cases hf : pass.failed with
  | true => simp [hf] at hok
  | false =>
    rw [hall hf] at hvisited
    simp only [hf, hall hf, Bool.false_eq_true, if_false] at hok ⊢
    cases hflush : (SweepLocals.flush pass.accepts
        (SweepLocals.visitAll opts pass.accepts { next := cursor } read)).2 with
    | true => simp [hflush] at hok
    | false =>
      have hv := @SweepLocals.Visited.flush _ _ _ pass.accepts hvisited
      have hrec := hv.records
      rw [SweepLocals.flush_batch hflush, List.append_nil] at hrec
      exact ⟨⟨read, hread, hrec, hv.swept, hv.le_next, hv.next_mem⟩, hv.cursor_le⟩

theorem Reads.mem {read : List SourceRow} (h : Reads rows limit cursor read) {row : SourceRow}
    (hr : row ∈ read) : row ∈ rows ∧ cursor < row.updatedAt := by
  obtain ⟨all, hperm, -, rfl⟩ := h
  simpa using hperm.mem_iff.mp (List.mem_of_mem_take hr)

/-- A read that keeps groups whole holds every row up to its latest time. -/
theorem Reads.complete {read : List SourceRow} (h : Reads rows limit cursor read)
    (hwhole : WholeGroups rows limit cursor) {last row : SourceRow} (hlast : last ∈ read)
    (hmax : ∀ r ∈ read, r.updatedAt ≤ last.updatedAt) (hrow : row ∈ rows)
    (hc : cursor < row.updatedAt) (hle : row.updatedAt ≤ last.updatedAt) : row ∈ read := by
  obtain ⟨all, hperm, hsorted, rfl⟩ := h
  have hcount : ∀ p : SourceRow →
      Bool, rows.countP (fun r => decide (cursor < r.updatedAt) && p r) =
      (all.take limit).countP p + (all.drop limit).countP p := by
    intro p
    rw [← List.countP_append, List.take_append_drop, hperm.countP_eq, List.countP_filter]
    exact List.countP_congr fun r _ => by rw [Bool.and_comm]
  have hall : row ∈ all := hperm.mem_iff.mpr (by simpa using ⟨hrow, hc⟩)
  rw [← List.take_append_drop limit all] at hall hsorted
  refine (List.mem_append.mp hall).resolve_right fun hdrop => ?_
  have hcross := (List.pairwise_append.mp hsorted).2.2
  have hfull : (all.take limit).length = limit := by
    rw [List.length_take]
    have : 0 < (all.drop limit).length := List.length_pos_of_mem hdrop
    rw [List.length_drop] at this
    omega
  -- before the latest time there are fewer rows than the read holds, since `last` is one of those
  have hbefore : (all.take limit).countP (fun r => decide (r.updatedAt < last.updatedAt)) <
      limit := by
    refine lt_of_lt_of_eq ?_ hfull
    exact List.countP_lt_length_iff.mpr ⟨last, hlast, by simp⟩
  have hbehind : (all.drop limit).countP (fun r => decide (r.updatedAt < last.updatedAt)) = 0 := by
    refine List.countP_eq_zero.mpr fun r hr => ?_
    simpa using hcross last hlast r hr
  have hupto : limit < (all.take limit).countP (fun r => decide (r.updatedAt ≤ last.updatedAt)) +
      (all.drop limit).countP (fun r => decide (r.updatedAt ≤ last.updatedAt)) := by
    have hread : (all.take limit).countP (fun r => decide (r.updatedAt ≤ last.updatedAt)) =
        limit := by
      exact (List.countP_eq_length.mpr fun r hr => by simpa using hmax r hr).trans hfull
    have hmore : 0 < (all.drop limit).countP (fun r => decide (r.updatedAt ≤ last.updatedAt)) :=
      List.countP_pos_iff.mpr ⟨row, hdrop, by simpa using hle⟩
    omega
  have hgroup := hwhole last.updatedAt
  simp only [Bool.decide_and, hcount, hbehind, Nat.add_zero] at hgroup
  exact absurd (hgroup hbefore) (not_le.mpr hupto)

end pass

section run
variable {opts : MirrorSweepOptions} {rows : List SourceRow} {limit : ℕ}
  {src : MirrorSource} {n : ℕ}

structure Caught (rows : List SourceRow) (src : MirrorSource) (n : ℕ) : Prop where
  pushed : ∀ row ∈ rows, 0 < row.updatedAt → row.updatedAt ≤ src.cursor → row.record ∈ src.pushed
  nonneg : 0 ≤ src.cursor
  ahead : n + rows.countP (fun row => decide (src.cursor < row.updatedAt)) ≤ rows.length

theorem Caught.sweep (h : Caught rows src n) {pass : SourcePass}
    (hserves : Serves rows limit src.cursor pass) (hwhole : WholeGroups rows limit src.cursor) :
    Caught rows (sweepOne opts src pass)
      (if (sweepSource opts src.cursor pass).failed = false ∧
        0 < (sweepSource opts src.cursor pass).swept
        then n + 1 else n) := by
  have hkeep : ∀ row ∈ rows, 0 < row.updatedAt → row.updatedAt ≤ src.cursor →
      row.record ∈ (sweepOne opts src pass).pushed := fun row hr h0 hle =>
    List.mem_append_left _ (h.pushed row hr h0 hle)
  cases hf : (sweepSource opts src.cursor pass).failed with
  | true =>
    have hcur : (sweepOne opts src pass).cursor = src.cursor := by simp [sweepOne, hf]
    refine ⟨hcur.symm ▸ hkeep, hcur.symm ▸ h.nonneg, ?_⟩
    simpa [hcur] using h.ahead
  | false =>
    have hcur : (sweepOne opts src pass).cursor = (sweepSource opts src.cursor pass).next := by
      simp [sweepOne, hf]
    obtain ⟨⟨read, hread, hpushed, hswept, hle, hmem⟩, hcle⟩ := sweepSource_converged hserves hf
    rw [← hcur] at hle hmem hcle
    refine ⟨fun row hr h0 hrow => ?_, h.nonneg.trans hcle, ?_⟩
    · by_cases hold : row.updatedAt ≤ src.cursor
      · exact hkeep row hr h0 hold
      · rcases hmem with heq | ⟨last, hlast, heq⟩
        · exact absurd (heq ▸ hrow) hold
        · have hin := hread.complete hwhole hlast (fun r hr => heq ▸ hle r hr) hr (not_le.mp hold)
            (heq ▸ hrow)
          refine List.mem_append_right _ ?_
          rw [hpushed]
          exact List.mem_map_of_mem hin
    · have hfewer : ∀ l : List SourceRow,
          l.countP (fun row => decide ((sweepOne opts src pass).cursor < row.updatedAt)) ≤
            l.countP (fun row => decide (src.cursor < row.updatedAt)) := fun l =>
        List.countP_mono_left fun row _ hlt => by
          simp only [decide_eq_true_eq] at hlt ⊢
          exact hcle.trans_lt hlt
      have hahead := h.ahead
      split_ifs with hsome
      · -- a row that was read is behind the new cursor
        have hlt :
            rows.countP (fun row => decide ((sweepOne opts src pass).cursor < row.updatedAt)) <
            rows.countP (fun row => decide (src.cursor < row.updatedAt)) := by
          obtain ⟨row, hrow⟩ := List.exists_mem_of_length_pos (hswept ▸ hsome.2)
          obtain ⟨hin, hafter⟩ := hread.mem hrow
          obtain ⟨l₁, l₂, rfl⟩ := List.append_of_mem hin
          have h₁ := hfewer l₁
          have h₂ := hfewer l₂
          have hbehind := not_lt.mpr (hle row hrow)
          simp only [List.countP_append, List.countP_cons, decide_eq_true_eq, hafter,
            hbehind, if_true,
            if_false]
          omega
        omega
      · have := hfewer rows
        omega

theorem Passes.caught (h : Passes opts rows limit (WholeGroups rows limit) src n) :
    Caught rows src n := by
  induction h with
  | start =>
    refine ⟨fun row _ h0 hle => absurd hle (not_le.mpr h0), le_rfl, ?_⟩
    rw [Nat.zero_add]
    exact List.countP_le_length
  | sweep _ hserves hwhole ih => exact ih.sweep hserves hwhole

end run

/-- Repeated passes over a source, from the zero cursor, none of whose limits falls inside a group
of equal times: no more of them sweep something without an error than there are rows; and once one
of them sweeps nothing without an error, every row with a time has been pushed. -/
theorem Passes.every_row_pushed {opts : MirrorSweepOptions} {rows : List SourceRow} {limit : ℕ}
    (hlimit : 1 ≤ limit) (htimes : ∀ row ∈ rows, 0 ≤ row.updatedAt) {src : MirrorSource} {n : ℕ}
    (h : Passes opts rows limit (WholeGroups rows limit) src n) :
    n ≤ rows.length ∧ ∀ pass, Serves rows limit src.cursor pass →
      (sweepSource opts src.cursor pass).failed = false →
        (sweepSource opts src.cursor pass).swept = 0 →
      ∀ row ∈ rows, row.updatedAt ≠ 0 → row.record ∈ src.pushed := by
  refine ⟨(Nat.le_add_right _ _).trans h.caught.ahead, fun pass hserves hok hnone row hr hne => ?_⟩
  obtain ⟨⟨read, hread, -, hswept, -⟩, -⟩ := sweepSource_converged hserves hok
  have hempty : read = [] := List.eq_nil_of_length_eq_zero (hswept.symm.trans hnone)
  have hpos : 0 < row.updatedAt := lt_of_le_of_ne (htimes row hr) (Ne.symm hne)
  refine h.caught.pushed row hr hpos (not_lt.mp fun hlt => ?_)
  obtain ⟨all, hperm, -, hall⟩ := hread
  have hin : row ∈ all := hperm.mem_iff.mpr (by simpa using ⟨hr, hlt⟩)
  rw [hempty, eq_comm, List.take_eq_nil_iff] at hall
  rcases hall with hzero | hnil
  · omega
  · rw [hnil] at hin
    cases hin

def tiedRow (id : String) : SourceRow where
  record := { domain := "shop", collection := "orders", organizationID := "acme", recordID := id }
  updatedAt := 1

def passOver (visited : List SourceRow) : SourcePass :=
  { visited, failed := false, accepts := fun _ => true }

/-- Two rows of one time and a limit of one: the second is not read in the pass that takes the
first, and is behind the cursor in the next, which sweeps nothing. -/
theorem tied_row_skipped : ∃ src n pass,
    Passes {} [tiedRow "1", tiedRow "2"] 1 (fun _ => True) src n ∧
    Serves [tiedRow "1", tiedRow "2"] 1 src.cursor pass ∧
    (sweepSource {} src.cursor pass).failed = false ∧ (sweepSource {} src.cursor pass).swept = 0 ∧
    (tiedRow "2").updatedAt ≠ 0 ∧ (tiedRow "2").record ∉ src.pushed := by
  have hfirst : Serves [tiedRow "1", tiedRow "2"] 1 0 (passOver [tiedRow "1"]) :=
    ⟨[tiedRow "1"], ⟨[tiedRow "1", tiedRow "2"], .refl _, by decide, rfl⟩, List.prefix_refl _,
      fun _ => rfl⟩
  refine ⟨_, _, passOver [], .sweep .start hfirst trivial,
    ?_, by decide, by decide, by decide, by decide⟩
  exact ⟨[], ⟨[], by decide, .nil, rfl⟩, List.prefix_refl _, fun _ => rfl⟩

/-- With room for both they are pushed. -/
theorem tied_rows_pushed :
    1 ≤ 2 ∧ (sweepSource {} 1 (passOver [])).swept = 0 ∧
      ∀ row ∈ [tiedRow "1", tiedRow "2"], row.updatedAt ≠ 0 →
        row.record ∈ (sweepOne {} {} (passOver [tiedRow "1", tiedRow "2"])).pushed := by
  have hfirst : Serves [tiedRow "1", tiedRow "2"] 2 0 (passOver [tiedRow "1", tiedRow "2"]) :=
    ⟨_, ⟨[tiedRow "1", tiedRow "2"], .refl _, by decide, rfl⟩, List.prefix_refl _, fun _ => rfl⟩
  have hsecond : Serves [tiedRow "1", tiedRow "2"] 2 1 (passOver []) :=
    ⟨[], ⟨[], by decide, .nil, rfl⟩, List.prefix_refl _, fun _ => rfl⟩
  have hwhole : WholeGroups [tiedRow "1", tiedRow "2"] 2 0 := fun t _ => List.countP_le_length
  refine ⟨by decide, by decide, ?_⟩
  exact (Passes.every_row_pushed (by decide) (by decide) (.sweep .start hfirst hwhole)).2
    (passOver [])
    hsecond (by decide) (by decide)

end Foundation.Hermes
