import Foundation.Spec.TenantPersistence

/-! What a session reset leaves on the device. The chain has finished its writes when the store is
reset and takes the later ones from the store after it; an explicit write takes no part in that
order. -/

namespace Foundation.TenantPersistence

variable {maxRecords : ℕ} {s s' : State}

/-- Records that came to the store after the reset. -/
def Later (m : ℕ) (records : List ℕ) : Prop := ∀ r ∈ records, m ≤ r

structure Wiped (m : ℕ) (s : State) : Prop where
  brought : m ≤ s.brought
  store : Later m s.store
  chained : ∀ records ∈ s.chained, Later m records
  explicit : ∀ records ∈ s.explicit, Later m records
  storage : s.resolved = true → ∀ records ∈ s.storage, Later m records

structure Inv (s : State) : Prop where
  once : s.chain.count .reset + s.resetAt.isSome.toNat ≤ s.called.toNat
  before : s.resetAt = none → s.removing = false ∧ s.resolved = false
  after : ∀ m ∈ s.resetAt, Wiped m s

/-- When the store is reset no explicit write waits for the storage. -/
def ExplicitDone (s : State) (e : Event) : Prop :=
  e = .next → s.chain.head? = some .reset → s.explicit = []

theorem mem_snapshot {records : List ℕ} (h : records ∈ snapshot maxRecords s) :
    records = s.store := by
  unfold snapshot at h
  split_ifs at h
  · cases h
  · exact (Option.some.inj h).symm

theorem Inv.reset (h : Inv s) {rest : List Job} (hchain : s.chain = .reset :: rest)
    (hchained : s.chained = none) (hexplicit : s.explicit = []) :
    Inv { s with chain := rest, store := [], resetAt := some s.brought, removing := true } := by
  have honce := h.once
  rw [hchain, List.count_cons_self] at honce
  have hnone : s.resetAt = none := by
    cases hr : s.resetAt with
    | none => rfl
    | some m =>
      have := Bool.toNat_le s.called
      simp only [hr, Option.isSome_some, Bool.toNat_true] at honce
      omega
  refine ⟨?_, by simp, ?_⟩
  · simp only [hnone, Option.isSome_none, Option.isSome_some, Bool.toNat_true,
      Bool.toNat_false] at honce ⊢
    omega
  · rintro m ⟨⟩
    refine ⟨le_rfl, ?_, ?_, ?_, ?_⟩ <;> simp [Later, hchained, hexplicit, (h.before hnone).2]

theorem Inv.step {e : Event} (h : Inv s) (he : ExplicitDone s e)
    (hs : step maxRecords s e = some s') : Inv s' := by
  obtain ⟨honce, hbefore, hafter⟩ := h
  cases e with
  | change keep added =>
    obtain rfl := Option.some.inj hs
    refine ⟨by simpa using honce, hbefore, fun m hm => ?_⟩
    obtain ⟨hbrought, hstore, hchained, hexplicit, hstorage⟩ := hafter m hm
    refine ⟨hbrought.trans (Nat.le_add_right _ _), fun r hr => ?_, hchained, hexplicit, hstorage⟩
    obtain hr | hr := List.mem_append.mp hr
    · exact hstore r (List.mem_of_mem_filter hr)
    · obtain ⟨i, -, rfl⟩ := List.mem_map.mp hr
      exact hbrought.trans (Nat.le_add_right _ _)
  | persist =>
    obtain rfl := Option.some.inj hs
    refine ⟨honce, hbefore, fun m hm => ?_⟩
    obtain ⟨hbrought, hstore, hchained, hexplicit, hstorage⟩ := hafter m hm
    refine ⟨hbrought, hstore, hchained, fun records hr => ?_, hstorage⟩
    obtain hr | hr := List.mem_append.mp hr
    · exact hexplicit records hr
    · exact mem_snapshot (Option.mem_toList.mp hr) ▸ hstore
  | resetSession =>
    rw [TenantPersistence.step] at hs
    split_ifs at hs with hcalled
    obtain rfl := Option.some.inj hs
    simp only [hcalled, Bool.toNat_false] at honce
    refine ⟨?_, hbefore, fun m hm => ?_⟩
    · simp only [List.count_append, List.count_singleton_self, Bool.toNat_true]
      omega
    · obtain ⟨hbrought, hstore, hchained, hexplicit, hstorage⟩ := hafter m hm
      exact ⟨hbrought, hstore, hchained, hexplicit, hstorage⟩
  | next =>
    dsimp only [TenantPersistence.step] at hs
    split at hs
    · next rest _ hchain =>
      obtain rfl := Option.some.inj hs
      refine ⟨by simpa [hchain] using honce, hbefore, fun m hm => ?_⟩
      obtain ⟨hbrought, hstore, -, hexplicit, hstorage⟩ := hafter m hm
      exact ⟨hbrought, hstore, fun records hr => mem_snapshot hr ▸ hstore, hexplicit, hstorage⟩
    · next rest hchained hchain =>
      obtain rfl := Option.some.inj hs
      exact Inv.reset ⟨honce, hbefore, hafter⟩ hchain hchained
        (he rfl (by rw [hchain, List.head?_cons]))
    · cases hs
  | chainedSettles ok =>
    obtain ⟨records, hrecords, rfl⟩ := Option.map_eq_some_iff.mp hs
    refine ⟨honce, hbefore, fun m hm => ?_⟩
    obtain ⟨hbrought, hstore, hchained, hexplicit, hstorage⟩ := hafter m hm
    refine ⟨hbrought, hstore, by simp, hexplicit, fun hresolved stored hstored => ?_⟩
    dsimp only at hstored
    split_ifs at hstored
    · exact Option.some.inj hstored ▸ hchained records hrecords
    · exact hstorage hresolved stored hstored
  | explicitSettles index ok =>
    obtain ⟨records, hrecords, rfl⟩ := Option.map_eq_some_iff.mp hs
    refine ⟨honce, hbefore, fun m hm => ?_⟩
    obtain ⟨hbrought, hstore, hchained, hexplicit, hstorage⟩ := hafter m hm
    refine ⟨hbrought, hstore, hchained, fun r hr => hexplicit r (List.mem_of_mem_eraseIdx hr),
      fun hresolved stored hstored => ?_⟩
    dsimp only at hstored
    split_ifs at hstored
    · exact Option.some.inj hstored ▸ hexplicit records (List.mem_of_getElem? hrecords)
    · exact hstorage hresolved stored hstored
  | removalSettles ok =>
    dsimp only [TenantPersistence.step] at hs
    by_cases hremoving : s.removing = true
    · rw [if_pos hremoving] at hs
      obtain rfl := Option.some.inj hs
      refine ⟨honce, fun hnone => ?_, fun m hm => ?_⟩
      · simp [(hbefore hnone).1] at hremoving
      · obtain ⟨hbrought, hstore, hchained, hexplicit, -⟩ := hafter m hm
        refine ⟨hbrought, hstore, hchained, hexplicit, fun hresolved => ?_⟩
        obtain rfl : ok = true := hresolved
        simp
    · rw [if_neg hremoving] at hs
      cases hs

def started (k : ℕ) (stored : Option (List ℕ)) : State :=
  { store := List.range k, brought := k, storage := stored }

/-- If no explicit write waits for the storage when the store is reset, then once `resetSession` has
resolved nothing that is stored has a record from before. -/
theorem reset_wipes_storage (maxRecords k : ℕ) (stored : Option (List ℕ)) {s : State}
    (h : Reached (step maxRecords) ExplicitDone (started k stored) s)
    (hresolved : s.resolved = true) :
    ∃ m, s.resetAt = some m ∧ ∀ records ∈ s.storage, ∀ r ∈ records, m ≤ r := by
  have hinv : Inv s := by
    refine h.invariant ⟨?_, ?_, ?_⟩ fun _ _ _ he hs hinv => hinv.step he hs <;> simp [started]
  cases hm : s.resetAt with
  | none => simp [(hinv.before hm).2] at hresolved
  | some m => exact ⟨m, rfl, (hinv.after m hm).storage hresolved⟩

def explicitDone (s : State) : Event → Bool
  | .next => s.chain.head? ≠ some .reset || s.explicit.isEmpty
  | _ => true

/-- A change while `resetSession` waits is written after the reset, without what was there before.
-/
theorem change_during_reset_wiped :
    ∃ s, Reached (step 10) ExplicitDone (started 2 none) s ∧ s.resolved = true ∧
      s.storage = some [3] ∧
      ∃ m, s.resetAt = some m ∧ ∀ records ∈ s.storage, ∀ r ∈ records, m ≤ r := by
  obtain ⟨s, hs, hp⟩ := Reached.exists_of_run (step 10) (C := ExplicitDone) explicitDone
    (fun s => decide (s.resolved = true ∧ s.storage = some [3])) (started 2 none)
    [.change (fun _ => true) 0, .next, .resetSession, .change (fun _ => true) 1,
      .chainedSettles true, .next,
      .change (fun _ => true) 1, .next, .removalSettles true, .chainedSettles true]
    (fun s e he heq hreset => by subst heq; simpa [explicitDone, hreset] using he)
      (by decide +kernel) (by decide +kernel)
  obtain ⟨hresolved, hstorage⟩ := of_decide_eq_true hp
  exact ⟨s, hs, hresolved, hstorage, reset_wipes_storage 10 2 none hs hresolved⟩

/-- An explicit write that the storage completes after the removal brings the session back. -/
theorem explicit_write_outlives_reset :
    ∃ s, Reached (step 10) (fun _ _ => True) (started 1 none) s ∧ s.resolved = true ∧
      s.explicit = [] ∧ s.chain = [] ∧
      s.chained = none ∧ s.resetAt = some 1 ∧ s.storage = some [0] := by
  obtain ⟨s, hs, hp⟩ := Reached.exists_of_run (step 10) (C := fun _ _ => True) (fun _ _ => true)
    (fun s => decide (s.resolved = true ∧ s.explicit = [] ∧ s.chain = [] ∧ s.chained = none ∧
      s.resetAt = some 1 ∧
      s.storage = some [0])) (started 1 none)
    [.persist, .resetSession, .next, .removalSettles true, .explicitSettles 0 true]
      (fun _ _ _ => trivial)
    (by decide +kernel) (by decide +kernel)
  exact ⟨s, hs, of_decide_eq_true hp⟩

end Foundation.TenantPersistence
