import Foundation.Lib.Reached
import Mathlib.Tactic

/-! `createTenantSnapshotPersistence` (`runtimeWorkbench.ts`), started, with one call of
`resetSession`. The reactions to `pendingWrite` run in the order in which they were added, so the
chain is a queue of jobs. A record stands for itself by the number of those that were brought into
the store before it. -/

namespace Foundation.TenantPersistence

inductive Job where
  | persist
  | reset
deriving DecidableEq, Repr

/-- `chained` and `explicit` are the writes that wait for the storage, `removing` the removal that
does. `resetAt` is the number of records that had been in the store when it was reset. -/
structure State where
  store : List ℕ := []
  brought : ℕ := 0
  chain : List Job := []
  chained : Option (List ℕ) := none
  explicit : List (List ℕ) := []
  called : Bool := false
  resetAt : Option ℕ := none
  removing : Bool := false
  resolved : Bool := false
  storage : Option (List ℕ) := none
deriving DecidableEq, Repr

inductive Event where
  | change (keep : ℕ → Bool) (added : ℕ)
  | persist
  | resetSession
  | next
  | chainedSettles (ok : Bool)
  | explicitSettles (index : ℕ) (ok : Bool)
  | removalSettles (ok : Bool)

/-- The state that `persist` gives to the storage, unless the bound is exceeded. -/
def snapshot (maxRecords : ℕ) (s : State) : Option (List ℕ) :=
  if s.store.length > maxRecords then none else some s.store

def step (maxRecords : ℕ) (s : State) : Event → Option State
  | .change keep added => some { s with
      store := s.store.filter keep ++ (List.range added).map (s.brought + ·)
      brought := s.brought + added
      chain := s.chain ++ [.persist] }
  | .persist => some { s with explicit := s.explicit ++ (snapshot maxRecords s).toList }
  | .resetSession =>
    if s.called then none else some { s with called := true, chain := s.chain ++ [.reset] }
  | .next =>
    match s.chained, s.chain with
    | none, .persist :: rest => some { s with chain := rest, chained := snapshot maxRecords s }
    -- Persistence is suppressed while the store is reset, so nothing joins the chain.
    | none, .reset :: rest =>
      some { s with chain := rest, store := [], resetAt := some s.brought, removing := true }
    | _, _ => none
  | .chainedSettles ok => s.chained.map fun records =>
      { s with chained := none, storage := if ok then some records else s.storage }
  | .explicitSettles index ok => s.explicit[index]?.map fun records =>
      { s with
        explicit := s.explicit.eraseIdx index,
        storage := if ok then some records else s.storage }
  | .removalSettles ok =>
    if s.removing then
      some { s with removing := false, resolved := ok, storage := if ok then none else s.storage }
    else none

end Foundation.TenantPersistence
