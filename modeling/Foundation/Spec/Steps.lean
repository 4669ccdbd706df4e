import Foundation.Spec.Partition

/-! The calls a partition takes, one after the other under its lock. -/

namespace Foundation.Hermes.Partition

inductive Step where
  | applyBatch (env : Env) (events : List Event)
  | applyRecords (env : Env) (sourcePrefix : String) (baseVersion : ℕ) (records : List DomainRecord)
  | bulkLoad (env : Env) (records : List DomainRecord)

/-- The partition after a call. A bulk load that fails leaves it as it was. -/
def exec (p : Partition) : Step → Partition
  | .applyBatch env events => if env.ctxDone 0 then p else (p.applyBatchObserving env events).part
  | .applyRecords env sourcePrefix baseVersion records =>
    if env.ctxDone 0 then p else (p.applyRecords env sourcePrefix baseVersion records).part
  | .bulkLoad env records =>
    if env.ctxDone 0 then p
    else match p.bulkLoad env records with
      | .error _ => p
      | .ok (q, _) => q

def execAll (p : Partition) (steps : List Step) : Partition := steps.foldl exec p

/-- The states a partition reaches by calls that all meet `C`. -/
inductive Reach (C : Partition → Step → Prop) (spec : NormalSpec) : Partition → Prop
  | start : Reach C spec (newPartition spec)
  | step {p : Partition} (s : Step) : Reach C spec p → C p s → Reach C spec (p.exec s)

end Foundation.Hermes.Partition
