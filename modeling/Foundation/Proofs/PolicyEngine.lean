import Foundation.Spec.PolicyEngine

/-! The engine's list is always in evaluation order, and what `Evaluate` decides does not depend on
that order: a deny that matches wins, and without one any allow does. -/

namespace Foundation.PolicyEngine

/-! ### The list -/

/-- A present policy with the number of the call that added it. -/
structure Entry where
  call : ℕ
  policy : Policy

/-- Higher priorities first, and among equals the earlier call. -/
def Entry.Before (a b : Entry) : Prop :=
  b.policy.priority < a.policy.priority ∨ a.policy.priority = b.policy.priority ∧ a.call < b.call

/-- The present policies in the engine's order, each as the call that added it gave it. -/
structure Ordered (ops : List Op) (policies : List Policy) (entries : List Entry) : Prop where
  present : entries.map Entry.policy = policies
  added : ∀ a ∈ entries, ∃ p, ops[a.call]? = some (.add p) ∧ a.policy = p.stored
  order : entries.Pairwise Entry.Before

variable {ops : List Op} {policies : List Policy} {entries : List Entry} {e : Engine}

theorem Ordered.call_lt (h : Ordered ops policies entries) {a : Entry} (ha : a ∈ entries) :
    a.call < ops.length := by
  obtain ⟨p, hp, -⟩ := h.added a ha
  exact (List.getElem?_eq_some_iff.mp hp).1

theorem Ordered.added_snoc (h : Ordered ops policies entries) (op : Op) {a : Entry}
    (ha : a ∈ entries) : ∃ p, (ops ++ [op])[a.call]? = some (.add p) ∧ a.policy = p.stored := by
  obtain ⟨p, hp, hpolicy⟩ := h.added a ha
  exact ⟨p, by rw [List.getElem?_append_left (h.call_lt ha), hp], hpolicy⟩

theorem Entry.Before.priority_le {a b : Entry} (h : a.Before b) :
    b.policy.priority ≤ a.policy.priority := by
  rcases h with h | h
  · exact h.le
  · exact h.1.ge

theorem Ordered.add (h : Ordered ops e.policies entries) (p : Policy) :
    ∃ entries', Ordered (ops ++ [.add p]) (e.addPolicy p).policies entries' := by
  refine ⟨BackwardPass.pass (fun a => a.policy.priority) (entries ++ [⟨ops.length, p.stored⟩]), ?_,
    fun a ha => ?_, ?_⟩
  · rw [BackwardPass.map_pass Policy.priority Entry.policy, List.map_append, h.present]
    rfl
  · rw [(BackwardPass.pass_perm _ _).mem_iff, List.mem_append, List.mem_singleton] at ha
    rcases ha with ha | rfl
    · exact h.added_snoc _ ha
    · exact ⟨p, List.getElem?_concat_length, rfl⟩
  · refine BackwardPass.pairwise_pass (fun _ _ hab => hab.priority_le) h.order (fun a ha hle => ?_)
      fun _ _ hlt => .inl hlt
    rcases lt_or_eq_of_le hle with hlt | heq
    · exact .inl hlt
    · exact .inr ⟨heq.symm, h.call_lt ha⟩

theorem Ordered.remove (h : Ordered ops e.policies entries) (id : String) :
    ∃ entries', Ordered (ops ++ [.remove id]) (e.removePolicy id).policies entries' := by
  have hsub : (entries.eraseP fun a => a.policy.id = id).Sublist entries := List.eraseP_sublist
  refine ⟨entries.eraseP fun a => a.policy.id = id, ?_, fun a ha => h.added_snoc _ (hsub.subset ha),
    h.order.sublist hsub⟩
  rw [Engine.removePolicy, ← h.present, List.eraseP_map]
  rfl

theorem exists_ordered (ops : List Op) :
    ∃ entries, Ordered ops (newEngine.run ops).policies entries := by
  induction ops using List.reverseRecOn with
  | nil => exact ⟨[], rfl, nofun, .nil⟩
  | append_singleton ops op ih =>
    obtain ⟨entries, h⟩ := ih
    rw [Engine.run, List.foldl_append]
    cases op with
    | add p => exact h.add p
    | remove id => exact h.remove id

/-! ### The decision -/

variable (go : GoLibrary) (req : Request)

def Denies (p : Policy) : Prop := p.effect = .deny ∧ matched go p req = true

def Allows (p : Policy) : Prop := p.effect ≠ .deny ∧ matched go p req = true

instance : DecidablePred (Allows go req) := fun _ => inferInstanceAs (Decidable (_ ∧ _))

variable {go req}

theorem evaluateLoop_deny (h : ∃ p ∈ policies, Denies go req p) (seen : Option Policy)
    (diagnostics : List String) :
    (evaluateLoop go req seen diagnostics policies).decision = .deny := by
  induction policies generalizing seen diagnostics with
  | nil =>
    obtain ⟨p, hp, -⟩ := h
    cases hp
  | cons q rest ih =>
    obtain ⟨p, hp, hdeny⟩ := h
    rw [evaluateLoop]
    rcases List.mem_cons.mp hp with rfl | hp
    · have hm : (matchPolicy go p req).1 = true := hdeny.2
      rw [if_pos hm, if_pos hdeny.1]
    · split_ifs
      · rfl
      · exact ih ⟨p, hp, hdeny⟩ _ _
      · exact ih ⟨p, hp, hdeny⟩ _ _

/-- Without a deny the loop ends with the first allow. -/
theorem evaluateLoop_of_no_deny (h : ∀ p ∈ policies, ¬ Denies go req p) (seen : Option Policy)
    (diagnostics : List String) : ∃ diagnostics', evaluateLoop go req seen diagnostics policies =
      evaluateLoop go req (seen.or (policies.find? (Allows go req ·))) diagnostics' [] := by
  induction policies generalizing seen diagnostics with
  | nil => exact ⟨diagnostics, by rw [List.find?_nil, Option.or_none]⟩
  | cons p rest ih =>
    have hrest : ∀ q ∈ rest, ¬ Denies go req q := fun q hq => h q (.tail _ hq)
    rw [evaluateLoop]
    by_cases hm : (matchPolicy go p req).1 = true
    · have heffect : p.effect ≠ .deny := fun hd => h p (.head _) ⟨hd, hm⟩
      have hallow : Allows go req p := ⟨heffect, hm⟩
      rw [if_pos hm, if_neg heffect, List.find?_cons_of_pos (by exact decide_eq_true hallow)]
      obtain ⟨diagnostics', heq⟩ := ih hrest (seen.or (some p)) _
      refine ⟨diagnostics', heq.trans ?_⟩
      cases seen <;> rfl
    · have hnot : ¬ Allows go req p := fun ha => hm ha.2
      rw [if_neg hm, List.find?_cons_of_neg (by rw [decide_eq_true_eq]; exact hnot)]
      exact ih hrest seen _

theorem Engine.evaluate_of_no_deny (h : ∀ p ∈ e.policies, ¬ Denies go req p) :
    (∀ p, e.policies.find? (Allows go req ·) = some p → (e.evaluate go req).decision = .allow ∧
      (e.evaluate go req).policyId = p.id) ∧
    (e.policies.find? (Allows go req ·) = none → (e.evaluate go req).decision = .deny) := by
  obtain ⟨diagnostics, heq⟩ := evaluateLoop_of_no_deny h none []
  rw [Option.none_or] at heq
  refine ⟨fun p hp => ?_, fun hnone => ?_⟩
  · rw [Engine.evaluate, heq, hp]
    exact ⟨rfl, rfl⟩
  · rw [Engine.evaluate, heq, hnone]
    rfl

theorem Engine.evaluate_deny_iff (e : Engine) : (e.evaluate go req).decision = .deny ↔
    (∃ p ∈ e.policies, Denies go req p) ∨ ¬ ∃ p ∈ e.policies, Allows go req p := by
  by_cases hdeny : ∃ p ∈ e.policies, Denies go req p
  · exact iff_of_true (evaluateLoop_deny hdeny _ _) (.inl hdeny)
  · have hnone : ∀ p ∈ e.policies, ¬ Denies go req p := fun p hp hd => hdeny ⟨p, hp, hd⟩
    obtain ⟨hsome, hdefault⟩ := Engine.evaluate_of_no_deny hnone
    cases hfind : e.policies.find? (Allows go req ·) with
    | some p =>
      have hp := List.find?_some hfind
      rw [decide_eq_true_eq] at hp
      have hallow : ∃ p ∈ e.policies, Allows go req p := ⟨p, List.mem_of_find?_eq_some hfind, hp⟩
      exact iff_of_false (by rw [(hsome p hfind).1]; exact nofun)
        (fun h => h.elim hdeny fun hno => hno hallow)
    | none =>
      refine iff_of_true (hdefault hfind) (.inr fun hallow => ?_)
      obtain ⟨p, hp, ha⟩ := hallow
      exact List.find?_eq_none.mp hfind p hp (decide_eq_true ha)

theorem Engine.evaluate_allow (h : (e.evaluate go req).decision = .allow) :
    ∃ p, e.policies.find? (Allows go req ·) = some p ∧ (e.evaluate go req).policyId = p.id := by
  have hno : ∀ p ∈ e.policies, ¬ Denies go req p := by
    intro p hp hd
    rw [e.evaluate_deny_iff.mpr (.inl ⟨p, hp, hd⟩)] at h
    cases h
  obtain ⟨hsome, hdefault⟩ := Engine.evaluate_of_no_deny hno
  cases hfind : e.policies.find? (Allows go req ·) with
  | some p => exact ⟨p, rfl, (hsome p hfind).2⟩
  | none =>
    rw [hdefault hfind] at h
    cases h

def Policy.unranked (p : Policy) : Policy := { p with priority := 0 }

theorem denies_unranked (p : Policy) : Denies go req p.unranked ↔ Denies go req p := Iff.rfl

theorem allows_unranked (p : Policy) : Allows go req p.unranked ↔ Allows go req p := Iff.rfl

theorem exists_mem_map_unranked {P : Policy → Prop} (hP : ∀ p, P p.unranked ↔ P p)
    (l : List Policy) : (∃ p ∈ l.map Policy.unranked, P p) ↔ ∃ p ∈ l, P p := by
  simp only [List.mem_map, exists_exists_and_eq_and, hP]

theorem Engine.evaluate_unranked {e e' : Engine}
    (h : (e.policies.map Policy.unranked).Perm (e'.policies.map Policy.unranked)) :
    (e.evaluate go req).decision = (e'.evaluate go req).decision := by
  have hiff : (e.evaluate go req).decision = .deny ↔ (e'.evaluate go req).decision = .deny := by
    rw [e.evaluate_deny_iff, e'.evaluate_deny_iff, ← exists_mem_map_unranked denies_unranked,
      ← exists_mem_map_unranked allows_unranked,
      ← exists_mem_map_unranked denies_unranked e'.policies,
      ← exists_mem_map_unranked allows_unranked e'.policies]
    simp only [h.mem_iff]
  cases hd : (e.evaluate go req).decision <;> cases hd' : (e'.evaluate go req).decision
  · rfl
  · exact absurd (hiff.mpr hd') (by rw [hd]; exact nofun)
  · exact absurd (hiff.mp hd) (by rw [hd']; exact nofun)
  · rfl

/-- After any calls the list is in order, an added policy joins it, a removal takes out the first
one of its id and nothing else, and the decision is that of the set of policies present. -/
theorem deny_overrides (go : GoLibrary) (ops : List Op) :
    (∃ entries, Ordered ops (newEngine.run ops).policies entries) ∧
    (∀ p, (newEngine.run (ops ++ [.add p])).policies.Perm
      (p.stored :: (newEngine.run ops).policies)) ∧
    (∀ id, (newEngine.run (ops ++ [.remove id])).policies = (newEngine.run ops).policies.eraseP
      (·.id = id)) ∧
    ∀ req, let result := (newEngine.run ops).evaluate go req
      (result.decision = .deny ↔ (∃ p ∈ (newEngine.run ops).policies, Denies go req p) ∨
        ¬ ∃ p ∈ (newEngine.run ops).policies, Allows go req p) ∧
      (result.decision = .allow →
        ∃ p, (newEngine.run ops).policies.find? (Allows go req ·) = some p ∧
        result.policyId = p.id) ∧
      ∀ ops',
        ((newEngine.run ops).policies.map Policy.unranked).Perm
        ((newEngine.run ops').policies.map Policy.unranked) →
        result.decision = ((newEngine.run ops').evaluate go req).decision := by
  refine ⟨exists_ordered ops, fun p => ?_, fun id => ?_, fun req => ⟨Engine.evaluate_deny_iff _,
    Engine.evaluate_allow, fun ops' h => Engine.evaluate_unranked h⟩⟩
  · rw [Engine.run, List.foldl_append]
    exact (BackwardPass.pass_perm _ _).trans (List.perm_append_singleton _ _)
  · rw [Engine.run, List.foldl_append]
    rfl

/-- The library on texts, truth values and numbers, with patterns of letters and digits. -/
def plainLibrary : GoLibrary where
  sprint
    | .nil => "<nil>"
    | .string s => s
    | .bool b => toString b
    | .int64 i => toString i
    | .uint64 u => toString u
    | _ => ""
  compile pattern :=
    if pattern.toList.all Char.isAlphanum then some (containsText · pattern) else none

/-- Deleting is denied to everybody, at a lower priority than what is allowed. -/
example :
  ((newEngine.run [.add ⟨"staff", .empty, 9, none, ["*"], none,
  [⟨"action", .matches, .string "delete"⟩]⟩,
      .add ⟨"locked", .deny, 1, none, ["order:*"], none, []⟩]).evaluate plainLibrary
    ⟨⟨"u1", "user", [], [], ∅⟩, "order:delete", ⟨"o1", "order", "", "", ∅⟩, ∅⟩).policyId =
      "locked" := by
  decide +kernel

end Foundation.PolicyEngine
