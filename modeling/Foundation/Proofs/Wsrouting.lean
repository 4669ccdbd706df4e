import Foundation.Lib.Results
import Foundation.Spec.Wsrouting

/-! The order and the indexes mirror the connection table after any calls, and the three ways to
enumerate a target deliver to the same connections, each once. -/

namespace Foundation.Wsrouting

open InvertedIndex SwapTable

namespace Router

variable {r : Router} {c d : String} {info : ConnectionInfo}

/-- The device of a live connection. -/
def deviceOf (r : Router) (c : String) : Option String := (r.connections.lookup c).map (·.deviceID)

def WellNamed (c : String) (info : ConnectionInfo) : Prop :=
  info.connectionID = c ∧ c ≠ "" ∧ info.deviceID ≠ ""

structure Mirrors (r : Router) : Prop where
  order : Inverse r.order r.orderIndex
  mem_order : ∀ c, c ∈ r.order ↔ ∃ info, r.connections.lookup c = some info
  ids : ∀ c info, r.connections.lookup c = some info → WellNamed c info
  users : Indexes userLabels r.connections r.byUser
  devices : ∀ d c, r.byDevice.lookup d = some c → r.deviceOf c = some d

/-- The same with one connection listed, and in neither index. -/
structure Vacated (r : Router) (c : String) : Prop where
  order : Inverse r.order r.orderIndex
  mem_order : ∀ x, x ∈ r.order ↔ x = c ∨ ∃ info, r.connections.lookup x = some info
  ids : ∀ x info, x ≠ c → r.connections.lookup x = some info → WellNamed x info
  users : Indexes userLabels (r.connections.erase c) r.byUser
  devices : ∀ d x, r.byDevice.lookup d = some x → x ≠ c ∧ r.deviceOf x = some d

/-! ### The device index -/

theorem lookup_removeIndexes (h : WellNamed c info) (d : String) :
    (r.removeIndexesLocked info).byDevice.lookup d =
      if info.deviceID = d ∧ r.byDevice.lookup d = some c then none else r.byDevice.lookup d := by
  obtain ⟨hid, hc, hd⟩ := h
  simp only [removeIndexesLocked]
  by_cases hcurrent : r.byDevice.lookup info.deviceID = some c
  · have hcond : info.deviceID ≠ "" ∧ (r.byDevice.lookup info.deviceID).getD "" =
        info.connectionID :=
      ⟨hd, by rw [hcurrent, hid, Option.getD_some]⟩
    rw [if_pos hcond, GoMap.lookup_erase_if]
    by_cases hdev : d = info.deviceID
    · subst hdev
      rw [if_pos rfl, if_pos ⟨rfl, hcurrent⟩]
    · rw [if_neg hdev, if_neg fun h => hdev h.1.symm]
  · have hcond : ¬(info.deviceID ≠ "" ∧ (r.byDevice.lookup info.deviceID).getD "" =
        info.connectionID) := by
      rintro ⟨-, heq⟩
      cases hx : r.byDevice.lookup info.deviceID with
      | none =>
        rw [hx, hid] at heq
        exact hc heq.symm
      | some x =>
        rw [hx, hid, Option.getD_some] at heq
        exact hcurrent (hx.trans (congrArg some heq))
    rw [if_neg hcond, if_neg]
    rintro ⟨rfl, hx⟩
    exact hcurrent hx

theorem lookup_addIndexes (hd : info.deviceID ≠ "") (d : String) :
    (r.addIndexesLocked info).byDevice.lookup d =
      if d = info.deviceID then some info.connectionID else r.byDevice.lookup d := by
  simp only [addIndexesLocked]
  rw [if_neg hd, GoMap.lookup_insert_if]

theorem deviceOf_insert (r' : Router) (h : r'.connections = r.connections.insert c info)
    (x : String) :
    r'.deviceOf x = if x = c then some info.deviceID else r.deviceOf x := by
  rw [deviceOf, h, GoMap.lookup_insert_if]
  split_ifs <;> rfl

theorem deviceOf_erase (r' : Router) (h : r'.connections = r.connections.erase c) (x : String) :
    r'.deviceOf x = if x = c then none else r.deviceOf x := by
  rw [deviceOf, h, GoMap.lookup_erase_if]
  split_ifs <;> rfl

theorem deviceOf_lookup (h : r.connections.lookup c = some info) :
    r.deviceOf c = some info.deviceID := by
  rw [deviceOf, h, Option.map_some]

/-! ### One connection leaves the indexes or enters them -/

theorem Mirrors.vacate (h : r.Mirrors) (hc : r.connections.lookup c = some info) :
    (r.removeIndexesLocked info).Vacated c := by
  have hnamed := h.ids c info hc
  refine ⟨h.order, fun x => ?_, fun x info' _ => h.ids x info', ?_, fun d x hx => ?_⟩
  · change x ∈ r.order ↔ x = c ∨ ∃ info, r.connections.lookup x = some info
    rw [h.mem_order, or_iff_right_of_imp]
    rintro rfl
    exact ⟨info, hc⟩
  · have hremoved := h.users.remove hc
    rwa [← hnamed.1] at hremoved ⊢
  · rw [lookup_removeIndexes hnamed] at hx
    split_ifs at hx with hcurrent
    have hdevice := h.devices d x hx
    refine ⟨?_, hdevice⟩
    rintro rfl
    rw [deviceOf_lookup hc, Option.some.injEq] at hdevice
    exact hcurrent ⟨hdevice, hx⟩

theorem Mirrors.list (h : r.Mirrors) (hnone : r.connections.lookup c = none) (hc : c ≠ "") :
    (r.addConnectionOrderLocked c).Vacated c := by
  have hnot : c ∉ r.order := by simp [h.mem_order, hnone]
  have hadd : r.addConnectionOrderLocked c =
      { r with orderIndex := r.orderIndex.insert c r.order.length, order := r.order ++ [c] } := by
    rw [addConnectionOrderLocked, if_neg hc, h.order.lookup_eq_none hnot]
    rfl
  rw [hadd]
  refine ⟨h.order.push hnot, fun x => ?_, fun x info _ => h.ids x info, h.users.erase_none hnone,
    fun d x hx => ?_⟩
  · change x ∈ r.order ++ [c] ↔ _
    rw [List.mem_append, h.mem_order, List.mem_singleton, or_comm]
  · have hdevice := h.devices d x hx
    refine ⟨?_, hdevice⟩
    rintro rfl
    rw [deviceOf, hnone] at hdevice
    exact absurd hdevice (by simp)

theorem wellNamed_of_insert {m : GoMap String ConnectionInfo} (hnamed : WellNamed c info)
    (h : ∀ x info', x ≠ c → m.lookup x = some info' → WellNamed x info') {x : String}
    {info' : ConnectionInfo} (hx : (m.insert c info).lookup x = some info') :
    WellNamed x info' := by
  rw [GoMap.lookup_insert_if] at hx
  split_ifs at hx with hxc
  · rw [← Option.some.inj hx, hxc]
    exact hnamed
  · exact h x info' hxc hx

theorem Vacated.assign (h : r.Vacated c) (hnamed : WellNamed c info) :
    ({ r with connections := r.connections.insert c info }.addIndexesLocked info).Mirrors := by
  refine ⟨h.order, fun x => ?_, fun x info' => wellNamed_of_insert hnamed h.ids, ?_,
    fun d x hx => ?_⟩
  · change x ∈ r.order ↔ ∃ info', (r.connections.insert c info).lookup x = some info'
    rw [h.mem_order, GoMap.lookup_insert_if]
    split_ifs with hx
    · simp [hx]
    · simp [hx]
  · have hadded := h.users.add info
    obtain ⟨rfl, -, -⟩ := hnamed
    exact hadded
  · rw [deviceOf_insert _ rfl]
    rw [lookup_addIndexes hnamed.2.2, hnamed.1] at hx
    split_ifs at hx with hd
    · rw [← Option.some.inj hx, if_pos rfl, hd]
    · obtain ⟨hne, hdevice⟩ := h.devices d x hx
      rw [if_neg hne]
      exact hdevice

/-! ### The calls -/

theorem Mirrors.addLocalConnection (h : r.Mirrors) (hnamed : WellNamed info.connectionID info) :
    (r.addLocalConnection info).Mirrors := by
  unfold Router.addLocalConnection
  cases hc : r.connections.lookup info.connectionID with
  | none => exact (h.list hc hnamed.2.1).assign hnamed
  | some old => exact (h.vacate hc).assign hnamed

theorem normalize_wellNamed {info info' : ConnectionInfo}
    (h : normalizeConnectionInfo info = .ok info') :
    info'.connectionID = info.connectionID ∧ WellNamed info.connectionID info' := by
  unfold normalizeConnectionInfo at h
  split_ifs at h with hc hd
  · obtain rfl := Except.ok.inj h
    exact ⟨rfl, rfl, hc, hc⟩
  · obtain rfl := Except.ok.inj h
    exact ⟨rfl, rfl, hc, hd⟩

theorem flatten_batches {α : Type} {size : ℕ} (hsize : 0 < size) (l : List α) :
    (batches size l).flatten = l := by
  fun_induction batches size l with
  | case1 l h => simpa [hsize.ne'] using h.symm
  | case2 l h ih => rw [List.flatten_cons, ih, List.take_append_drop]

theorem clampRegistrationBatchSize_pos (size : ℤ) :
    0 < (clampRegistrationBatchSize size).toNat := by
  unfold clampRegistrationBatchSize defaultRegistrationBatchSize maxRegistrationBatchSize
  split_ifs <;> omega

theorem registerMany_ok {infos : List ConnectionInfo} {r' : Router}
    (h : r.registerMany infos = .ok r') :
    ∃ normalized, infos.mapM normalizeConnectionInfo = .ok normalized ∧
      r' = normalized.foldl Router.addLocalConnection r := by
  obtain ⟨normalized, hnormalized, hr⟩ := except_bind_eq_ok h
  refine ⟨normalized, hnormalized, ?_⟩
  have hfold : ∀ (bs : List (List ConnectionInfo)) (r : Router),
      bs.foldl addLocalConnections r = bs.flatten.foldl Router.addLocalConnection r := by
    intro bs r
    rw [List.foldl_flatten]
    rfl
  rw [← Except.ok.inj hr, hfold, flatten_batches (clampRegistrationBatchSize_pos _)]

theorem Mirrors.registerMany (h : r.Mirrors) {infos : List ConnectionInfo} {r' : Router}
    (hr : r.registerMany infos = .ok r') : r'.Mirrors := by
  obtain ⟨normalized, hnormalized, rfl⟩ := registerMany_ok hr
  have hall := forall₂_of_mapM hnormalized
  clear hnormalized hr
  induction hall generalizing r with
  | nil => exact h
  | cons hinfo _ ih =>
    obtain ⟨hid, hnamed⟩ := normalize_wellNamed hinfo
    exact ih (h.addLocalConnection (hid ▸ hnamed))

theorem erase_absent (hnone : r.connections.lookup c = none) :
    r.connections.erase c = r.connections := by
  refine Finmap.ext_lookup fun x => ?_
  rw [GoMap.lookup_erase_if]
  split_ifs with hx
  · rw [hx, hnone]
  · rfl

theorem Vacated.drop (h : r.Vacated c) :
    { r.removeConnectionOrderLocked c with
      connections := (r.removeConnectionOrderLocked c).connections.erase c }.Mirrors := by
  have hmem : c ∈ r.order := (h.mem_order c).mpr (.inl rfl)
  obtain ⟨index, hindex⟩ := (h.order.mem_iff c).mp hmem
  have hpos : r.order.length - 1 < r.order.length := by
    have := List.length_pos_of_mem hmem
    omega
  have hlast : r.order[r.order.length - 1]? = some ((r.order[r.order.length - 1]?).getD "") := by
    rw [List.getElem?_eq_getElem hpos, Option.getD_some]
  have hremove : r.removeConnectionOrderLocked c =
      { r with
        order := removeOrder r.order index ((r.order[r.order.length - 1]?).getD "")
        orderIndex :=
          (r.orderIndex.insert ((r.order[r.order.length - 1]?).getD "") index).erase c } := by
    rw [removeConnectionOrderLocked, hindex]
  rw [hremove]
  refine ⟨h.order.remove hindex hlast, fun x => ?_, fun x info hx => ?_, h.users, fun d x hx => ?_⟩
  · change x ∈ removeOrder r.order index _ ↔ ∃ info, (r.connections.erase c).lookup x = some info
    rw [h.order.mem_remove hindex hlast, h.mem_order, GoMap.lookup_erase_if]
    split_ifs with hxc
    · simp [hxc]
    · simp [hxc]
  · change (r.connections.erase c).lookup x = some info at hx
    rw [GoMap.lookup_erase_if] at hx
    split_ifs at hx with hxc
    exact h.ids x info hxc hx
  · obtain ⟨hne, hdevice⟩ := h.devices d x hx
    rw [deviceOf_erase _ rfl, if_neg hne]
    exact hdevice

theorem unregister_absent (hc : r.connections.lookup c = none) : r.call (.unregister c) = r := by
  rw [Router.call, Router.unregister, hc, erase_absent hc]
  split_ifs <;> rfl

theorem unregister_live (hne : c ≠ "") (hc : r.connections.lookup c = some info) :
    r.call (.unregister c) = { (r.removeIndexesLocked info).removeConnectionOrderLocked c with
      connections :=
        ((r.removeIndexesLocked info).removeConnectionOrderLocked c).connections.erase c } := by
  rw [Router.call, Router.unregister, if_neg hne, hc]
  rfl

theorem updateAuthState_absent (hc : r.connections.lookup c = none) (state : AuthState) :
    r.call (.updateAuthState c state) = r := by
  rw [Router.call, Router.updateAuthState, hc]
  split_ifs <;> rfl

theorem updateAuthState_changed (hne : c ≠ "") (hc : r.connections.lookup c = some info)
    {state : AuthState} (huser : info.userID ≠ state.userID) :
    r.call (.updateAuthState c state) = { r.removeIndexesLocked info with
      connections := r.connections.insert c { info with auth := state } }.addIndexesLocked
        { info with auth := state } := by
  rw [Router.call, Router.updateAuthState, if_neg hne, hc]
  dsimp only
  rw [if_pos huser]
  rfl

theorem updateAuthState_same (hne : c ≠ "") (hc : r.connections.lookup c = some info)
    {state : AuthState} (huser : ¬info.userID ≠ state.userID) :
    r.call (.updateAuthState c state) =
      { r with connections := r.connections.insert c { info with auth := state } } := by
  rw [Router.call, Router.updateAuthState, if_neg hne, hc]
  dsimp only
  rw [if_neg huser]
  rfl

/-- New information with the user and the device of the old leaves the indexes right. -/
theorem Mirrors.reassign (h : r.Mirrors) {old : ConnectionInfo}
    (hold : r.connections.lookup c = some old) (hnamed : WellNamed c info)
    (huser : info.userID = old.userID) (hdevice : info.deviceID = old.deviceID) :
    { r with connections := r.connections.insert c info }.Mirrors := by
  refine ⟨h.order, fun x => ?_, fun x info' => wellNamed_of_insert hnamed fun x info' _ =>
    h.ids x info',
    ⟨fun u x => ?_, h.users.tidy⟩, fun d x hx => ?_⟩
  · change x ∈ r.order ↔ ∃ info', (r.connections.insert c info).lookup x = some info'
    rw [h.mem_order, GoMap.lookup_insert_if]
    split_ifs with hxc
    · subst hxc
      simp [hold]
    · rfl
  · change x ∈ keysAt r.byUser u ↔ ∃ info', (r.connections.insert c info).lookup x = some info' ∧ _
    rw [h.users.mem_iff, GoMap.lookup_insert_if]
    split_ifs with hxc
    · subst hxc
      simp [hold, userLabels, huser]
    · rfl
  · rw [deviceOf_insert _ rfl]
    have hx' := h.devices d x hx
    split_ifs with hxc
    · rw [hdevice, ← hx', hxc, deviceOf_lookup hold]
    · exact hx'

theorem Mirrors.call (h : r.Mirrors) (e : Call) : (r.call e).Mirrors := by
  cases e with
  | registerMany infos =>
    rw [Router.call]
    cases hr : r.registerMany infos with
    | error => exact h
    | ok r' => exact h.registerMany hr
  | unregister c =>
    cases hc : r.connections.lookup c with
    | none => rwa [unregister_absent hc]
    | some info =>
      rw [unregister_live (h.ids c info hc).2.1 hc]
      exact (h.vacate hc).drop
  | updateAuthState c state =>
    cases hc : r.connections.lookup c with
    | none => rwa [updateAuthState_absent hc]
    | some info =>
      obtain ⟨hid, hne, hdevice⟩ := h.ids c info hc
      have hnamed : WellNamed c { info with auth := state } := ⟨hid, hne, hdevice⟩
      by_cases huser : info.userID ≠ state.userID
      · rw [updateAuthState_changed hne hc huser]
        exact (h.vacate hc).assign hnamed
      · rw [updateAuthState_same hne hc huser]
        exact h.reassign hc hnamed (not_not.mp huser).symm rfl

theorem mirrors_new (size : ℤ) : ({ registerBatchSize := size } : Router).Mirrors :=
  ⟨inverse_empty, fun c => by simp, fun c info hc => by simp at hc, indexes_empty _,
    fun d c hc => by simp at hc⟩

theorem Mirrors.calls (h : r.Mirrors) (es : List Call) : (es.foldl Router.call r).Mirrors := by
  induction es generalizing r with
  | nil => exact h
  | cons e es ih => exact ih (h.call e)

/-! ### Targets -/

theorem visitWhile_true {α : Type} (l : List α) : visitWhile (fun _ => true) l = l := by
  induction l with
  | nil => rfl
  | cons x l ih => rw [visitWhile, if_pos rfl, ih]

theorem flatten_fillChunk (size : ℕ) (ids : List String)
    (filled : List (List String) × List String) :
    (ids.foldl (fillChunk size) filled).1.flatten ++ (ids.foldl (fillChunk size) filled).2 =
      filled.1.flatten ++ filled.2 ++ ids := by
  induction ids generalizing filled with
  | nil => simp
  | cons c ids ih =>
    rw [List.foldl_cons, ih, fillChunk]
    split_ifs <;> simp

theorem flatten_chunks (size : ℕ) (ids : List String) : (chunks size ids).flatten = ids := by
  have h := flatten_fillChunk size ids ([], [])
  simpa [chunks] using h

theorem normalizeTargetBatchSize_pos (batchSize estimated : ℤ) :
    0 < (normalizeTargetBatchSize batchSize estimated).toNat := by
  unfold normalizeTargetBatchSize maxTargetBatchSize defaultTargetBatchSize
  split_ifs <;> omega

theorem visit_perm (o o' : RangeOrder String) (s : Finset String) : (o.visit s).Perm (o'.visit s) :=
  (List.perm_ext_iff_of_nodup (o.nodup s) (o'.nodup s)).mpr fun x => by rw [o.mem, o'.mem]

theorem live_iff : r.live c = true ↔ ∃ info, r.connections.lookup c = some info :=
  Option.isSome_iff_exists

theorem Mirrors.live_of_user (h : r.Mirrors) {u : String} (hc : c ∈ keysAt r.byUser u) :
    r.live c = true := by
  obtain ⟨info, hinfo, -⟩ := (h.users.mem_iff u c).mp hc
  exact live_iff.mpr ⟨info, hinfo⟩

theorem Mirrors.live_deviceConnection (h : r.Mirrors) (d : String) :
    r.live (r.deviceConnection d) = true ↔ r.deviceConnection d ≠ "" := by
  constructor
  · intro hlive
    obtain ⟨info, hinfo⟩ := live_iff.mp hlive
    exact (h.ids _ info hinfo).2.1
  · intro hne
    unfold deviceConnection at hne ⊢
    cases hd : r.byDevice.lookup d with
    | none => exact absurd (by rw [hd]; rfl) hne
    | some c =>
      obtain ⟨info, hinfo, -⟩ := Option.map_eq_some_iff.mp (h.devices d c hd)
      exact live_iff.mpr ⟨info, hinfo⟩

/-- The same connections, each once, or the same error. -/
def SameDelivery : Except String (List String) → Except String (List String) →
  Except String (List (List String)) → Prop
  | .ok ids, .ok visited, .ok batches => ids.Nodup ∧ visited.Perm ids ∧ batches.flatten.Perm ids
  | .error e, .error e', .error e'' => e = e' ∧ e = e''
  | _, _, _ => False

theorem Mirrors.sameDelivery (h : r.Mirrors) (toLower : String → String)
    (o₁ o₂ o₃ : RangeOrder String) (target : TargetedDelivery) (batchSize : ℤ) :
    SameDelivery (r.resolveTargets toLower o₁ target)
      (r.forEachTarget toLower o₂ target fun _ => true)
      (r.forEachTargetBatch toLower o₃ target batchSize fun _ => true) := by
  have hemit : ∀ all : List (List String), (all.filter (· ≠ [])).flatten = all.flatten := fun all =>
    List.flatten_filter_ne_nil
  unfold resolveTargets resolveTargetsInto forEachTarget forEachTargetBatch
  cases targetKind toLower target with
  | none => exact ⟨rfl, rfl⟩
  | some kind =>
    cases kind with
    | connection =>
      simp only [SameDelivery, hemit, visitWhile_true]
      split_ifs <;> simp
    | device =>
      simp only [SameDelivery, hemit, visitWhile_true, h.live_deviceConnection]
      split_ifs <;> simp
    | user =>
      have hlive : (o₁.visit (keysAt r.byUser target.targetID)).filter r.live =
          o₁.visit (keysAt r.byUser target.targetID) :=
        List.filter_eq_self.mpr fun c hc => h.live_of_user ((o₁.mem _ c).mp hc)
      simp only [SameDelivery, hemit, visitWhile_true, hlive, List.nil_append, flatten_chunks]
      exact ⟨o₁.nodup _, visit_perm _ _ _, visit_perm _ _ _⟩
    | broadcast =>
      simp only [SameDelivery, hemit, visitWhile_true, List.nil_append,
        flatten_batches (normalizeTargetBatchSize_pos _ _)]
      exact ⟨h.order.nodup, .refl _, .refl _⟩

/-- The indexes after any calls; only a user with a name has a set of connections. -/
theorem indexes_mirror_connections (registerBatchSize : ℤ) (calls : List Call) :
    let r := calls.foldl call { registerBatchSize := registerBatchSize }
    (r.order.Nodup ∧ (∀ c, c ∈ r.order ↔ r.live c = true) ∧
      ∀ c i, r.orderIndex.lookup c = some i ↔ r.order[i]? = some c) ∧
    (∀ u c, c ∈ keysAt r.byUser u ↔ u ≠ "" ∧ ∃ info, r.connections.lookup c = some info ∧
      info.userID = u) ∧
    (∀ u s, r.byUser.lookup u = some s → s ≠ ∅) ∧
    (∀ d c, r.byDevice.lookup d = some c → ∃ info, r.connections.lookup c = some info ∧
      info.deviceID = d) ∧
    ∀ toLower o₁ o₂ o₃ target batchSize,
      SameDelivery (r.resolveTargets toLower o₁ target)
        (r.forEachTarget toLower o₂ target fun _ => true)
        (r.forEachTargetBatch toLower o₃ target batchSize fun _ => true) := by
  intro r
  have h : r.Mirrors := (mirrors_new registerBatchSize).calls calls
  refine ⟨⟨h.order.nodup, fun c => ?_, h.order⟩, fun u c => ?_, h.users.tidy, fun d c hc => ?_,
    h.sameDelivery⟩
  · rw [h.mem_order, live_iff]
  · rw [h.users.mem_iff]
    constructor
    · rintro ⟨info, hinfo, hu⟩
      unfold userLabels at hu
      split_ifs at hu with hempty
      · exact absurd hu (by simp)
      · rw [List.mem_singleton] at hu
        exact ⟨hu ▸ hempty, info, hinfo, hu.symm⟩
    · rintro ⟨hne, info, hinfo, rfl⟩
      exact ⟨info, hinfo, by simp [userLabels, hne]⟩
  · exact Option.map_eq_some_iff.mp (h.devices d c hc)

/-- A connection without a user is in no set, not even that of the empty name. -/
theorem unauthenticated_not_indexed :
    let r := [Call.registerMany [{ connectionID := "c" }]].foldl call {}
    ¬∀ u c, c ∈ keysAt r.byUser u ↔ ∃ info, r.connections.lookup c = some info ∧
      info.userID = u := by
  intro r h
  have hmem := (h "" "c").mpr ⟨⟨"c", "c", ⟨"", "", "", ""⟩⟩, by decide +kernel, rfl⟩
  exact absurd hmem (by decide +kernel)

end Router

end Foundation.Wsrouting
