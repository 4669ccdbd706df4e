import Foundation.Proofs.Wsrouting

/-! The connection a device resolves to, against the order in which its connections were registered.
The device index has one connection for each device, so it is the newest one only while no other has
to take its place. -/

namespace Foundation.Wsrouting

open InvertedIndex SwapTable

/-! ### The newest connection of a device -/

/-- The first of a list that has a device, when one of them loses it. -/
theorem find?_release {l : List String} {c d : String} {dev dev' : String → Option String}
    (hsame : ∀ x, x ≠ c → dev' x = dev x) (hc : dev' c ≠ some d)
    (honly : l.find? (fun x => dev x = some d) = some c → ∀ x, dev x = some d → x = c) :
    l.find? (fun x => dev' x = some d) =
      if dev c = some d ∧ l.find? (fun x => dev x = some d) = some c then none
      else l.find? fun x => dev x = some d := by
  split_ifs with hcurrent
  · refine List.find?_eq_none.mpr fun x _ hx => ?_
    have hx := of_decide_eq_true hx
    have hne : x ≠ c := by
      rintro rfl
      exact hc hx
    exact hne (honly hcurrent.2 x (hsame x hne ▸ hx))
  · have hne : l.find? (fun x => dev x = some d) ≠ some c := by
      intro hfind
      have hdevice := List.find?_some hfind
      exact hcurrent ⟨by simpa using hdevice, hfind⟩
    clear honly hcurrent
    induction l with
    | nil => rfl
    | cons a l ih =>
      by_cases ha : dev a = some d
      · have hac : a ≠ c := by
          rintro rfl
          exact hne (by rw [List.find?_cons_of_pos (by simpa using ha)])
        rw [List.find?_cons_of_pos (by simpa [hsame a hac] using ha),
          List.find?_cons_of_pos (by simpa using ha)]
      · have ha' : dev' a ≠ some d := by
          by_cases hac : a = c
          · rwa [hac]
          · rwa [hsame a hac]
        simp only [List.find?_cons, decide_eq_false ha] at hne
        simp only [List.find?_cons, decide_eq_false ha, decide_eq_false ha']
        exact ih hne

/-- A router with the connections that were registered, the latest first. -/
structure Session where
  router : Router := {}
  registered : List String := []

inductive DeviceCall where
  | register (info : ConnectionInfo)
  | unregister (connectionID : String)
  | updateAuthState (connectionID : String) (state : AuthState)

namespace Session

variable {s : Session} {c d : String}

def step (s : Session) : DeviceCall → Option Session
  | .register info =>
    match s.router.register info with
    | .ok r => some ⟨r, info.connectionID :: s.registered⟩
    | .error _ => some s
  | .unregister connectionID => some { s with router := s.router.call (.unregister connectionID) }
  | .updateAuthState connectionID state =>
    some { s with router := s.router.call (.updateAuthState connectionID state) }

/-- The latest registered of the live connections of a device. -/
def newest (s : Session) (d : String) : Option String :=
  s.registered.find? fun c => s.router.deviceOf c = some d

/-- If the device resolves to the connection, the device has no other. -/
def Replaceable (s : Session) (c d : String) : Prop :=
  s.router.byDevice.lookup d = some c → ∀ x, s.router.deviceOf x = some d → x = c

/-- A connection that a device resolves to leaves the device only as its last one, and another user
is set only on a connection that its device resolves to. -/
def KeepsDevices (s : Session) : DeviceCall → Prop
  | .register info => ∀ info', Router.normalizeConnectionInfo info = .ok info' → ∀ d,
    s.router.deviceOf info.connectionID = some d → d ≠ info'.deviceID →
      s.Replaceable info.connectionID d
  | .unregister connectionID =>
    ∀ d, s.router.deviceOf connectionID = some d → s.Replaceable connectionID d
  | .updateAuthState connectionID state =>
    ∀ info, s.router.connections.lookup connectionID = some info →
    info.userID ≠ state.userID → s.router.byDevice.lookup info.deviceID = some connectionID

structure Current (s : Session) : Prop where
  mirrors : s.router.Mirrors
  latest : ∀ d, s.router.byDevice.lookup d = s.newest d
  listed : ∀ c d, s.router.deviceOf c = some d → c ∈ s.registered

end Session

/-! ### What the calls do to devices -/

namespace Router

variable {r r' : Router} {c d : String} {info info' : ConnectionInfo}

theorem register_ok (h : r.register info = .ok r') :
    ∃ info', normalizeConnectionInfo info = .ok info' ∧ r' = r.addLocalConnection info' := by
  obtain ⟨normalized, hnormalized, rfl⟩ := registerMany_ok h
  cases forall₂_of_mapM hnormalized with
  | cons hinfo hrest =>
    cases hrest
    exact ⟨_, hinfo, rfl⟩

theorem deviceOf_addLocalConnection (x : String) :
    (r.addLocalConnection info).deviceOf x = if x = info.connectionID then some info.deviceID
      else r.deviceOf x := by
  refine deviceOf_insert _ ?_ x
  unfold Router.addLocalConnection
  cases r.connections.lookup info.connectionID with
  | none =>
    unfold addConnectionOrderLocked
    dsimp only
    split_ifs <;> rfl
  | some old => rfl

theorem Mirrors.byDevice_addLocalConnection (h : r.Mirrors)
    (hnamed : WellNamed info.connectionID info) (d : String) :
    (r.addLocalConnection info).byDevice.lookup d =
      if d = info.deviceID then some info.connectionID
      else if r.deviceOf info.connectionID = some d ∧
        r.byDevice.lookup d = some info.connectionID then none
      else r.byDevice.lookup d := by
  unfold Router.addLocalConnection
  rw [lookup_addIndexes hnamed.2.2]
  congr 1
  cases hc : r.connections.lookup info.connectionID with
  | none =>
    have hdevice : r.deviceOf info.connectionID = none := by rw [deviceOf, hc, Option.map_none]
    have hsame : (r.addConnectionOrderLocked info.connectionID).byDevice = r.byDevice := by
      unfold addConnectionOrderLocked
      split_ifs <;> rfl
    rw [if_neg (by simp [hdevice])]
    exact congrArg (Finmap.lookup d) hsame
  | some old =>
    have hremove := lookup_removeIndexes (r := r) (h.ids _ old hc) d
    rw [deviceOf_lookup hc]
    simpa only [Option.some.injEq] using hremove

theorem Mirrors.unregister_devices (h : r.Mirrors) (c : String) :
    (∀ x, (r.call (.unregister c)).deviceOf x = if x = c then none else r.deviceOf x) ∧
    ∀ d, (r.call (.unregister c)).byDevice.lookup d =
      if r.deviceOf c = some d ∧ r.byDevice.lookup d = some c then none
      else r.byDevice.lookup d := by
  cases hc : r.connections.lookup c with
  | none =>
    have hdevice : r.deviceOf c = none := by rw [deviceOf, hc, Option.map_none]
    rw [unregister_absent hc]
    refine ⟨fun x => ?_, fun d => by simp [hdevice]⟩
    split_ifs with hx
    · rw [hx, hdevice]
    · rfl
  | some info =>
    have hnamed := h.ids c info hc
    have hremove : ((r.removeIndexesLocked info).removeConnectionOrderLocked c).byDevice =
        (r.removeIndexesLocked info).byDevice ∧
        ((r.removeIndexesLocked info).removeConnectionOrderLocked c).connections =
          r.connections := by
      unfold removeConnectionOrderLocked
      split <;> exact ⟨rfl, rfl⟩
    rw [unregister_live hnamed.2.1 hc]
    refine ⟨deviceOf_erase _ (congrArg (Finmap.erase c) hremove.2), fun d => ?_⟩
    have hlookup := lookup_removeIndexes (r := r) hnamed d
    rw [← hremove.1] at hlookup
    rw [deviceOf_lookup hc]
    simpa only [Option.some.injEq] using hlookup

theorem Mirrors.deviceOf_updateAuthState (h : r.Mirrors) (c : String) (state : AuthState)
    (x : String) :
    (r.call (.updateAuthState c state)).deviceOf x = r.deviceOf x := by
  cases hc : r.connections.lookup c with
  | none => rw [updateAuthState_absent hc]
  | some info =>
    have hsame : ∀ r' : Router,
        r'.connections = r.connections.insert c { info with auth := state } →
        r'.deviceOf x = r.deviceOf x := by
      intro r' hr'
      rw [deviceOf_insert r' hr']
      split_ifs with hx
      · rw [hx, deviceOf_lookup hc]
      · rfl
    have hne := (h.ids c info hc).2.1
    by_cases huser : info.userID ≠ state.userID
    · rw [updateAuthState_changed hne hc huser]
      exact hsame _ rfl
    · rw [updateAuthState_same hne hc huser]
      exact hsame _ rfl

theorem Mirrors.byDevice_updateAuthState (h : r.Mirrors) {c : String} {state : AuthState}
    (hcurrent : ∀ info, r.connections.lookup c = some info → info.userID ≠ state.userID →
      r.byDevice.lookup info.deviceID = some c) (d : String) :
    (r.call (.updateAuthState c state)).byDevice.lookup d = r.byDevice.lookup d := by
  cases hc : r.connections.lookup c with
  | none => rw [updateAuthState_absent hc]
  | some info =>
    have hnamed := h.ids c info hc
    by_cases huser : info.userID ≠ state.userID
    · have hlookup := lookup_removeIndexes (r := r) hnamed d
      have hdevice : ({ info with auth := state } : ConnectionInfo).deviceID ≠ "" := hnamed.2.2
      rw [updateAuthState_changed hnamed.2.1 hc huser, lookup_addIndexes hdevice]
      split_ifs with hd
      · rw [hnamed.1, hd]
        exact (hcurrent info hc huser).symm
      · exact hlookup.trans (if_neg fun hcur => hd hcur.1.symm)
    · rw [updateAuthState_same hnamed.2.1 hc huser]

end Router

/-! ### Runs -/

namespace Session

variable {s s' : Session} {c d : String}

theorem Current.registered (h : s.Current) {info : ConnectionInfo} {r : Router}
    (hC : s.KeepsDevices (.register info)) (hr : s.router.register info = .ok r) :
    Current ⟨r, info.connectionID :: s.registered⟩ := by
  obtain ⟨info', hinfo, rfl⟩ := Router.register_ok hr
  obtain ⟨hid, hnamed⟩ := Router.normalize_wellNamed hinfo
  have hdev : ∀ x, (s.router.addLocalConnection info').deviceOf x =
      if x = info'.connectionID then some info'.deviceID else s.router.deviceOf x :=
    Router.deviceOf_addLocalConnection
  rw [hid] at hdev
  rw [← hid] at hnamed
  refine ⟨h.mirrors.addLocalConnection hnamed, fun d => ?_, fun x d hx => ?_⟩
  · rw [h.mirrors.byDevice_addLocalConnection hnamed, hid, newest]
    by_cases hd : d = info'.deviceID
    · rw [if_pos hd, List.find?_cons_of_pos (by simp [hdev, hd])]
    · have hc : (s.router.addLocalConnection info').deviceOf info.connectionID ≠ some d := by
        rw [hdev, if_pos rfl]
        exact fun heq => hd (Option.some.inj heq).symm
      rw [if_neg hd, List.find?_cons_of_neg (by simpa using hc), h.latest]
      refine (find?_release (fun x hx => by rw [hdev, if_neg hx]) hc fun hfind => ?_).symm
      have hcurrent : s.router.byDevice.lookup d = some info.connectionID :=
        (h.latest d).trans hfind
      exact hC info' hinfo d (h.mirrors.devices d _ hcurrent) hd hcurrent
  · rw [hdev] at hx
    split_ifs at hx with hxc
    · rw [hxc]
      exact List.mem_cons_self
    · exact List.mem_cons_of_mem _ (h.listed x d hx)

theorem Current.step (h : s.Current) (e : DeviceCall) (hC : s.KeepsDevices e)
    (hs : s.step e = some s') :
    s'.Current := by
  cases e with
  | register info =>
    rw [Session.step] at hs
    split at hs
    next r hr =>
      obtain rfl := Option.some.inj hs
      exact h.registered hC hr
    next =>
      obtain rfl := Option.some.inj hs
      exact h
  | unregister c =>
    obtain rfl := Option.some.inj hs
    obtain ⟨hdev, hby⟩ := h.mirrors.unregister_devices c
    refine ⟨h.mirrors.call (.unregister c), fun d => ?_, fun x d hx => ?_⟩
    · have hc : (s.router.call (.unregister c)).deviceOf c ≠ some d := by simp [hdev]
      rw [hby, h.latest]
      refine (find?_release (fun x hx => by rw [hdev, if_neg hx]) hc fun hfind => ?_).symm
      have hcurrent : s.router.byDevice.lookup d = some c := (h.latest d).trans hfind
      exact hC d (h.mirrors.devices d c hcurrent) hcurrent
    · rw [hdev] at hx
      split_ifs at hx
      exact h.listed x d hx
  | updateAuthState c state =>
    obtain rfl := Option.some.inj hs
    have hdev := h.mirrors.deviceOf_updateAuthState c state
    refine ⟨h.mirrors.call (.updateAuthState c state), fun d => ?_,
      fun x d hx => h.listed x d (hdev x ▸ hx)⟩
    rw [h.mirrors.byDevice_updateAuthState hC, h.latest, newest, newest]
    simp only [hdev]

theorem current_new (registerBatchSize : ℤ) :
    Current ⟨{ registerBatchSize := registerBatchSize }, []⟩ :=
  ⟨Router.mirrors_new registerBatchSize, fun d => rfl,
    fun c d hc => by simp [Router.deviceOf] at hc⟩

theorem Current.resolve (h : s.Current) (d : String) :
    s.router.resolveDeviceConnection d = s.newest d := by
  have hlive := h.mirrors.live_deviceConnection d
  unfold Router.resolveDeviceConnection
  rw [← h.latest]
  cases hd : s.router.byDevice.lookup d with
  | none =>
    have hempty : s.router.deviceConnection d = "" := by
      rw [Router.deviceConnection, hd, Option.getD_none]
    rw [if_neg (by rw [hlive]; exact not_not.mpr hempty)]
  | some c =>
    have hc : s.router.deviceConnection d = c := by
      rw [Router.deviceConnection, hd, Option.getD_some]
    obtain ⟨info, hinfo, -⟩ := Option.map_eq_some_iff.mp (h.mirrors.devices d c hd)
    rw [hc, if_pos (Router.live_iff.mpr ⟨info, hinfo⟩)]

theorem newest_isSome_iff (h : s.Current) (d : String) :
    (s.newest d).isSome = true ↔ ∃ c, s.router.deviceOf c = some d := by
  rw [newest, List.find?_isSome]
  constructor
  · rintro ⟨c, -, hc⟩
    exact ⟨c, of_decide_eq_true hc⟩
  · rintro ⟨c, hc⟩
    exact ⟨c, h.listed c d hc, decide_eq_true hc⟩

/-- In a run whose calls keep the devices, a device resolves to the latest registered of its live
connections, if it has one, and setting the user of a connection changes nothing about it. -/
theorem device_stays_reachable (registerBatchSize : ℤ) (s : Session)
    (h : Reached step KeepsDevices ⟨{ registerBatchSize := registerBatchSize }, []⟩ s) :
    (∀ d, s.router.resolveDeviceConnection d = s.newest d) ∧
    (∀ d, (s.router.resolveDeviceConnection d).isSome = true ↔ ∃ c, s.router.deviceOf c = some d) ∧
    ∀ c state s', s.KeepsDevices (.updateAuthState c state) →
      s.step (.updateAuthState c state) = some s' →
      ∀ d, s'.router.resolveDeviceConnection d = s.router.resolveDeviceConnection d := by
  have hcurrent : s.Current :=
    h.invariant (P := Current) (current_new registerBatchSize) fun _ e _ hC hs hinv =>
      hinv.step e hC hs
  refine ⟨hcurrent.resolve, fun d => ?_, fun c state s' hC hs d => ?_⟩
  · rw [hcurrent.resolve, newest_isSome_iff hcurrent]
  · rw [(hcurrent.step _ hC hs).resolve, hcurrent.resolve]
    obtain rfl := Option.some.inj hs
    simp only [newest, hcurrent.mirrors.deviceOf_updateAuthState]

/-- A test of a call that keeps the devices: the connection is new, or its device resolves to
another one, or it resolves to this one and only the user changes. -/
def keeps (s : Session) : DeviceCall → Bool
  | .register info => (s.router.deviceOf info.connectionID).isNone
  | .unregister connectionID =>
    (s.router.deviceOf connectionID).all fun d => s.router.byDevice.lookup d ≠ some connectionID
  | .updateAuthState connectionID _ =>
    (s.router.connections.lookup connectionID).all fun info =>
      s.router.byDevice.lookup info.deviceID = some connectionID

theorem keepsDevices_of_keeps (s : Session) (e : DeviceCall) (h : s.keeps e = true) :
    s.KeepsDevices e := by
  cases e with
  | register info =>
    intro info' _ d hd
    rw [keeps, hd] at h
    exact absurd h (by simp)
  | unregister c =>
    intro d hd hcurrent
    rw [keeps, hd, Option.all_some, decide_eq_true_eq] at h
    exact absurd hcurrent h
  | updateAuthState c state =>
    intro info hinfo _
    rw [keeps, hinfo, Option.all_some, decide_eq_true_eq] at h
    exact h

def reconnects : List DeviceCall :=
  [.register { connectionID := "a", deviceID := "d" },
    .register { connectionID := "b", deviceID := "d" }]

/-- A reconnected device stays reachable when its older connection goes and the newer one
authenticates. -/
theorem reconnected_device_reachable :
    ∃ s, Reached step KeepsDevices ⟨{ registerBatchSize := 0 }, []⟩ s ∧
      s.router.resolveDeviceConnection "d" = some "b" ∧ ∀ d, s.router.resolveDeviceConnection d =
        s.newest d := by
  obtain ⟨s, hreach, hs⟩ := Reached.exists_of_run step keeps
    (fun s => s.router.resolveDeviceConnection "d" == some "b") ⟨{ registerBatchSize := 0 }, []⟩
    (reconnects ++ [.unregister "a", .updateAuthState "b" { userID := "u" }]) keepsDevices_of_keeps
    (by decide +kernel) (by decide +kernel)
  exact ⟨s, hreach, eq_of_beq hs, (device_stays_reachable 0 s hreach).1⟩

/-- When the newer connection goes, the device is lost though the older one is live; when the older
one authenticates, it takes the device over. -/
theorem device_lost_or_moved :
    (∃ s, Reached step (fun _ _ => True) {} s ∧
      s.router.deviceOf "a" = some "d" ∧ s.router.resolveDeviceConnection "d" = none) ∧
    ∃ s, Reached step (fun _ _ => True) {} s ∧
      s.newest "d" = some "b" ∧ s.router.resolveDeviceConnection "d" = some "a" := by
  obtain ⟨s, hreach, hs⟩ := Reached.exists_of_run step (C := fun _ _ => True) (fun _ _ => true)
    (fun s => s.router.deviceOf "a" == some "d" && s.router.resolveDeviceConnection "d" == none) {}
    (reconnects ++ [.unregister "b"]) (fun _ _ _ => trivial) (by decide +kernel) (by decide +kernel)
  obtain ⟨s', hreach', hs'⟩ := Reached.exists_of_run step (C := fun _ _ => True) (fun _ _ => true)
    (fun s => s.newest "d" == some "b" && s.router.resolveDeviceConnection "d" == some "a") {}
    (reconnects ++ [.updateAuthState "a" { userID := "u" }]) (fun _ _ _ => trivial)
      (by decide +kernel)
    (by decide +kernel)
  rw [Bool.and_eq_true, beq_iff_eq, beq_iff_eq] at hs hs'
  exact ⟨⟨s, hreach, hs⟩, s', hreach', hs'⟩

end Session

end Foundation.Wsrouting
