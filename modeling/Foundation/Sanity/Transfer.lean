import Foundation.Spec.Transfer

/-! Part keys are distinct, and while no part is sent by two calls at once every receipt keeps its
object. -/

namespace Foundation.Bulk

/-! ### Keys -/

theorem toNat_keyDigit (n width : ℕ) : (keyDigit n width).toNat = 48 + n / width % 10 := by
  have hlt : n / width % 10 < 10 := Nat.mod_lt _ (by omega)
  have hvalid : (48 + n / width % 10).isValidChar := .inl (by omega)
  rw [keyDigit, Char.ofNat, dif_pos hvalid]
  rfl

theorem keyDigit_inj {m n width : ℕ} (h : keyDigit m width = keyDigit n width)
    (hhigh : m / (width * 10) = n / (width * 10)) : m / width = n / width := by
  have hnat := congrArg Char.toNat h
  rw [toNat_keyDigit, toNat_keyDigit] at hnat
  rw [← Nat.div_div_eq_div_mul, ← Nat.div_div_eq_div_mul] at hhigh
  generalize m / width = a at hnat hhigh ⊢
  generalize n / width = b at hnat hhigh ⊢
  omega

def InRange (plan : TransferPlan) (p : ℤ) : Prop := 0 ≤ p ∧ p < plan.maxParts

theorem partObjectKey_inj {plan : TransferPlan} {p q : ℤ} (hp : InRange plan p)
    (hq : InRange plan q) (h : partObjectKey plan p.toNat = partObjectKey plan q.toNat) :
    p = q := by
  have hmax := plan.parts_le
  simp only [defaultMaxParts] at hmax
  obtain ⟨hp₀, hp₁⟩ := hp
  obtain ⟨hq₀, hq₁⟩ := hq
  rw [partObjectKey, partObjectKey, if_pos (by omega), if_pos (by omega)] at h
  have hdigits := List.append_cancel_left h
  simp only [List.map_cons, List.map_nil, List.cons.injEq, and_true] at hdigits
  obtain ⟨h₅, h₄, h₃, h₂, h₁, h₀⟩ := hdigits
  have hmillion : p.toNat / (100000 * 10) = q.toNat / (100000 * 10) := by
    rw [Nat.div_eq_of_lt (by omega), Nat.div_eq_of_lt (by omega)]
  have hnat := keyDigit_inj h₀ (keyDigit_inj h₁ (keyDigit_inj h₂ (keyDigit_inj h₃ (keyDigit_inj h₄
    (keyDigit_inj h₅ hmillion)))))
  rw [Nat.div_one, Nat.div_one] at hnat
  omega

namespace Transfer

variable {sha : Sha256} {plan : TransferPlan}

/-! ### The invariant -/

/-- The receipt is that of the bytes stored under the call's key, which the call's reader gave. -/
def Backed (sha : Sha256) (plan : TransferPlan) (objects : Key → Option Bytes) (call : Call)
    (receipt : PartReceipt) :
    Prop :=
  ∃ content, receipt = newReceipt call.desc (key plan call) content.length content.length
    (sha.hex content)
      (sha.hex content) .identity ∧
        verifyPartDigest call.desc content.length (sha.hex content) = none ∧
    objects (key plan call) = some content ∧ content <+: body call

/-- What a running call may rely on. -/
def PhaseOK (sha : Sha256) (plan : TransferPlan) (objects : Key → Option Bytes) (call : Call) :
    Prop :=
  match call.phase with
  | .stored content => objects (key plan call) = some content ∧ content <+: body call
  | .verified receipt => Backed sha plan objects call receipt
  | _ => True

structure Sound (sha : Sha256) (plan : TransferPlan) (t : Transfer) : Prop where
  single : ∀ {c c' call call'}, t.calls c = some call → t.calls c' = some call' →
    running call = true →
    running call' = true → call.desc.partNumber = call'.desc.partNumber → c = c'
  valid : ∀ {c call}, t.calls c = some call → running call = true →
    validatePart plan call.desc call.reader = none
  fresh : ∀ {c call}, t.calls c = some call → running call = true →
    t.receipts call.desc.partNumber = none
  phase : ∀ {c call}, t.calls c = some call → PhaseOK sha plan t.objects call
  saved : ∀ {p receipt}, t.receipts p = some receipt → ∃ c call, t.calls c = some call ∧
    call.phase = .returned (.ok receipt) ∧ call.desc.partNumber = p ∧
    validatePart plan call.desc call.reader = none ∧ Backed sha plan t.objects call receipt

variable {desc : PartDescriptor} {reader : Option Bytes} {call : Call}
  {objects : Key → Option Bytes} {t : Transfer} {c : ℕ}

theorem inRange_of_valid (h : validatePart plan desc reader = none) :
    InRange plan desc.partNumber := by
  unfold validatePart at h
  by_cases hreader : reader.isNone = true
  · rw [if_pos hreader] at h
    cases h
  by_cases hrange : desc.partNumber < 0 ∨ desc.partNumber ≥ plan.maxParts
  · rw [if_neg hreader, if_pos hrange] at h
    cases h
  · rw [not_or, not_lt, ge_iff_le, not_le] at hrange
    exact hrange

theorem Backed.frame {objects objects' : Key → Option Bytes} {receipt : PartReceipt}
    (h : Backed sha plan objects call receipt)
    (hsame : objects' (key plan call) = objects (key plan call)) :
    Backed sha plan objects' call receipt := by
  obtain ⟨content, hreceipt, hverify, hobject, hbody⟩ := h
  exact ⟨content, hreceipt, hverify, hsame.trans hobject, hbody⟩

theorem PhaseOK.frame {objects objects' : Key → Option Bytes} (h : PhaseOK sha plan objects call)
    (hsame : objects' (key plan call) = objects (key plan call)) :
    PhaseOK sha plan objects' call := by
  unfold PhaseOK at *
  split at h
  · exact ⟨hsame.trans h.1, h.2⟩
  · exact h.frame hsame
  · trivial

theorem PhaseOK.of_returned (h : running call = false) :
    PhaseOK sha plan objects call := by
  unfold running at h
  unfold PhaseOK
  split at h
  · rename_i hphase
    rw [hphase]
    trivial
  · cases h

/-! ### Steps -/

theorem update_eq_some {α β : Type} [DecidableEq α] {f : α → Option β} {a a' : α} {b b' : β}
    (h : Function.update f a (some b) a' = some b') :
    a' = a ∧ b' = b ∨ a' ≠ a ∧ f a' = some b' := by
  by_cases heq : a' = a
  · rw [heq, Function.update_self] at h
    exact .inl ⟨heq, (Option.some_inj.mp h).symm⟩
  · rw [Function.update_of_ne heq] at h
    exact .inr ⟨heq, h⟩

/-- A running call moves to another phase and touches no object but its own. -/
theorem Sound.move (h : Sound sha plan t) (hc : t.calls c = some call) (hrun : running call = true)
    {phase : Phase} (hobjects : ∀ k, k ≠ key plan call → objects k = t.objects k)
    (hphase : PhaseOK sha plan objects { call with phase }) :
    Sound sha plan ⟨objects, t.receipts, Function.update t.calls c (some { call with phase })⟩ := by
  have hvalid := h.valid hc hrun
  have hkey : ∀ {desc : PartDescriptor} {reader : Option Bytes},
      validatePart plan desc reader = none →
      desc.partNumber ≠ call.desc.partNumber →
      objects (partObjectKey plan desc.partNumber.toNat) =
        t.objects (partObjectKey plan desc.partNumber.toNat) :=
    fun hother hne => hobjects _ fun heq =>
      hne (partObjectKey_inj (inRange_of_valid hother) (inRange_of_valid hvalid) heq)
  refine ⟨fun {c₁ c₂ call₁ call₂} h₁ h₂ hr₁ hr₂ hpart => ?_, fun {c' call'} hc' hr' => ?_,
    fun {c' call'} hc' hr' => ?_,
    fun {c' call'} hc' => ?_, fun {p receipt} hp => ?_⟩
  · rcases update_eq_some h₁ with ⟨rfl, rfl⟩ | ⟨-, hold₁⟩ <;> rcases update_eq_some h₂ with ⟨rfl,
      rfl⟩ | ⟨-, hold₂⟩
    · rfl
    · exact h.single hc hold₂ hrun hr₂ hpart
    · exact h.single hold₁ hc hr₁ hrun hpart
    · exact h.single hold₁ hold₂ hr₁ hr₂ hpart
  · rcases update_eq_some hc' with ⟨rfl, rfl⟩ | ⟨-, hc'⟩
    · exact hvalid
    · exact h.valid hc' hr'
  · rcases update_eq_some hc' with ⟨rfl, rfl⟩ | ⟨-, hc'⟩
    · exact (h.fresh hc hrun : t.receipts call.desc.partNumber = none)
    · exact h.fresh hc' hr'
  · rcases update_eq_some hc' with ⟨rfl, rfl⟩ | ⟨hne, hc'⟩
    · exact hphase
    · by_cases hr' : running call' = true
      · exact (h.phase hc').frame (hkey (h.valid hc' hr') fun hpart =>
          hne (h.single hc' hc hr' hrun hpart))
      · exact .of_returned (by simpa using hr')
  · change t.receipts p = some receipt at hp
    obtain ⟨c', call', hc', hreturned, hpart, hvalid', hbacked⟩ := h.saved hp
    have hne : c' ≠ c := by
      rintro rfl
      rw [hc] at hc'
      cases hc'
      rw [running, hreturned] at hrun
      cases hrun
    refine ⟨c', call', (Function.update_of_ne hne _ _).trans hc', hreturned, hpart, hvalid',
      hbacked.frame ?_⟩
    refine hkey hvalid' fun heq => ?_
    have hfresh := h.fresh hc hrun
    rw [← heq, hpart] at hfresh
    exact absurd hp (by rw [hfresh]; nofun)

theorem begin_cases (t : Transfer) (desc : PartDescriptor) (reader : Option Bytes) :
    (∃ r, t.begin plan desc reader = .returned r) ∨
      t.begin plan desc reader = .loaded ∧ t.receipts desc.partNumber = none ∧
        validatePart plan desc reader = none := by
  unfold begin
  cases hreceipt : t.receipts desc.partNumber with
  | some receipt => exact .inl ⟨_, rfl⟩
  | none =>
    cases hvalid : validatePart plan desc reader with
    | some err => exact .inl ⟨_, rfl⟩
    | none => exact .inr ⟨rfl, rfl, rfl⟩

/-- The part of a new call is not being sent by another. -/
def Exclusive (t : Transfer) : Act → Prop
  | .accept _ desc _ =>
    ∀ c call, t.calls c = some call → running call = true → call.desc.partNumber ≠ desc.partNumber
  | _ => True

theorem Sound.accept (h : Sound sha plan t) (hc : t.calls c = none)
    (hother : t.Exclusive (.accept c desc reader)) :
    Sound sha plan { t with
      calls := Function.update t.calls c (some ⟨desc, reader, t.begin plan desc reader⟩) } := by
  have hnew : running ⟨desc, reader, t.begin plan desc reader⟩ = true →
      t.receipts desc.partNumber = none ∧ validatePart plan desc reader = none := fun hrun => by
    rcases t.begin_cases desc reader with ⟨r, hr⟩ | ⟨-, hfresh, hvalid⟩
    · rw [hr] at hrun
      cases hrun
    · exact ⟨hfresh, hvalid⟩
  refine ⟨fun {c₁ c₂ call₁ call₂} h₁ h₂ hr₁ hr₂ hpart => ?_, fun {c' call'} hc' hr' => ?_,
    fun {c' call'} hc' hr' => ?_,
    fun {c' call'} hc' => ?_, fun {p receipt} hp => ?_⟩
  · rcases update_eq_some h₁ with ⟨rfl, rfl⟩ | ⟨-, hold₁⟩ <;> rcases update_eq_some h₂ with ⟨rfl,
      rfl⟩ | ⟨-, hold₂⟩
    · rfl
    · exact absurd hpart.symm (hother _ _ hold₂ hr₂)
    · exact absurd hpart (hother _ _ hold₁ hr₁)
    · exact h.single hold₁ hold₂ hr₁ hr₂ hpart
  · rcases update_eq_some hc' with ⟨rfl, rfl⟩ | ⟨-, hold⟩
    · exact (hnew hr').2
    · exact h.valid hold hr'
  · rcases update_eq_some hc' with ⟨rfl, rfl⟩ | ⟨-, hold⟩
    · exact (hnew hr').1
    · exact h.fresh hold hr'
  · rcases update_eq_some hc' with ⟨rfl, rfl⟩ | ⟨-, hold⟩
    · rcases t.begin_cases desc reader with ⟨r, hr⟩ | ⟨hloaded, -, -⟩
      · exact .of_returned (by rw [hr]; rfl)
      · rw [hloaded]
        trivial
    · exact h.phase hold
  · obtain ⟨c', call', hc', hrest⟩ := h.saved hp
    have hne : c' ≠ c := by
      rintro rfl
      rw [hc] at hc'
      cases hc'
    exact ⟨c', call', (Function.update_of_ne hne _ _).trans hc', hrest⟩

theorem Sound.save (h : Sound sha plan t) {receipt : PartReceipt}
    (hc : t.calls c = some ⟨desc, reader, .verified receipt⟩) :
    Sound sha plan ⟨t.objects, Function.update t.receipts receipt.partNumber (some receipt),
      Function.update t.calls c (some ⟨desc, reader, .returned (.ok receipt)⟩)⟩ := by
  have hbacked : Backed sha plan t.objects ⟨desc, reader, .verified receipt⟩ receipt := h.phase hc
  have hpart : receipt.partNumber = desc.partNumber := by
    obtain ⟨content, hreceipt, -⟩ := hbacked
    rw [hreceipt]
    rfl
  have hmoved : Sound sha plan ⟨t.objects, t.receipts,
      Function.update t.calls c (some ⟨desc, reader, .returned (.ok receipt)⟩)⟩ :=
    h.move hc rfl (fun _ _ => rfl) trivial
  refine ⟨hmoved.single, hmoved.valid, fun {c' call'} hc' hr' => ?_, hmoved.phase,
    fun {p r} hp => ?_⟩
  · rcases update_eq_some hc' with ⟨rfl, rfl⟩ | ⟨hne, hold⟩
    · cases hr'
    · have hother : call'.desc.partNumber ≠ receipt.partNumber := fun heq =>
        hne (h.single hold hc hr' rfl (heq.trans hpart))
      exact (Function.update_of_ne hother _ _).trans (h.fresh hold hr')
  · rcases update_eq_some hp with ⟨rfl, rfl⟩ | ⟨-, hold⟩
    · exact ⟨c, _, Function.update_self _ _ _, rfl, hpart.symm,
        (h.valid hc rfl : validatePart plan desc reader = none), hbacked⟩
    · exact hmoved.saved hold

theorem phaseOK_afterVerify {content : Bytes}
    (h : PhaseOK sha plan objects ⟨desc, reader, .stored content⟩) :
    PhaseOK sha plan objects ⟨desc, reader,
      afterVerify sha plan ⟨desc, reader, .stored content⟩ content⟩ := by
  unfold afterVerify
  cases hverify : verifyPartDigest desc content.length (sha.hex content) with
  | some err => trivial
  | none => exact ⟨content, rfl, hverify, h.1, h.2⟩

/-- One step of any call, as long as no part is sent by two calls at once. -/
theorem Sound.step {t t' : Transfer} (h : Sound sha plan t) {a : Act} (ha : t.Exclusive a)
    (hstep : t.step sha plan a = some t') : Sound sha plan t' := by
  cases a with
  | accept c desc reader =>
    cases hc : t.calls c with
    | some call =>
      rw [Transfer.step, hc] at hstep
      cases hstep
    | none =>
      rw [Transfer.step, hc] at hstep
      cases hstep
      exact h.accept hc ha
  | put c n =>
    simp only [Transfer.step] at hstep
    split at hstep
    next desc reader hc =>
      split at hstep
      · cases hstep
        refine h.move hc rfl (fun k hk => Function.update_of_ne hk _ _)
          ⟨Function.update_self _ _ _, ?_⟩
        exact List.take_prefix _ _
      · cases hstep
    · cases hstep
  | putFails c left err =>
    simp only [Transfer.step] at hstep
    split at hstep
    next desc reader hc =>
      cases hstep
      exact h.move hc rfl (fun k hk => Function.update_of_ne hk _ _) trivial
    · cases hstep
  | verify c =>
    simp only [Transfer.step] at hstep
    split at hstep
    next desc reader content hc =>
      cases hstep
      exact h.move hc rfl (fun _ _ => rfl) (phaseOK_afterVerify (h.phase hc))
    · cases hstep
  | delete c removed =>
    simp only [Transfer.step] at hstep
    split at hstep
    next desc reader err hc =>
      cases hstep
      refine h.move hc rfl (fun k hk => ?_) trivial
      cases removed with
      | false => rfl
      | true => exact Function.update_of_ne hk _ _
    · cases hstep
  | save c saved =>
    simp only [Transfer.step] at hstep
    split at hstep
    next desc reader receipt hc =>
      cases saved with
      | false =>
        cases hstep
        exact h.move hc rfl (fun _ _ => rfl) trivial
      | true =>
        cases hstep
        exact h.save hc
    · cases hstep

theorem sound_start (objects : Key → Option Bytes) : Sound sha plan (start objects) where
  single hc := by cases hc
  valid hc := by cases hc
  fresh hc := by cases hc
  phase hc := by cases hc
  saved hp := by cases hp

theorem sound_of_reached (h : Reached (step sha plan) Exclusive (start objects) t) :
    Sound sha plan t :=
  h.invariant (sound_start objects) fun _ _ _ ha hstep ih => ih.step ha hstep

end Transfer

end Foundation.Bulk
