import Foundation.Sanity.Transfer

/-! Every saved receipt describes its object as long as no part is sent by two calls at once; two
overlapping uploads of one part can leave a receipt without an object. -/

namespace Foundation.Bulk

open Transfer

/-- In a run where no part is sent by two calls at once, every receipt's object is there with the
receipt's size and digest, whether or not a call is running. -/
theorem receipts_described {sha : Sha256} {plan : TransferPlan} {objects : Key → Option Bytes}
    {t : Transfer} (h : Reached (step sha plan) Exclusive (start objects) t) : t.Described sha := by
  intro p receipt hp
  obtain ⟨c, call, -, -, -, -, content, hreceipt, -, hobject, -⟩ := (sound_of_reached h).saved hp
  rw [hreceipt]
  exact ⟨content, hobject, rfl, rfl⟩

/-! ### Two uploads -/

def zeroDigest : Sha256 where
  hex _ := String.ofList (List.replicate 64 '0')
  length _ := by rw [String.toList_ofList, List.length_replicate]
  digits _ c hc := by
    rw [String.toList_ofList] at hc
    exact .inl (List.eq_of_mem_replicate hc ▸ rfl)

def twoParts : TransferPlan := ⟨2, 1, 1, 2, [], by decide, by decide, by decide⟩

def onePart (partNumber : ℤ) : PartDescriptor := ⟨partNumber, partNumber, 1, zeroDigest.hex [1]⟩

/-- Uploads of two parts overlap and leave two receipts with their objects. -/
theorem overlapping_uploads_described :
    ∃ t, Reached (step zeroDigest twoParts) Exclusive (start fun _ => none) t ∧
      (t.receipts 0).isSome = true ∧ (t.receipts 1).isSome = true ∧ t.Described zeroDigest := by
  have hany : (runSteps (step zeroDigest twoParts) (start fun _ => none)
      (.accept 0 (onePart 0) (some [1]) :: .accept 1 (onePart 1) (some [1]) ::
        [.put 0 1, .put 1 1, .verify 1, .verify 0, .save 0 true, .save 1 true])).any
      (fun t => (t.receipts 0).isSome && (t.receipts 1).isSome) = true := by
    decide +kernel
  obtain ⟨t, hrun, hsome⟩ := (Option.any_eq_true _ _).mp hany
  obtain ⟨first, hfirst, hrun⟩ := Option.bind_eq_some_iff.mp hrun
  obtain ⟨second, hsecond, hrun⟩ := Option.bind_eq_some_iff.mp hrun
  have hone : Reached (step zeroDigest twoParts) Exclusive (start fun _ => none) first :=
    Reached.start.next (.accept 0 (onePart 0) (some [1])) (fun _ _ hc => by cases hc) hfirst
  have hother : first.Exclusive (.accept 1 (onePart 1) (some [1])) := by
    obtain rfl := Option.some.inj hfirst
    intro c call hc _
    rcases update_eq_some hc with ⟨-, rfl⟩ | ⟨-, hc⟩
    · decide
    · cases hc
  have hreach :=
    (hone.next _ hother hsecond).of_free (fun e he t => by fin_cases he <;> trivial) hrun
  rw [Bool.and_eq_true] at hsome
  exact ⟨t, hreach, hsome.1, hsome.2, receipts_described hreach⟩

/-! ### Two uploads of one part -/

theorem equalFold_self (s : String) : Go.equalFold s s = true := by simp [Go.equalFold]

def twoBytes : TransferPlan := ⟨2, 2, 2, 1, [], by decide, by decide, by decide⟩

theorem Sha256.valid (sha : Sha256) (bs : Bytes) : validSHA256 (sha.hex bs) = true := by
  rw [validSHA256, sha.length bs]
  refine List.all_eq_true.mpr fun c hc => ?_
  rcases sha.digits bs c hc with hdigit | ⟨ha, hf⟩
  · simp [isHexDigit, hdigit]
  · simp [isHexDigit, ha, hf]

/-- The descriptor of an upload of `size` bytes that promises the digest of `[1]`. -/
def promise (sha : Sha256) (size : ℤ) : PartDescriptor := ⟨0, 0, size, sha.hex [1]⟩

theorem validatePart_promise (sha : Sha256) {size : ℤ} (h : 0 ≤ size) (h' : size ≤ 2)
    (body : Bytes) : validatePart twoBytes (promise sha size) (some body) = none := by
  have hadd : checkedAddInt64 0 size = some size := by
    rw [checkedAddInt64, if_neg (by omega), if_neg (by simp only [maxInt64]; omega), Int.zero_add]
  have hsize : ¬ (size > 2 ∨ size > 2) := by omega
  have hend : ¬ ((2 : ℤ) ≥ 0 ∧ size > 2) := by omega
  simp only [validatePart, promise, twoBytes, hadd, sha.valid, if_neg hsize, if_neg hend]
  simp
  exact h

theorem afterVerify_one (sha : Sha256) (reader : Option Bytes) (phase : Phase) :
    afterVerify sha twoBytes ⟨promise sha 1, reader, phase⟩ [1] =
      .verified (newReceipt (promise sha 1)
      (partObjectKey twoBytes 0) 1 1 (sha.hex [1]) (sha.hex [1]) .identity) := by
  have hverify : verifyPartDigest (promise sha 1) (([1] : Bytes).length : ℕ) (sha.hex [1]) =
      none := by
    simp [verifyPartDigest, promise, equalFold_self]
  rw [afterVerify, hverify]
  rfl

/-- The upload of one byte is stored, verified and saved; then the other one overwrites the object,
is found too short and deletes it. -/
def overlap (sha : Sha256) : List Act :=
  [.accept 0 (promise sha 1) (some [1]), .accept 1 (promise sha 2) (some [2]), .put 0 1, .verify 0,
    .save 0 true,
    .put 1 1, .verify 1, .delete 1 true]

theorem afterVerify_short (sha : Sha256) (reader : Option Bytes) (phase : Phase) :
    afterVerify sha twoBytes ⟨promise sha 2, reader, phase⟩ [2] =
      .cleanup ⟨.validation, "part size does not match descriptor"⟩ := by
  simp [afterVerify, verifyPartDigest, promise]

/-- The end of the run: both calls have returned, one receipt is saved and its object is gone. -/
theorem run_overlap (sha : Sha256) :
    ∃ t, runSteps (step sha twoBytes) (start fun _ => none) (overlap sha) = some t ∧
    (∀ c call, t.calls c = some call → running call = false) ∧
    (∃ receipt, t.receipts 0 = some receipt ∧ receipt.objectKey = partObjectKey twoBytes 0) ∧
    t.objects (partObjectKey twoBytes 0) = none := by
  have h₁ := validatePart_promise sha (show (0 : ℤ) ≤ 1 by omega) (by omega) [1]
  have h₂ := validatePart_promise sha (show (0 : ℤ) ≤ 2 by omega) (by omega) [2]
  have hsize : ∀ n, (promise sha n).size = n := fun _ => rfl
  have hpart : ∀ n, (promise sha n).partNumber = 0 := fun _ => rfl
  simp only [runSteps, overlap, step, start, begin, h₁, h₂, hsize, setPhase, body, afterVerify_one,
    afterVerify_short,
    Option.bind_some, Function.update_self, Function.update_of_ne, Option.getD_some,
    List.length_cons, List.length_nil,
    List.take_succ_cons, List.take_zero, ne_eq, one_ne_zero, zero_ne_one, not_false_eq_true,
    Nat.cast_one, le_refl,
    and_self, if_true, Option.some_inj, exists_eq_left', hpart, Int.reduceLE, zero_add]
  refine ⟨fun c call hc => ?_, ⟨_, Function.update_self _ _ _, rfl⟩, Function.update_self _ _ _⟩
  rcases update_eq_some hc with ⟨-, rfl⟩ | ⟨h1, hc⟩
  · rfl
  rw [Function.update_of_ne h1, Function.update_of_ne h1] at hc
  rcases update_eq_some hc with ⟨-, rfl⟩ | ⟨h0, hc⟩
  · rfl
  rw [Function.update_of_ne h0, Function.update_of_ne h0, Function.update_of_ne h1,
    Function.update_of_ne h0] at hc
  cases hc

/-- Whatever the digest, a receipt is left without its object. -/
theorem overlap_undescribed (sha : Sha256) :
    ∃ t, Reached (step sha twoBytes) (fun _ _ => True) (start fun _ => none) t ∧ t.Idle ∧
      ¬ t.Described sha := by
  obtain ⟨t, hrun, hidle, ⟨receipt, hreceipt, hkey⟩, hgone⟩ := run_overlap sha
  refine ⟨t, Reached.start.of_free (fun _ _ _ => trivial) hrun, hidle, fun hdescribed => ?_⟩
  obtain ⟨content, hobject, -⟩ := hdescribed 0 receipt hreceipt
  rw [hkey, hgone] at hobject
  cases hobject

theorem overlapping_upload_undescribed :
    ∃ t, Reached (step zeroDigest twoBytes) (fun _ _ => True) (start fun _ => none) t ∧ t.Idle ∧
      ¬ t.Described zeroDigest :=
  overlap_undescribed zeroDigest

end Foundation.Bulk
