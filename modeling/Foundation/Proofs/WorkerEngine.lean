import Foundation.Spec.WorkerEngine

/-! Attempts and dedupe windows. A success is remembered by the run that has not marked it yet, by
the entry of its key, or its window is over; a run that passed the check while no other had its key
finds only windows that are over. -/

namespace Foundation.Worker

/-! ### The dedupe set -/

/-- The window of a success is kept by the set, or over. -/
def Covered (entries : GoMap String ℕ) (now : ℕ) (success : String × ℕ) : Prop :=
  (∃ expiry, entries.lookup success.1 = some expiry ∧ success.2 + dedupeTTL ≤ expiry) ∨
    success.2 + dedupeTTL < now

variable {success : String × ℕ} {d : DedupeSet} {p : Phase} {job : Job}

theorem Covered.erase {entries : GoMap String ℕ} {now : ℕ} (h : Covered entries now success)
    {key : String} (hkey : ∀ expiry, entries.lookup key = some expiry → expiry < now) :
    Covered (entries.erase key) now success := by
  obtain ⟨expiry, hlookup, hle⟩ | hover := h
  · rcases eq_or_ne success.1 key with heq | hne
    · exact .inr (hle.trans_lt (hkey expiry (heq ▸ hlookup)))
    · exact .inl ⟨expiry, by rw [GoMap.lookup_erase_if, if_neg hne, hlookup], hle⟩
  · exact .inr hover

theorem Covered.has {now t : ℕ} (h : Covered d.entries now success) (key : String) (ht : t ≤ now) :
    Covered (d.has key t).2.entries now success := by
  rw [DedupeSet.has]
  split
  · exact h
  · next expiry hlookup =>
    split_ifs with hpast
    · exact h.erase fun e he => by rw [hlookup] at he; cases he; exact hpast.trans_le ht
    · exact h

theorem Covered.popLocked {more : GoMap String ℕ → String × ℕ → Bool} {now : ℕ}
    (hmore : ∀ entries front, more entries front = true → front.2 < now) {entries : GoMap String ℕ}
    (order : List (String × ℕ)) (h : Covered entries now success) :
    Covered (Worker.popLocked more entries order).1 now success := by
  induction order generalizing entries with
  | nil => exact h
  | cons front rest ih =>
    rw [Worker.popLocked]
    split_ifs with hfront hsame
    · exact ih (h.erase fun e he => Option.some.inj (hsame.symm.trans he) ▸ hmore entries
        front hfront)
    · exact ih h
    · exact h

theorem popLocked_of_none {more : GoMap String ℕ → String × ℕ → Bool} {entries : GoMap String ℕ}
    (h : ∀ front, more entries front = false) (order : List (String × ℕ)) :
    popLocked more entries order = (entries, order) := by
  cases order with
  | nil => rfl
  | cons front rest => simp [popLocked, h front]

/-- A mark evicts nothing while there is room for one more key. -/
theorem mark_entries (h : d.entries.keys.card < d.max) (key : String) (now : ℕ) :
    (d.mark key now).entries = d.entries.insert key (now + dedupeTTL) := by
  have hroom : (d.entries.insert key (now + dedupeTTL)).keys.card ≤ d.max := by
    rw [GoMap.keys_insert]
    exact (Finset.card_insert_le _ _).trans h
  rw [DedupeSet.mark]
  dsimp only
  rw [popLocked_of_none fun _ => by simpa using hroom]

theorem Covered.mark {now t : ℕ} {key : String} (hroom : d.entries.keys.card < d.max)
    (h : success.1 ≠ key → Covered d.entries now success) (hkey : success.1 = key → success.2 ≤ t) :
    Covered (d.mark key t).entries now success := by
  rw [mark_entries hroom]
  rcases eq_or_ne success.1 key with heq | hne
  · exact .inl ⟨t + dedupeTTL, by rw [GoMap.lookup_insert_if, if_pos heq],
      Nat.add_le_add_right (hkey heq) _⟩
  · obtain ⟨expiry, hlookup, hle⟩ | hover := h hne
    · exact .inl ⟨expiry, by rw [GoMap.lookup_insert_if, if_neg hne, hlookup], hle⟩
    · exact .inr hover

/-- A check that does not find the key finds only windows of it that are over. -/
theorem over_of_not_has {now t : ℕ} (h : Covered d.entries now success) (ht : t ≤ now)
    (hhas : (d.has success.1 t).1 = false) : success.2 + dedupeTTL < now := by
  obtain ⟨expiry, hlookup, hle⟩ | hover := h
  · simp only [DedupeSet.has, hlookup] at hhas
    split_ifs at hhas with hpast
    omega
  · exact hover

/-! ### The windows -/

/-- A run between its check and its mark. -/
def Phase.active : Phase → Bool
  | .running | .succeeded | .marking _ => true
  | _ => false

/-- A run whose success is not marked yet. -/
def Phase.unmarked : Phase → Bool
  | .succeeded | .marking _ => true
  | _ => false

theorem active_of_unmarked (h : p.unmarked) : p.active := by
  cases p <;> simp_all [Phase.unmarked, Phase.active]

def RunOk (key : String) (now : ℕ) (successes : List (String × ℕ)) : Phase → Prop
  | .checking t => t ≤ now
  | .running => key ≠ "" → ∀ p ∈ successes, p.1 = key → p.2 + dedupeTTL < now
  | .succeeded => key ≠ ""
  | .marking t => key ≠ "" ∧ ∀ p ∈ successes, p.1 = key → p.2 ≤ t
  | _ => True

structure Windows {ι : Type} (key : ι → String) (phase : ι →
  Phase) (entries : GoMap String ℕ) (now : ℕ)
    (successes : List (String × ℕ)) : Prop where
  runs : ∀ i, RunOk (key i) now successes (phase i)
  exclusive : ∀ i j, (phase i).active → (phase j).active → key i ≠ "" → key i = key j → i = j
  past : ∀ p ∈ successes, p.2 ≤ now
  covered : ∀ p ∈ successes, (∃ i, (phase i).unmarked ∧ key i = p.1) ∨ Covered entries now p
  spaced : successes.Pairwise fun later earlier => later.1 = earlier.1 →
    earlier.2 + dedupeTTL < later.2

variable {ι : Type} {key : ι → String} {phase : ι →
  Phase} {entries entries' : GoMap String ℕ} {now : ℕ}
  {successes : List (String × ℕ)} {i : ι}

theorem RunOk.later {k : String} (h : RunOk k now successes p) {now' : ℕ} (hle : now ≤ now') :
    RunOk k now' successes p := by
  cases p with
  | checking t => exact h.trans hle
  | running => exact fun hk q hq heq => (h hk q hq heq).trans_le hle
  | succeeded | marking | created | entering | returned => exact h

theorem Windows.tick (h : Windows key phase entries now successes) (elapsed : ℕ) :
    Windows key phase entries (now + elapsed) successes where
  runs i := (h.runs i).later (Nat.le_add_right _ _)
  exclusive := h.exclusive
  past p hp := (h.past p hp).trans (Nat.le_add_right _ _)
  covered p hp :=
    (h.covered p hp).imp_right fun hc => hc.imp_right fun hlt => hlt.trans_le (Nat.le_add_right _ _)
  spaced := h.spaced

theorem Windows.of_entries (h : Windows key phase entries now successes)
    (hcovered : ∀ p, Covered entries now p → Covered entries' now p) :
    Windows key phase entries' now successes :=
  ⟨h.runs, h.exclusive, h.past, fun p hp => (h.covered p hp).imp_right (hcovered p), h.spaced⟩

variable [DecidableEq ι]

/-- A run goes on: it may become active only if it was, has no key, or is alone with its key. -/
theorem Windows.goto (h : Windows key phase entries now successes)
    (hrun : RunOk (key i) now successes p)
    (hactive : p.active → (phase i).active ∨ key i = "" ∨ ∀ j, j ≠ i → key j = key i →
      (phase j).active = false) (hmark : (phase i).unmarked → p.unmarked) :
    Windows key (Function.update phase i p) entries now successes where
  runs :=
    (Function.forall_update_iff phase fun j p => RunOk (key j) now successes p).mpr ⟨hrun,
    fun j _ => h.runs j⟩
  exclusive j k hj hk hne heq := by
    have halone (l : ι) (hl : l ≠ i) (hp : p.active) (hlactive : (phase l).active) (hi : key i ≠ "")
        (hkey : key l = key i) : False := by
      obtain hwas | hnone | honly := hactive hp
      · exact hl (h.exclusive l i hlactive hwas (hkey ▸ hi) hkey)
      · exact hi hnone
      · simp [honly l hl hkey] at hlactive
    rcases eq_or_ne i j with rfl | hij <;> rcases eq_or_ne i k with rfl | hik
    · rfl
    · rw [Function.update_self] at hj
      rw [Function.update_of_ne hik.symm] at hk
      exact (halone k hik.symm hj hk hne heq.symm).elim
    · rw [Function.update_of_ne hij.symm] at hj
      rw [Function.update_self] at hk
      exact (halone j hij.symm hk hj (heq ▸ hne) heq).elim
    · rw [Function.update_of_ne hij.symm] at hj
      rw [Function.update_of_ne hik.symm] at hk
      exact h.exclusive j k hj hk hne heq
  past := h.past
  covered q hq := by
    refine (h.covered q hq).imp_left ?_
    rintro ⟨j, hj, hkey⟩
    refine ⟨j, ?_, hkey⟩
    rcases eq_or_ne j i with rfl | hji
    · rw [Function.update_self]
      exact hmark hj
    · rwa [Function.update_of_ne hji]
  spaced := h.spaced

theorem Windows.succeed (h : Windows key phase entries now successes) (hi : phase i = .running)
    (hkey : key i ≠ "") :
    Windows key (Function.update phase i .succeeded) entries now ((key i, now) :: successes) := by
  have hgone :=
    h.goto (i := i) (p := .succeeded) hkey (by simp [hi, Phase.active])
    (by simp [hi, Phase.unmarked])
  refine ⟨?_, hgone.exclusive, ?_, ?_, ?_⟩
  · refine (Function.forall_update_iff phase fun j p => RunOk (key j) now _ p).mpr ⟨hkey,
      fun j hj => ?_⟩
    have hother (hactive : (phase j).active) (hk : key j ≠ "") : key i ≠ key j := fun heq =>
      hj (h.exclusive j i hactive (by simp [hi, Phase.active]) hk heq.symm)
    have hrun := h.runs j
    cases hp : phase j with
    | running =>
      rw [hp] at hrun
      refine fun hk => List.forall_mem_cons.mpr ⟨fun heq => ?_, hrun hk⟩
      exact absurd heq (hother (by simp [hp, Phase.active]) hk)
    | marking t =>
      rw [hp] at hrun
      refine ⟨hrun.1, List.forall_mem_cons.mpr ⟨fun heq => ?_, hrun.2⟩⟩
      exact absurd heq (hother (by simp [hp, Phase.active]) hrun.1)
    | created | entering | checking | succeeded | returned =>
      rw [hp] at hrun
      exact hrun
  · exact List.forall_mem_cons.mpr ⟨le_rfl, h.past⟩
  · refine List.forall_mem_cons.mpr ⟨.inl ⟨i, ?_, rfl⟩, hgone.covered⟩
    rw [Function.update_self]
    rfl
  · refine List.pairwise_cons.mpr ⟨fun p hp heq => ?_, h.spaced⟩
    have hrun := h.runs i
    rw [hi] at hrun
    exact hrun hkey p hp heq.symm

theorem Windows.mark (h : Windows key phase entries now successes) {t : ℕ}
    (hi : phase i = .marking t)
    (hcovered : ∀ p, (p.1 ≠ key i → Covered entries now p) → (p.1 = key i → p.2 ≤ t) →
      Covered entries' now p) :
    Windows key (Function.update phase i .returned) entries' now successes where
  runs :=
    (Function.forall_update_iff phase fun j p => RunOk (key j) now successes p).mpr ⟨trivial,
    fun j _ => h.runs j⟩
  exclusive j k hj hk hne heq := by
    have hback (l : ι) (hl : (Function.update phase i .returned l).active) : (phase l).active := by
      rcases eq_or_ne l i with rfl | hli
      · simp [Phase.active] at hl
      · rwa [Function.update_of_ne hli] at hl
    exact h.exclusive j k (hback j hj) (hback k hk) hne heq
  past := h.past
  covered p hp := by
    have hrun := h.runs i
    rw [hi] at hrun
    by_cases hother : ∃ j, j ≠ i ∧ (phase j).unmarked ∧ key j = p.1
    · obtain ⟨j, hji, hj, hkey⟩ := hother
      exact .inl ⟨j, by rwa [Function.update_of_ne hji], hkey⟩
    · refine .inr (hcovered p (fun hne => ?_) (hrun.2 p hp))
      obtain ⟨j, hj, hkey⟩ | hc := h.covered p hp
      · exact absurd ⟨j, fun heq => hne (heq ▸ hkey.symm), hj, hkey⟩ hother
      · exact hc
  spaced := h.spaced

/-! ### The engine -/

/-- A job accepted has an attempt left; a check is passed while no other run of the key is between
its own and its mark; and the set has room for one more key when it is marked. -/
def Apart (s : Engine ι) : Event ι → Prop
  | .enqueue i =>
    (s.job i).normalize.validate = .ok () →
      (s.job i).normalize.attempt < (s.job i).normalize.maxAttempts
  | .check i => ∀ t, s.phase i = .checking t → (s.dedupe.has (dedupeKey (s.job i)) t).1 = false →
      ∀ j, j ≠ i → dedupeKey (s.job j) = dedupeKey (s.job i) → (s.phase j).active = false
  | .mark _ => s.dedupe.entries.keys.card < s.dedupe.max
  | _ => True

/-- A job that is not over has an attempt left. -/
def AttemptsOk (job : Job) : Phase → Prop
  | .created => True
  | .returned => job.attempt ≤ job.maxAttempts
  | _ => job.attempt < job.maxAttempts

structure Inv (s : Engine ι) : Prop where
  attempts : ∀ i, AttemptsOk (s.job i) (s.phase i)
  windows : Windows (fun i => dedupeKey (s.job i)) s.phase s.dedupe.entries s.now s.successes

variable {s s' : Engine ι}

theorem AttemptsOk.le (h : AttemptsOk job p) (hp : p ≠ .created) :
    job.attempt ≤ job.maxAttempts := by
  cases p with
  | created => exact absurd rfl hp
  | returned => exact h
  | entering | checking | running | succeeded | marking => exact le_of_lt h

/-- A run in the middle of `handleJob`. -/
def Phase.isOpen : Phase → Bool
  | .created | .returned => false
  | _ => true

theorem AttemptsOk.goto (h : AttemptsOk job p) (hp : p.isOpen) (q : Phase) : AttemptsOk job q := by
  have hlt : job.attempt < job.maxAttempts := by
    cases p with
    | created | returned => cases hp
    | entering | checking | running | succeeded | marking => exact h
  cases q with
  | created => trivial
  | returned => exact hlt.le
  | entering | checking | running | succeeded | marking => exact hlt

theorem Inv.goto (h : Inv s) (hi : (s.phase i).isOpen) {dedupe : DedupeSet}
    {successes : List (String × ℕ)}
    (hwindows : Windows (fun i => dedupeKey (s.job i)) (Function.update s.phase i p) dedupe.entries
      s.now successes) :
    Inv (Engine.goto { s with dedupe, successes } i p) where
  attempts := (Function.forall_update_iff s.phase fun j p => AttemptsOk (s.job j) p).mpr
    ⟨(h.attempts i).goto hi p, fun j _ => h.attempts j⟩
  windows := hwindows

theorem dedupeKey_normalize (j : Job) : dedupeKey j.normalize = dedupeKey j := by
  unfold dedupeKey Job.normalize
  rfl

/-- A step that gives a run its next job: before the queue, or after a failure. -/
theorem Inv.setJob (h : Inv s) (hkey : dedupeKey job = dedupeKey (s.job i))
    (hattempts : AttemptsOk job p) (hp : p = .entering ∨ p = .returned)
    (hi : (s.phase i).unmarked = false) :
    Inv ((s.setJob i job).goto i p) where
  attempts j := by
    rcases eq_or_ne j i with rfl | hji
    · simpa [Engine.setJob, Engine.goto] using hattempts
    · simpa [Engine.setJob, Engine.goto, hji] using h.attempts j
  windows := by
    have hkeys : (fun j => dedupeKey ((s.setJob i job).job j)) = fun j => dedupeKey (s.job j) := by
      funext j
      rcases eq_or_ne j i with rfl | hji
      · simpa [Engine.setJob] using hkey
      · simp [Engine.setJob, hji]
    have hgoto : Windows (fun j => dedupeKey (s.job j)) (Function.update s.phase i p)
        s.dedupe.entries s.now
        s.successes := by
      obtain rfl | rfl :=
        hp <;> exact h.windows.goto trivial (by simp [Phase.active]) (by simp [hi])
    exact hkeys ▸ hgoto

theorem Inv.over (h : Inv s) (hi : (s.phase i).isOpen) (hmarked : (s.phase i).unmarked = false) :
    Inv (s.goto i .returned) :=
  h.goto hi (h.windows.goto trivial (by simp [Phase.active]) (by simp [hmarked]))

/-- A run that passes its check finds no success of its key in the window. -/
theorem Inv.check (h : Inv s) {t : ℕ} (hi : s.phase i = .checking t)
    (halone : (s.dedupe.has (dedupeKey (s.job i)) t).1 = false →
      ∀ j, j ≠ i → dedupeKey (s.job j) = dedupeKey (s.job i) → (s.phase j).active = false) :
    Inv (Engine.goto { s with dedupe := (s.dedupe.has (dedupeKey (s.job i)) t).2 } i
      (if (s.dedupe.has (dedupeKey (s.job i)) t).1 then .returned else .running)) := by
  have ht : t ≤ s.now := by
    have hrun := h.windows.runs i
    rwa [hi] at hrun
  have hkept := h.windows.of_entries fun p hc => hc.has (dedupeKey (s.job i)) ht
  refine h.goto (by simp [hi, Phase.isOpen]) ?_
  split_ifs with hfound
  · exact hkept.goto trivial (by simp [Phase.active]) (by simp [hi, Phase.unmarked])
  · have hnot := Bool.eq_false_iff.mpr hfound
    have halone := halone hnot
    refine hkept.goto (fun hkey p hp heq => ?_) (fun _ => .inr (.inr halone))
      (by simp [hi, Phase.unmarked])
    obtain ⟨j, hj, hkeyj⟩ | hc := h.windows.covered p hp
    · rcases eq_or_ne j i with rfl | hji
      · simp [hi, Phase.unmarked] at hj
      · exact absurd (active_of_unmarked hj) (by simp [halone j hji (hkeyj.trans heq)])
    · exact over_of_not_has hc ht (heq ▸ hnot)

theorem Inv.fail (h : Inv s) (hi : s.phase i = .running)
    (hjob : job = { s.job i with attempt := (s.job i).attempt + 1 }) :
    Inv ((s.setJob i job).goto i (if job.attempt ≥ job.maxAttempts then .returned
      else .entering)) := by
  have hlt : (s.job i).attempt < (s.job i).maxAttempts := by
    have hattempts := h.attempts i
    rwa [hi] at hattempts
  subst hjob
  refine h.setJob rfl ?_ ?_ (by simp [hi, Phase.unmarked])
  · dsimp only
    split_ifs with hlast
    · exact hlt
    · exact not_le.mp hlast
  · dsimp only
    split_ifs <;> simp

theorem Inv.sample (h : Inv s) (hi : s.phase i = .succeeded) : Inv (s.goto i (.marking s.now)) := by
  have hkey := h.windows.runs i
  rw [hi] at hkey
  exact h.goto (by simp [hi, Phase.isOpen])
    (h.windows.goto ⟨hkey, fun p hp _ => h.windows.past p hp⟩ (by simp [hi, Phase.active])
      (by simp [Phase.unmarked]))

theorem Inv.step {e : Event ι} (h : Inv s) (he : Apart s e) (hs : step s e = some s') : Inv s' := by
  cases e with
  | tick elapsed =>
    obtain rfl := Option.some.inj hs
    exact ⟨h.attempts, h.windows.tick elapsed⟩
  | enqueue i =>
    rw [Worker.step] at hs
    split_ifs at hs with hi
    split at hs
    · next hvalid =>
      obtain rfl := Option.some.inj hs
      exact h.setJob (dedupeKey_normalize _) (he hvalid) (.inl rfl) (by simp [hi, Phase.unmarked])
    · obtain rfl := Option.some.inj hs
      exact h
  | enter i registered =>
    rw [Worker.step] at hs
    split_ifs at hs with hi hreg hkey
    · obtain rfl := Option.some.inj hs
      exact h.over (by simp [hi, Phase.isOpen]) (by simp [hi, Phase.unmarked])
    · obtain rfl := Option.some.inj hs
      exact h.goto (by simp [hi, Phase.isOpen])
        (h.windows.goto (fun hne => absurd hkey hne) (fun _ => .inr (.inl hkey))
          (by simp [hi, Phase.unmarked]))
    · obtain rfl := Option.some.inj hs
      exact h.goto (by simp [hi, Phase.isOpen])
        (h.windows.goto le_rfl (by simp [Phase.active]) (by simp [hi, Phase.unmarked]))
  | check i =>
    rw [Worker.step] at hs
    split at hs
    · next t hi =>
      obtain rfl := Option.some.inj hs
      exact h.check hi (he t hi)
    · cases hs
  | succeed i =>
    rw [Worker.step] at hs
    split_ifs at hs with hi hkey
    · obtain rfl := Option.some.inj hs
      exact h.over (by simp [hi, Phase.isOpen]) (by simp [hi, Phase.unmarked])
    · obtain rfl := Option.some.inj hs
      exact h.goto (by simp [hi, Phase.isOpen]) (h.windows.succeed hi hkey)
  | fail i =>
    rw [Worker.step] at hs
    split_ifs at hs with hi
    obtain rfl := Option.some.inj hs
    exact h.fail hi rfl
  | stop i =>
    rw [Worker.step] at hs
    split_ifs at hs with hi
    obtain rfl := Option.some.inj hs
    refine h.over ?_ ?_
    · obtain hi | hi := hi <;> simp [hi, Phase.isOpen]
    · obtain hi | hi := hi <;> simp [hi, Phase.unmarked]
  | sample i =>
    rw [Worker.step] at hs
    split_ifs at hs with hi
    obtain rfl := Option.some.inj hs
    exact h.sample hi
  | mark i =>
    rw [Worker.step] at hs
    split at hs
    · next t hi =>
      obtain rfl := Option.some.inj hs
      exact h.goto (by simp [hi, Phase.isOpen]) (h.windows.mark hi fun p hother hown =>
        Covered.mark he hother hown)
    · cases hs
  | prune t =>
    rw [Worker.step] at hs
    split_ifs at hs with ht
    obtain rfl := Option.some.inj hs
    refine ⟨h.attempts, h.windows.of_entries fun p hc => hc.popLocked (fun _ front hpast => ?_) _⟩
    exact (of_decide_eq_true hpast).trans_le ht

/-- In such runs no job is tried more often than it may, and two successes of a key are more than a
window apart. -/
theorem within_budget_and_once (jobs : ι → Job) (max : ℕ) {s : Engine ι}
    (h : Reached step Apart ⟨jobs, fun _ => .created, { max }, 0, []⟩ s) :
    (∀ i, s.phase i ≠ .created → (s.job i).attempt ≤ (s.job i).maxAttempts) ∧
      s.successes.Pairwise fun later earlier => later.1 = earlier.1 →
        earlier.2 + dedupeTTL < later.2 := by
  have hinv : Inv s := by
    refine h.invariant ⟨fun _ => trivial, fun _ => trivial, ?_, ?_, ?_, .nil⟩ fun _ _ _ he hs
      hinv => hinv.step he hs
    all_goals simp [Phase.active]
  exact ⟨fun i hi => (hinv.attempts i).le hi, hinv.windows.spaced⟩

def publish : Job where
  kind := "publish"
  queue := "default"
  metadata := ∅
  idempotencyKey := "k"
  attempt := 0
  maxAttempts := 2

def apart (s : Engine Bool) : Event Bool → Bool
  | .enqueue i => (s.job i).normalize.attempt < (s.job i).normalize.maxAttempts
  | .check i => !(s.phase !i).active
  | .mark _ => s.dedupe.entries.keys.card < s.dedupe.max
  | _ => true

theorem apart_sound (s : Engine Bool) (e : Event Bool) (h : apart s e = true) : Apart s e := by
  cases e with
  | enqueue i => exact fun _ => of_decide_eq_true h
  | check i =>
    intro t _ _ j hji _
    obtain rfl : j = !i := Bool.eq_not_of_ne hji
    simpa [apart] using h
  | mark => simpa [apart, Apart] using h
  | tick | enter | succeed | fail | stop | sample | prune => trivial

/-- A run that fails once and then succeeds, and another of the same key a day and a nanosecond
later. -/
theorem replay_after_window :
    ∃ s, Reached step Apart ⟨fun _ : Bool => publish, fun _ => .created, { max := 10 }, 0, []⟩ s ∧
      s.successes = [("publish:k", dedupeTTL + 1), ("publish:k", 0)] ∧
        s.successes.Pairwise fun later earlier => later.1 = earlier.1 →
          earlier.2 + dedupeTTL < later.2 := by
  obtain ⟨s, hs, hp⟩ := Reached.exists_of_run step (C := Apart) apart
    (fun s => decide (s.successes = [("publish:k", dedupeTTL + 1), ("publish:k", 0)]))
    ⟨fun _ : Bool => publish, fun _ => .created, { max := 10 }, 0, []⟩
    [.enqueue false, .enter false true, .check false, .fail false, .enter false true, .check false,
      .succeed false,
      .sample false, .mark false, .tick (dedupeTTL + 1), .enqueue true, .enter true true,
      .check true, .succeed true]
    apart_sound (by decide +kernel) (by decide +kernel)
  exact ⟨s, hs, of_decide_eq_true hp, (within_budget_and_once (fun _ : Bool => publish) 10 hs).2⟩

/-- A job accepted at its last attempt fails into one more, and two runs of a key that both pass the
check before either marks it both succeed. -/
theorem over_budget_and_twice :
    (∃ s, Reached step (fun _ _ => True)
        ⟨fun _ : Bool => { publish with attempt := 2 }, fun _ => .created, { max := 10 }, 0, []⟩ s ∧
      s.phase true ≠ .created ∧ (s.job true).attempt = 3 ∧ (s.job true).maxAttempts = 2) ∧
    ∃ s, Reached step (fun _ _ => True) ⟨fun _ : Bool => publish, fun _ => .created,
      { max := 10 }, 0, []⟩ s ∧
      s.successes = [("publish:k", 0), ("publish:k", 0)] := by
  constructor
  · obtain ⟨s, hs, hp⟩ := Reached.exists_of_run step (C := fun _ _ => True) (fun _ _ => true)
      (fun s => decide (s.phase true ≠ .created ∧ (s.job true).attempt = 3 ∧
        (s.job true).maxAttempts = 2))
      ⟨fun _ : Bool => { publish with attempt := 2 }, fun _ => .created, { max := 10 }, 0, []⟩
      [.enqueue true, .enter true true, .check true, .fail true] (fun _ _ _ => trivial)
        (by decide +kernel)
      (by decide +kernel)
    exact ⟨s, hs, of_decide_eq_true hp⟩
  · obtain ⟨s, hs, hp⟩ := Reached.exists_of_run step (C := fun _ _ => True) (fun _ _ => true)
      (fun s => decide (s.successes = [("publish:k", 0), ("publish:k", 0)]))
      ⟨fun _ : Bool => publish, fun _ => .created, { max := 10 }, 0, []⟩
      [.enqueue true, .enqueue false, .enter true true, .check true, .enter false true,
        .check false, .succeed true,
        .succeed false] (fun _ _ _ => trivial) (by decide +kernel) (by decide +kernel)
    exact ⟨s, hs, of_decide_eq_true hp⟩

end Foundation.Worker
