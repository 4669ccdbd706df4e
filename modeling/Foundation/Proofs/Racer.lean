import Foundation.Spec.Racer

/-! What `race` reports. A job and the report of its send are one token that moves from the queue of
its path to the inbox and from there to the attempts of its own race, so a race cannot have more
attempts of a path than jobs. -/

namespace Foundation.Racer

variable {n : ℕ} {s s' : State n} {race : Race n} {i : Fin n}

/-- The job that a thread has taken and not reported. -/
def Thread.job : Thread → Option Job
  | .sending job | .sent job _ | .released job _ => some job
  | .receiving | .gone => none

/-- A thread between taking a job and releasing its path. -/
def Thread.working : Thread → ℕ
  | .sending _ | .sent _ _ => 1
  | _ => 0

def Thread.isSending : Thread → ℕ
  | .sending _ => 1
  | _ => 0

def Worker.held (w : Worker) : List Job := w.thread.job.toList ++ w.jobs

/-- The jobs of a path whose send has not returned. -/
def Worker.unfinished (w : Worker) : ℕ := w.thread.isSending + w.jobs.length

def Phase.claims : Phase n → Fin n → ℕ
  | .claimed j _, i => if j = i then 1 else 0
  | _, _ => 0

/-- How far a path is taken: a claim, a job in its queue, a job at work. -/
def Worker.occupied (w : Worker) (race : Option (Race n)) (i : Fin n) : ℕ :=
  w.thread.working + w.jobs.length + (race.map (·.phase.claims i)).getD 0

theorem Worker.unfinished_le (w : Worker) (race : Option (Race n)) :
    w.unfinished ≤ w.occupied race i := by
  have h : w.thread.isSending ≤ w.thread.working := by
    cases w.thread <;> simp [Thread.isSending, Thread.working]
  simp only [unfinished, occupied]
  omega

/-- The tokens of a path in a race. -/
def tokens (seq : ℕ) (i : Fin n) (w : Worker) (inbox attempts : List (Attempt n)) : ℕ :=
  w.held.countP (·.seq = seq) + inbox.countP (fun a => a.label = i && a.seq = seq) +
    (attempts.map (·.label)).count i

/-- What an outcome has to say, given the sends that succeeded. -/
structure Truthful (delivered : List (Fin n × Job)) (race : Race n) (outcome : RaceOutcome n) :
  Prop where
  own : ∀ a ∈ outcome.attempts, a.seq = race.seq
  dispatched : outcome.dispatched = race.dispatched.length
  bounded : outcome.attempts.length ≤ outcome.dispatched
  winner : ∀ i, outcome.winner = some i → (i, race.job) ∈ delivered
  loss : outcome.winner = none → race.expired = false →
    ∀ i ∈ race.dispatched, ∃ a ∈ outcome.attempts, a.label = i ∧ a.error.isSome

/-! ### The invariant -/

/-- A job of an earlier race, or the job of the race that runs. -/
def Known (seq : ℕ) (race : Option (Race n)) (job : Job) : Prop :=
  job.seq < seq ∧ ∀ r ∈ race, job.seq = r.seq → job = r.job

variable {seq : ℕ} {race' : Race n} {job : Job} {w : Worker} {a : Attempt n}
  {rest : List (Attempt n)}

theorem Known.moves (h : Known seq (some race) job) (hjob : race'.job = race.job) :
    Known seq (some race') job := by
  have hseq : race'.seq = race.seq := congrArg Job.seq hjob
  refine ⟨h.1, ?_⟩
  rintro r ⟨⟩ heq
  exact hjob ▸ h.2 race rfl (hseq ▸ heq)

structure WorkerOk (seq : ℕ) (race : Option (Race n)) (inbox : List (Attempt n))
  (delivered : List (Fin n × Job))
    (i : Fin n) (w : Worker) : Prop where
  load : w.occupied race i ≤ 1
  free : w.busy = false → w.occupied race i = 0
  known : ∀ job ∈ w.held, Known seq race job
  sent : ∀ job, w.thread = .sent job none ∨ w.thread = .released job none → (i, job) ∈ delivered
  alive : w.thread ≠ .gone
  tokens : ∀ r ∈ race, tokens r.seq i w inbox r.attempts ≤ r.dispatched.count i

structure Inv (s : State n) : Prop where
  workers : ∀ i, WorkerOk s.seq s.race s.inbox s.delivered i (s.workers i)
  inbox : ∀ a ∈ s.inbox, a.seq < s.seq ∧
    (a.error = none → ∃ job, job.seq = a.seq ∧ (a.label, job) ∈ s.delivered)
  delivered : ∀ p ∈ s.delivered, Known s.seq s.race p.2
  fresh : ∀ r ∈ s.race, r.seq < s.seq
  lost : ∀ r ∈ s.race, ∀ a ∈ r.attempts, a.seq = r.seq ∧ a.error.isSome
  replies : ∀ r outcome, .ok r outcome ∈ s.replies → Truthful s.delivered r outcome

theorem Inv.start : Inv ({} : State n) := by
  refine ⟨fun i => ⟨?_, fun _ => ?_, ?_, ?_, ?_, ?_⟩, ?_, ?_, ?_, ?_, ?_⟩ <;>
    simp [Worker.occupied, Thread.working, Worker.held, Thread.job]

/-! ### The workers -/

/-- A step of one worker, which may report and may record a send. -/
theorem Inv.worker (h : Inv s) (report : List (Attempt n)) (sent : List Job)
    (hreport : ∀ a ∈ report, a.label = i ∧ a.seq < s.seq ∧
      (a.error = none → ∃ job, job.seq = a.seq ∧ (i, job) ∈ s.delivered))
    (hsent : ∀ job ∈ sent, job ∈ (s.workers i).held)
    (hw : WorkerOk s.seq s.race (s.inbox ++ report) (s.delivered ++ sent.map (i, ·)) i w) :
    Inv { s.setWorker i w with
      inbox := s.inbox ++ report
      delivered := s.delivered ++ sent.map (i, ·) } where
  workers := by
    refine (Function.forall_update_iff s.workers fun j w => WorkerOk _ _ _ _ j w).mpr ⟨hw,
      fun j hj => ?_⟩
    obtain ⟨load, free, known, sent, alive, htokens⟩ := h.workers j
    refine ⟨load, free, known, fun job hjob => List.mem_append_left _ (sent job hjob), alive,
      fun r hr => ?_⟩
    -- A report of another path is no token of this one.
    have hnone : report.countP (fun a => a.label = j && a.seq = r.seq) = 0 := by
      refine List.countP_eq_zero.mpr fun a ha => ?_
      simp [(hreport a ha).1, hj.symm]
    rw [Racer.tokens, List.countP_append, hnone]
    exact htokens r hr
  inbox a ha := by
    obtain ha | ha := List.mem_append.mp ha
    · obtain ⟨hlt, hsent⟩ := h.inbox a ha
      exact ⟨hlt, fun he => (hsent he).imp fun _ hj => ⟨hj.1, List.mem_append_left _ hj.2⟩⟩
    · obtain ⟨rfl, hlt, hsent⟩ := hreport a ha
      exact ⟨hlt, fun he => (hsent he).imp fun _ hj => ⟨hj.1, List.mem_append_left _ hj.2⟩⟩
  delivered p hp := by
    obtain hp | hp := List.mem_append.mp hp
    · exact h.delivered p hp
    · obtain ⟨job, hjob, rfl⟩ := List.mem_map.mp hp
      exact (h.workers i).known job (hsent job hjob)
  fresh := h.fresh
  lost := h.lost
  replies r o hr :=
    let t := h.replies r o hr
    ⟨t.own, t.dispatched, t.bounded, fun j hj => List.mem_append_left _ (t.winner j hj), t.loss⟩

theorem Inv.worker_only (h : Inv s) (hw : WorkerOk s.seq s.race s.inbox s.delivered i w) :
    Inv (s.setWorker i w) := by
  have hinv := h.worker (w := w) (i := i) [] [] (by simp) (by simp) (by simpa using hw)
  simp only [List.append_nil, List.map_nil] at hinv
  exact hinv

theorem Inv.take (h : Inv s) {jobs : List Job} (hthread : (s.workers i).thread = .receiving)
    (hjobs : (s.workers i).jobs = job :: jobs) :
    Inv (s.setWorker i { s.workers i with jobs, thread := .sending job }) := by
  obtain ⟨load, free, known, sent, alive, htokens⟩ := h.workers i
  simp only [Worker.occupied, Worker.held, tokens, hthread, hjobs, Thread.working, Thread.job,
    Option.toList,
    List.length_cons] at load free known htokens
  refine h.worker_only ⟨?_, fun hb => ?_, known, by simp, by simp, htokens⟩
  · simp only [Worker.occupied, Thread.working]
    omega
  · have := free hb
    simp only [Worker.occupied, Thread.working]
    omega

theorem Inv.returns (h : Inv s) (error : Option String)
    (hthread : (s.workers i).thread = .sending job) :
    Inv { s.setWorker i { s.workers i with thread := .sent job error } with
      delivered := s.delivered ++ if error = none then [(i, job)] else [] } := by
  obtain ⟨load, free, known, sent, alive, htokens⟩ := h.workers i
  have hheld : job ∈ (s.workers i).held := by simp [Worker.held, hthread, Thread.job]
  simp only [Worker.occupied, Worker.held, tokens, hthread, Thread.working, Thread.job]
    at load free known htokens
  split_ifs with herror
  · subst herror
    have hinv :=
      h.worker (w := { s.workers i with thread := .sent job none }) (i := i) [] [job] (by simp)
      (by simpa using hheld) ⟨load, free,
        known, by simp, by simp, by rw [List.append_nil]; exact htokens⟩
    simp only [List.append_nil, List.map_cons, List.map_nil] at hinv
    exact hinv
  · rw [List.append_nil]
    exact h.worker_only ⟨load, free, known, by simp [herror], by simp, htokens⟩

theorem Inv.release (h : Inv s) {error : Option String}
    (hthread : (s.workers i).thread = .sent job error) :
    Inv (s.setWorker i { s.workers i with busy := false, thread := .released job error }) := by
  obtain ⟨load, free, known, sent, alive, htokens⟩ := h.workers i
  simp only [Worker.occupied, Worker.held, tokens, hthread, Thread.working, Thread.job]
    at load known htokens
  refine h.worker_only ⟨?_, fun _ => ?_, known, fun job' hjob => ?_, by simp, htokens⟩
  · simp only [Worker.occupied, Thread.working]
    omega
  · simp only [Worker.occupied, Thread.working]
    omega
  · simp only [reduceCtorEq, Thread.released.injEq, false_or] at hjob
    exact sent job' (.inl (by rw [hthread, hjob.1, hjob.2]))

theorem Inv.publish (h : Inv s) {error : Option String}
    (hthread : (s.workers i).thread = .released job error) :
    Inv { s.setWorker i { s.workers i with thread := .receiving } with
      inbox := s.inbox ++ [⟨i, error, job.seq⟩] } := by
  obtain ⟨load, free, known, sent, alive, htokens⟩ := h.workers i
  simp only [Worker.occupied, Worker.held, tokens, hthread, Thread.working, Thread.job,
    Option.toList,
    List.cons_append, List.nil_append, List.forall_mem_cons] at load free known htokens
  have hinv :=
    h.worker (w := { s.workers i with thread := .receiving }) (i := i) [⟨i, error, job.seq⟩] []
    (by simpa using ⟨known.1.1, fun he => ⟨job, rfl, sent job (.inr (by rw [hthread, he]))⟩⟩)
      (by simp)
    ⟨load, free, fun job' hjob => known.2 job' hjob, by simp, by simp, fun r hr => ?_⟩
  · simp only [List.append_nil, List.map_nil] at hinv
    exact hinv
  · have := htokens r hr
    simp only [List.countP_cons, decide_eq_true_eq] at this
    simp only [tokens, Worker.held, Thread.job, Option.toList, List.nil_append, List.countP_append,
      List.countP_singleton, decide_true, Bool.true_and, decide_eq_true_eq]
    omega

theorem Inv.workerStep {e : Event n} (h : Inv s) (he : ∀ i, e ≠ .panics i)
    (hs : workerStep s e = some s') :
    Inv s' := by
  cases e with
  | panics i => exact absurd rfl (he i)
  | take i =>
    rw [Racer.workerStep] at hs
    split at hs
    · next job jobs hthread hjobs =>
      obtain rfl := Option.some.inj hs
      exact h.take hthread hjobs
    · cases hs
  | returns i error =>
    rw [Racer.workerStep] at hs
    split at hs
    · next job hthread =>
      obtain rfl := Option.some.inj hs
      have hinv := h.returns error hthread
      dsimp only
      split_ifs at hinv ⊢
      · exact hinv
      · rwa [List.append_nil] at hinv
    · cases hs
  | release i =>
    rw [Racer.workerStep] at hs
    split at hs
    · next job error hthread =>
      obtain rfl := Option.some.inj hs
      exact h.release hthread
    · cases hs
  | publish i =>
    rw [Racer.workerStep] at hs
    split at hs
    · next job error hthread =>
      obtain rfl := Option.some.inj hs
      exact h.publish hthread
    · cases hs
  | call | claim | post | collect | receive | deadline | giveUp => cases hs

/-! ### The race -/

theorem WorkerOk.moves {inbox : List (Attempt n)} {delivered : List (Fin n × Job)}
    (h : WorkerOk seq (some race) inbox delivered i w) (hjob : race'.job = race.job)
    (hattempts : race'.attempts = race.attempts)
    (hclaims : race'.phase.claims i = race.phase.claims i)
    (hcount : race'.dispatched.count i = race.dispatched.count i) :
    WorkerOk seq (some race') inbox delivered i w := by
  have hoccupied : w.occupied (some race') i = w.occupied (some race) i := by
    simp only [Worker.occupied, Option.map_some, hclaims]
  have hseq : race'.seq = race.seq := congrArg Job.seq hjob
  refine ⟨hoccupied ▸ h.load, hoccupied ▸ h.free, fun job hmem => (h.known job hmem).moves hjob,
    h.sent, h.alive, ?_⟩
  rintro r ⟨⟩
  rw [hseq, hattempts, hcount]
  exact h.tokens race rfl

/-- A step of the call, with what it does to the workers. -/
theorem Inv.moves (h : Inv s) (hr : s.race = some race) {workers : Fin n → Worker}
    (hjob : race'.job = race.job) (hattempts : race'.attempts = race.attempts)
    (hworkers : ∀ j, WorkerOk s.seq (some race') s.inbox s.delivered j (workers j)) :
    Inv { s with workers, race := some race' } := by
  have hseq : race'.seq = race.seq := congrArg Job.seq hjob
  refine ⟨hworkers, h.inbox, fun p hp => (hr ▸ h.delivered p hp).moves hjob, ?_, ?_, h.replies⟩
  · rintro r ⟨⟩
    exact hseq ▸ h.fresh race hr
  · rintro r ⟨⟩
    rw [hseq, hattempts]
    exact h.lost race hr

theorem Inv.workers_of (h : Inv s) (hr : s.race = some race) (j : Fin n) :
    WorkerOk s.seq (some race) s.inbox s.delivered j (s.workers j) := hr ▸ h.workers j

theorem Inv.moves_only (h : Inv s) (hr : s.race = some race) (hjob : race'.job = race.job)
    (hattempts : race'.attempts = race.attempts) (hclaims : race'.phase.claims = race.phase.claims)
    (hdispatched : race'.dispatched = race.dispatched) : Inv (s.setRace race') :=
  h.moves hr hjob hattempts fun j =>
    (h.workers_of hr j).moves hjob hattempts (congrFun hclaims j) (hdispatched ▸ rfl)

theorem Inv.reply (h : Inv s) {reply : Reply n}
    (hreply : ∀ r o, reply = .ok r o → Truthful s.delivered r o) :
    Inv (s.reply reply) where
  workers j := by
    obtain ⟨load, free, known, sent, alive, -⟩ := h.workers j
    have hle : (s.workers j).occupied (none : Option (Race n)) j ≤
        (s.workers j).occupied s.race j := by
      simp [Worker.occupied]
    exact ⟨hle.trans load, fun hb => Nat.le_zero.mp (free hb ▸ hle),
      fun job hmem => ⟨(known job hmem).1, by simp [State.reply]⟩, sent,
      alive, by simp [State.reply]⟩
  inbox := h.inbox
  delivered p hp := ⟨(h.delivered p hp).1, by simp [State.reply]⟩
  fresh := by simp [State.reply]
  lost := by simp [State.reply]
  replies r o hmem := by
    obtain hmem | hmem := List.mem_append.mp hmem
    · exact h.replies r o hmem
    · exact hreply r o (List.mem_singleton.mp hmem).symm

theorem attempts_subperm {workers : Fin n → Worker} {inbox attempts : List (Attempt n)}
    {dispatched : List (Fin n)}
    (h : ∀ i, tokens seq i (workers i) inbox attempts ≤ dispatched.count i) :
    (attempts.map (·.label)).Subperm dispatched := by
  refine List.subperm_ext_iff.mpr fun i _ => ?_
  have hi := h i
  rw [tokens] at hi
  omega

/-- The attempt at the head of the inbox moves to the race it belongs to. -/
theorem tokens_received (w : Worker) (ha : a.seq = seq) (rest attempts : List (Attempt n)) :
    tokens seq i w rest (attempts ++ [a]) = tokens seq i w (a :: rest) attempts := by
  simp only [tokens, List.countP_cons, List.map_append, List.map_cons, List.map_nil,
    List.count_append,
    List.count_singleton, ha, decide_true, Bool.and_true, beq_iff_eq, decide_eq_true_eq]
  omega

theorem Inv.shrink_inbox (h : Inv s) (hin : s.inbox = a :: rest) :
    Inv { s with inbox := rest } where
  workers j := by
    obtain ⟨load, free, known, sent, alive, htokens⟩ := h.workers j
    refine ⟨load, free, known, sent, alive, fun r hr => le_trans ?_ (htokens r hr)⟩
    simp only [tokens, hin, List.countP_cons]
    omega
  inbox a' ha' := h.inbox a' (hin ▸ List.mem_cons_of_mem a ha')
  delivered := h.delivered
  fresh := h.fresh
  lost := h.lost
  replies := h.replies

theorem Inv.received (h : Inv s) (hr : s.race = some race) (hin : s.inbox = a :: rest)
    (ha : a.seq = race.seq) (hlost : a.error.isSome) :
    Inv { s with inbox := rest, race := some { race with attempts := race.attempts ++ [a] } } where
  workers j := by
    obtain ⟨load, free, known, sent, alive, htokens⟩ := h.workers_of hr j
    refine ⟨load, free, fun job hmem => (known job hmem).moves rfl, sent, alive, ?_⟩
    rintro r ⟨⟩
    rw [tokens_received _ ha, ← hin]
    exact htokens race rfl
  inbox a' ha' := h.inbox a' (hin ▸ List.mem_cons_of_mem a ha')
  delivered p hp := (hr ▸ h.delivered p hp).moves rfl
  fresh := by
    rintro r ⟨⟩
    exact h.fresh race hr
  lost := by
    rintro r ⟨⟩ a' ha'
    obtain ha' | ha' := List.mem_append.mp ha'
    · exact h.lost race hr a' ha'
    · obtain rfl := List.mem_singleton.mp ha'
      exact ⟨ha, hlost⟩
  replies := h.replies

/-- A success that carries the number of the race is of its own frame. -/
theorem Inv.winner (h : Inv s) (hr : s.race = some race) (hin : s.inbox = a :: rest)
    (ha : a.seq = race.seq) (hwon : a.error = none) :
    Truthful s.delivered { race with attempts := race.attempts ++ [a] }
      (Race.outcome { race with attempts := race.attempts ++ [a] } (some a.label)) where
  own a' ha' := by
    obtain ha' | ha' := List.mem_append.mp ha'
    · exact (h.lost race hr a' ha').1
    · exact List.mem_singleton.mp ha' ▸ ha
  dispatched := rfl
  bounded := by
    have htokens (j : Fin n) :
        tokens race.seq j (s.workers j) rest (race.attempts ++ [a]) ≤ race.dispatched.count j := by
      rw [tokens_received _ ha, ← hin]
      exact (h.workers j).tokens race hr
    have hlength := (attempts_subperm htokens).length_le
    rwa [List.length_map] at hlength
  winner j hj := by
    obtain ⟨job, hseq, hmem⟩ := (h.inbox a (hin ▸ List.mem_cons_self)).2 hwon
    obtain rfl : a.label = j := Option.some.inj hj
    exact (h.delivered _ hmem).2 race hr (hseq.trans ha) ▸ hmem
  loss hnone := by cases hnone

theorem Inv.loser (h : Inv s) (hr : s.race = some race)
    (hover : race.dispatched.length ≤ race.attempts.length ∨ race.expired = true ∨
      s.inbox = [] ∧ ∀ i, (s.workers i).thread = .gone) :
    Truthful s.delivered race (race.outcome none) where
  own a ha := (h.lost race hr a ha).1
  dispatched := rfl
  bounded := by
    simpa [Race.outcome] using (attempts_subperm fun i => (h.workers i).tokens race hr).length_le
  winner _ hj := by cases hj
  loss _ hlive i hi := by
    obtain hall | hexpired | ⟨-, hgone⟩ := hover
    · have hperm :=
        (attempts_subperm fun i => (h.workers i).tokens race hr).perm_of_length_le
        (by simpa using hall)
      obtain ⟨a, ha, rfl⟩ := List.mem_map.mp (hperm.symm.subset hi)
      exact ⟨a, ha, rfl, (h.lost race hr a ha).2⟩
    · simp [hlive] at hexpired
    · exact absurd (hgone i) (h.workers i).alive

theorem Inv.claim (h : Inv s) (hr : s.race = some race) {todo : List (Fin n)}
    (hphase : race.phase = .dispatching (i :: todo)) (hbusy : (s.workers i).busy = false) :
    Inv ((s.setWorker i { s.workers i with busy := true }).setRace
      { race with phase := .claimed i todo }) := by
  refine h.moves hr rfl rfl
    ((Function.forall_update_iff s.workers fun j w => WorkerOk _ _ _ _ j w).mpr ⟨?_,
      fun j hj => ?_⟩)
  · obtain ⟨load, free, known, sent, alive, htokens⟩ := h.workers_of hr i
    have hfree := free hbusy
    refine ⟨?_, by simp, fun job hmem => (known job hmem).moves rfl, sent, alive, ?_⟩
    · simp only [Worker.occupied, Phase.claims, hphase, Option.map_some, Option.getD_some,
        if_true] at hfree ⊢
      omega
    · rintro r ⟨⟩
      exact htokens race rfl
  · exact (h.workers_of hr j).moves rfl rfl (by simp [hphase, Phase.claims, hj.symm]) rfl

theorem Inv.post (h : Inv s) (hr : s.race = some race) {todo : List (Fin n)}
    (hphase : race.phase = .claimed i todo) :
    Inv ((s.setWorker i { s.workers i with jobs := (s.workers i).jobs ++ [race.job] }).setRace
      { race with dispatched := race.dispatched ++ [i], phase := .dispatching todo }) := by
  refine h.moves hr rfl rfl
    ((Function.forall_update_iff s.workers fun j w => WorkerOk _ _ _ _ j w).mpr ⟨?_,
      fun j hj => ?_⟩)
  · obtain ⟨load, free, known, sent, alive, htokens⟩ := h.workers_of hr i
    simp only [Worker.occupied, hphase, Phase.claims, Option.map_some, Option.getD_some,
      if_true] at load free
    refine ⟨?_, fun hb => ?_, fun job hmem => ?_, sent, alive, ?_⟩
    · simp [Worker.occupied, Phase.claims]
      omega
    · have := free hb
      omega
    · rw [Worker.held, ← List.append_assoc] at hmem
      obtain hmem | hmem := List.mem_append.mp hmem
      · exact (known job hmem).moves rfl
      · obtain rfl := List.mem_singleton.mp hmem
        refine ⟨h.fresh race hr, ?_⟩
        rintro r ⟨⟩ -
        rfl
    · rintro r ⟨⟩
      have hle := htokens race rfl
      simp only [tokens, Worker.held, List.countP_append] at hle
      simp [tokens, Worker.held, List.countP_append, Race.job]
      omega
  · refine (h.workers_of hr j).moves rfl rfl (by simp [hphase, Phase.claims, hj.symm]) ?_
    simp [List.count_append, hj.symm]

theorem Inv.raceStep {e : Event n} (h : Inv s) (hr : s.race = some race)
    (hs : raceStep s race e = some s') :
    Inv s' := by
  cases e with
  | claim =>
    rw [Racer.raceStep] at hs
    split at hs
    · next i todo hphase =>
      split_ifs at hs with hbusy
      · obtain rfl := Option.some.inj hs
        exact h.moves_only hr rfl rfl (by simp only [hphase]; rfl) rfl
      · obtain rfl := Option.some.inj hs
        exact h.claim hr hphase (Bool.eq_false_iff.mpr hbusy)
    · cases hs
  | post =>
    rw [Racer.raceStep] at hs
    split at hs
    · next i todo hphase =>
      split_ifs at hs with hgone
      · exact absurd hgone (h.workers i).alive
      · obtain rfl := Option.some.inj hs
        exact h.post hr hphase
    · cases hs
  | collect =>
    rw [Racer.raceStep] at hs
    split at hs
    · next hphase =>
      split_ifs at hs with hnone
      · obtain rfl := Option.some.inj hs
        exact h.reply (by simp)
      · obtain rfl := Option.some.inj hs
        exact h.moves_only hr rfl rfl (by simp only [hphase]; rfl) rfl
    · cases hs
  | receive =>
    rw [Racer.raceStep] at hs
    split at hs
    · next a rest _ hin =>
      dsimp only at hs
      split_ifs at hs with hroom hstale hwon
      · obtain rfl := Option.some.inj hs
        exact h.shrink_inbox hin
      · obtain rfl := Option.some.inj hs
        refine (h.shrink_inbox hin).reply ?_
        rintro r o ⟨⟩
        exact h.winner hr hin (not_not.mp hstale) (by simpa [Attempt.succeeded] using hwon)
      · obtain rfl := Option.some.inj hs
        exact h.received hr hin (not_not.mp hstale)
          (by simpa [Attempt.succeeded, Option.isSome_iff_ne_none] using hwon)
    · cases hs
  | deadline =>
    obtain rfl := Option.some.inj hs
    exact h.moves_only hr rfl rfl rfl rfl
  | giveUp =>
    rw [Racer.raceStep] at hs
    split_ifs at hs with hover
    obtain rfl := Option.some.inj hs
    refine h.reply ?_
    rintro r o ⟨⟩
    exact h.loser hr hover.2
  | call | take | returns | panics | release | publish => cases hs

theorem Inv.call (h : Inv s) {frame : List UInt8} (hs : call s frame = some s') : Inv s' := by
  rw [Racer.call] at hs
  split_ifs at hs with hlarge
  · obtain rfl := Option.some.inj hs
    exact ⟨h.workers, h.inbox, h.delivered, h.fresh, h.lost, by simpa using h.replies⟩
  · split at hs
    · cases hs
    · next hrace =>
      obtain rfl := Option.some.inj hs
      -- No job and no report carries the number that the call takes.
      have hnew {job : Job} (hk : Known s.seq s.race job) :
          Known (s.seq + 1) (some { frame, seq := s.seq } : Option (Race n)) job := by
        refine ⟨hk.1.trans (Nat.lt_succ_self _), ?_⟩
        rintro r ⟨⟩ heq
        exact absurd heq hk.1.ne
      refine ⟨fun j => ?_, fun a ha => ?_, fun p hp => hnew (h.delivered p hp), ?_, ?_, h.replies⟩
      · obtain ⟨load, free, known, sent, alive, -⟩ := h.workers j
        rw [hrace] at load free
        refine ⟨load, free, fun job hmem => hnew (known job hmem), sent, alive, ?_⟩
        rintro r ⟨⟩
        have hheld : (s.workers j).held.countP (·.seq = s.seq) = 0 :=
          List.countP_eq_zero.mpr fun job hmem => by simpa using (known job hmem).1.ne
        have hinbox : s.inbox.countP (fun a => a.label = j && a.seq = s.seq) = 0 :=
          List.countP_eq_zero.mpr fun a ha => by simpa using fun _ => (h.inbox a ha).1.ne
        simp [tokens, hheld, hinbox]
      · exact ⟨(h.inbox a ha).1.trans (Nat.lt_succ_self _), (h.inbox a ha).2⟩
      · rintro r ⟨⟩
        exact Nat.lt_succ_self _
      · rintro r ⟨⟩
        simp

/-- No send of a path panics. -/
def NoPanic (_ : State n) (e : Event n) : Prop := ∀ i, e ≠ .panics i

theorem Inv.step {e : Event n} (h : Inv s) (he : NoPanic s e) (hs : step s e = some s') :
    Inv s' := by
  cases e with
  | call frame => exact h.call hs
  | claim | post | collect | receive | deadline | giveUp =>
    obtain ⟨race, hr, hs⟩ := Option.bind_eq_some_iff.mp hs
    exact h.raceStep hr hs
  | take | returns | panics | release | publish => exact h.workerStep he hs

/-- While no send panics, every outcome tells the truth and no path has two unfinished jobs. -/
theorem race_reports_true_winners {n : ℕ} {s : State n} (h : Reached step NoPanic {} s) :
    (∀ i, (s.workers i).unfinished ≤ 1) ∧
      ∀ race outcome, .ok race outcome ∈ s.replies → Truthful s.delivered race outcome := by
  have hinv : Inv s := h.invariant Inv.start fun _ _ _ he hs hinv => hinv.step he hs
  exact ⟨fun i => ((s.workers i).unfinished_le s.race).trans (hinv.workers i).load, hinv.replies⟩

def sendsReturn {n : ℕ} (_ : State n) : Event n → Bool
  | .panics _ => false
  | _ => true

def secondRace : Race 2 where
  frame := [8]
  seq := 1
  phase := .collecting
  dispatched := List.finRange 2
  attempts := [⟨Fin.last 1, some "down", 1⟩, ⟨(Fin.last 1).rev, none, 1⟩]

/-- A path frees itself before it reports its first race, and the report comes in the second, which
has given it a job and is won by the other path. -/
theorem late_report_wins_nothing :
    ∃ s : State 2, Reached step NoPanic {} s ∧
      .ok secondRace (secondRace.outcome (some 0)) ∈ s.replies ∧
      Truthful s.delivered secondRace (secondRace.outcome (some 0)) := by
  obtain ⟨s, hs, hp⟩ := Reached.exists_of_run (step (n := 2)) (C := NoPanic) sendsReturn
    (fun s : State 2 => decide (Reply.ok secondRace (secondRace.outcome (some 0)) ∈ s.replies)) {}
    [.call [7], .claim, .post, .claim, .post, .collect, .take 0, .returns 0 none, .release 0,
      .publish 0, .receive,
      .take 1, .returns 1 none, .release 1, .call [8], .claim, .post, .claim, .post, .collect,
      .publish 1, .receive,
      .take 1, .returns 1 (some "down"), .release 1, .publish 1, .receive, .take 0,
      .returns 0 none, .release 0,
      .publish 0, .receive]
    (fun _ e he i heq => by subst heq; cases he) (by decide +kernel) (by decide +kernel)
  have hreply := of_decide_eq_true hp
  exact ⟨s, hs, hreply, (race_reports_true_winners hs).2 _ _ hreply⟩

def panickedRace : Race 1 where
  frame := [7]
  seq := 0
  phase := .collecting
  dispatched := [0]

/-- The only path panics in its send: the race ends before its deadline, with no report at all. -/
theorem panicked_path_reports_nothing :
    ∃ s : State 1, Reached step (fun _ _ => True) {} s ∧ ∃ race outcome,
      .ok race outcome ∈ s.replies ∧
      outcome.winner = none ∧ race.expired = false ∧ 0 ∈ race.dispatched ∧
        outcome.attempts = [] := by
  obtain ⟨s, hs, hp⟩ :=
    Reached.exists_of_run (step (n := 1)) (C := fun _ _ => True) (fun _ _ => true)
    (fun s : State 1 => decide (Reply.ok panickedRace (panickedRace.outcome none) ∈ s.replies)) {}
    [.call [7], .claim, .post, .collect, .take 0, .panics 0, .giveUp] (fun _ _ _ => trivial)
      (by decide +kernel)
    (by decide +kernel)
  exact ⟨s, hs, _, _, of_decide_eq_true hp, rfl, rfl, List.mem_singleton.mpr rfl, rfl⟩

end Foundation.Racer
