-- The queue of script checks (`CCheckQueue`): a master adds checks, workers
-- and, once it waits, the master take them in batches and run them outside the
-- lock. Every section under the mutex is one step.
import Mathlib.Algebra.BigOperators.Group.Finset.Basic
import Mathlib.Algebra.Order.BigOperators.Group.Finset
import Mathlib.Algebra.Order.Group.Multiset
import Mathlib.Data.Fintype.Option
import Mathlib.Data.Fintype.BigOperators
import Mathlib.Tactic.Abel
import Junkcoin.Lib.Fair

namespace junkcoin

namespace CCheckQueue

variable {C : Type}

/-- What `Loop` holds in its locals while it runs checks: those still to run,
the size of the whole batch, and the result so far. -/
structure Batch (C : Type) where
  vChecks : List C
  nNow : Nat
  fOk : Bool

/-- Where a thread stands. -/
inductive Phase (C : Type) where
  /-- not in `Loop` -/
  | outside
  /-- in `Loop`, about to take the mutex for the first time -/
  | starting
  | running (b : Batch C)
  /-- asleep in `cond.wait` -/
  | waiting
  /-- notified, about to take the mutex again -/
  | woken

/-- The batch a thread works on. -/
def Phase.batch {C : Type} : Phase C → Option (Batch C)
  | .outside => none
  | .starting => none
  | .running b => some b
  | .waiting => none
  | .woken => none

/-- A notification reaches the threads that sleep. -/
def Phase.wake {C : Type} : Phase C → Phase C
  | .outside => .outside
  | .starting => .starting
  | .running b => .running b
  | .waiting => .woken
  | .woken => .woken

@[simp] theorem Phase.batch_running (b : Batch C) : (running b).batch = some b := rfl

@[simp] theorem Phase.batch_starting : (starting : Phase C).batch = none := rfl

@[simp] theorem Phase.batch_wake (p : Phase C) : p.wake.batch = p.batch := by
  cases p <;> rfl

theorem Phase.wake_ne_waiting (p : Phase C) : p.wake ≠ .waiting := by
  cases p <;> nofun

end CCheckQueue

open CCheckQueue Phase

/-- The queue, with where its threads stand: `none` is the master. The last
fields follow the checks since the last `Wait`: those added, those run, and
those passed over because a check had failed before. -/
structure CCheckQueue (W C : Type) where
  /-- back of the vector first -/
  queue : List C
  nIdle : Nat
  nTotal : Nat
  fAllOk : Bool
  nTodo : Nat
  phase : Option W → Phase C
  /-- what the last `Wait` returned -/
  fRet : Option Bool
  added : Multiset C
  executed : Multiset C
  skipped : Multiset C

namespace CCheckQueue

variable {W C : Type}

/-- A new queue; no thread has entered it. -/
def empty : CCheckQueue W C where
  queue := []
  nIdle := 0
  nTotal := 0
  fAllOk := true
  nTodo := 0
  phase := fun _ => .outside
  fRet := none
  added := 0
  executed := 0
  skipped := 0

/-- How many checks a thread takes. The division is of `unsigned int`s. -/
def nextBatch (nBatchSize : Nat) (s : CCheckQueue W C) : Nat :=
  max 1 (min nBatchSize (s.queue.length % 2 ^ 32 / (s.nTotal + s.nIdle + 1)))

section Loop

variable [DecidableEq W] (nBatchSize : Nat) (check : C → Bool) (t : Option W) (s : CCheckQueue W C)

/-- The master leaves `Loop`. -/
def finish : CCheckQueue W C :=
  { s with
    nTotal := s.nTotal - 1
    fAllOk := true
    phase := Function.update s.phase none .outside
    fRet := some s.fAllOk
    added := 0
    executed := 0
    skipped := 0 }

/-- The thread sleeps. -/
def sleep : CCheckQueue W C :=
  { s with nIdle := s.nIdle + 1, phase := Function.update s.phase t .waiting }

/-- The thread goes off with a batch from the back of the queue. -/
def takeBatch : CCheckQueue W C :=
  let nNow := nextBatch nBatchSize s
  { s with
    queue := s.queue.drop nNow
    phase := Function.update s.phase t (.running ⟨s.queue.take nNow, nNow, s.fAllOk⟩) }

/-- From the head of the inner loop, under the mutex, until the mutex is
released: `Loop` returns, sleeps, or goes off with a batch. `fQuit` is never
set, so only the master returns. -/
def loopHead : CCheckQueue W C :=
  if s.queue.isEmpty then
    if t = none ∧ s.nTodo = 0 then s.finish else s.sleep t
  else s.takeBatch nBatchSize t

/-- The clean-up of the previous round: the batch's result is merged, and the
master told when nothing is left. -/
def merge (b : Batch C) (s : CCheckQueue W C) : CCheckQueue W C :=
  let nTodo := (s.nTodo + 2 ^ 32 - b.nNow) % 2 ^ 32
  let phase := Function.update s.phase t .starting
  { s with
    fAllOk := s.fAllOk && b.fOk
    nTodo := nTodo
    phase :=
      if nTodo = 0 ∧ t ≠ none then Function.update phase none (phase none).wake else phase }

/-- One check of a batch, outside the mutex. -/
def execute (c : C) (b : Batch C) (s : CCheckQueue W C) : CCheckQueue W C :=
  if b.fOk then
    { s with
      executed := c ::ₘ s.executed
      phase := Function.update s.phase t (.running { b with fOk := check c }) }
  else
    { s with
      skipped := c ::ₘ s.skipped
      phase := Function.update s.phase t (.running b) }

/-- The next step of a thread in `Loop`. -/
def loopStep : Option (CCheckQueue W C) :=
  match s.phase t with
  | .outside => none
  | .waiting => none
  | .starting => some (loopHead nBatchSize t { s with nTotal := s.nTotal + 1 })
  | .woken => some (loopHead nBatchSize t { s with nIdle := s.nIdle - 1 })
  | .running ⟨c :: vChecks, nNow, fOk⟩ => some (execute check t c ⟨vChecks, nNow, fOk⟩ s)
  | .running ⟨[], nNow, fOk⟩ => some (loopHead nBatchSize t (merge t ⟨[], nNow, fOk⟩ s))

/-- Whom `Add` of so many checks wakes: `notify_one` picks any worker that
sleeps, `notify_all` wakes them all. -/
def Notifies (size : Nat) (φ φ' : Option W → Phase C) : Prop :=
  if size = 0 then φ' = φ
  else if size = 1 then
    (∃ w, φ (some w) = .waiting ∧ φ' = Function.update φ (some w) .woken) ∨
      (∀ w, φ (some w) ≠ .waiting) ∧ φ' = φ
  else φ' none = φ none ∧ ∀ w, φ' (some w) = (φ (some w)).wake

/-- `Add`, with the threads as its notification leaves them. -/
def add (vChecks : List C) (φ : Option W → Phase C) (s : CCheckQueue W C) : CCheckQueue W C :=
  { s with
    queue := vChecks.reverse ++ s.queue
    nTodo := (s.nTodo + vChecks.length) % 2 ^ 32
    phase := φ
    added := (vChecks : Multiset C) + s.added }

/-- Who takes a step: a thread in `Loop`, or what surrounds it (the master's
own code, the start of workers, spurious wake-ups, and time that passes). -/
inductive Actor (W : Type) where
  | loop (t : Option W)
  | surroundings

/-- The steps of the queue. Between two returns of `Wait` the master adds
fewer than `2 ^ 32` checks, the range of `nTodo`. `CCheckQueueControl` hands
its `Add` and `Wait` on to the queue, and its destructor waits if its owner
did not: one `wait` here for either. -/
inductive Step : Actor W → CCheckQueue W C → CCheckQueue W C → Prop
  | loop {s s' : CCheckQueue W C} (t : Option W) (h : loopStep nBatchSize check t s = some s') :
      Step (.loop t) s s'
  | thread {s : CCheckQueue W C} (w : W) (h : s.phase (some w) = .outside) :
      Step .surroundings s { s with phase := Function.update s.phase (some w) .starting }
  | add {s : CCheckQueue W C} (vChecks : List C) (φ : Option W → Phase C)
      (h : s.phase none = .outside) (hfits : s.added.card + vChecks.length < 2 ^ 32)
      (hφ : Notifies vChecks.length s.phase φ) : Step .surroundings s (s.add vChecks φ)
  | wait {s : CCheckQueue W C} (h : s.phase none = .outside) :
      Step .surroundings s { s with phase := Function.update s.phase none .starting }
  | spurious {s : CCheckQueue W C} (t : Option W) (h : s.phase t = .waiting) :
      Step .surroundings s { s with phase := Function.update s.phase t .woken }
  | idle {s : CCheckQueue W C} : Step .surroundings s s

/-- The states some interleaving leads to. -/
def Reachable : Prop :=
  Relation.ReflTransGen (fun s s' => ∃ a, Step nBatchSize check a s s') empty s

end Loop

/-! ### What one step can do -/

section Steps

variable [DecidableEq W] {nBatchSize : Nat} {check : C → Bool} {t : Option W}
  {s s' : CCheckQueue W C}

theorem finish_phase : s.finish.phase = Function.update s.phase none .outside := rfl

theorem sleep_phase : (s.sleep t).phase = Function.update s.phase t .waiting := rfl

theorem takeBatch_phase : (s.takeBatch nBatchSize t).phase = Function.update s.phase t
    (.running ⟨s.queue.take (nextBatch nBatchSize s), nextBatch nBatchSize s, s.fAllOk⟩) := rfl

theorem loopHead_cases (nBatchSize : Nat) (t : Option W) (s : CCheckQueue W C) :
    (s.queue = [] ∧ t = none ∧ s.nTodo = 0 ∧ loopHead nBatchSize t s = s.finish) ∨
    (s.queue = [] ∧ (t = none → s.nTodo ≠ 0) ∧ loopHead nBatchSize t s = s.sleep t) ∨
    (s.queue ≠ [] ∧ loopHead nBatchSize t s = s.takeBatch nBatchSize t) := by
  unfold loopHead
  by_cases hq : s.queue = []
  · by_cases hlast : t = none ∧ s.nTodo = 0
    · exact .inl ⟨hq, hlast.1, hlast.2, by rw [if_pos (by simp [hq]), if_pos hlast]⟩
    · refine .inr (.inl ⟨hq, fun ht hn => hlast ⟨ht, hn⟩, ?_⟩)
      rw [if_pos (by simp [hq]), if_neg hlast]
  · exact .inr (.inr ⟨hq, by rw [if_neg (by simpa using hq)]⟩)

/-- A thread in `Loop` runs a check of its batch, or takes the mutex: for the
first time, after a wake-up, or with a finished batch. -/
theorem loopStep_cases (h : loopStep nBatchSize check t s = some s') :
    (∃ c vChecks nNow fOk, s.phase t = .running ⟨c :: vChecks, nNow, fOk⟩ ∧
      s' = execute check t c ⟨vChecks, nNow, fOk⟩ s) ∨
    ∃ s₁, s' = loopHead nBatchSize t s₁ ∧
      (s.phase t = .starting ∧ s₁ = { s with nTotal := s.nTotal + 1 } ∨
        s.phase t = .woken ∧ s₁ = { s with nIdle := s.nIdle - 1 } ∨
        ∃ nNow fOk, s.phase t = .running ⟨[], nNow, fOk⟩ ∧ s₁ = merge t ⟨[], nNow, fOk⟩ s) := by
  unfold loopStep at h
  split at h
  · cases h
  · cases h
  · exact .inr ⟨_, (Option.some.inj h).symm, .inl ⟨‹_›, rfl⟩⟩
  · exact .inr ⟨_, (Option.some.inj h).symm, .inr (.inl ⟨‹_›, rfl⟩)⟩
  · exact .inl ⟨_, _, _, _, ‹_›, (Option.some.inj h).symm⟩
  · exact .inr ⟨_, (Option.some.inj h).symm, .inr (.inr ⟨_, _, ‹_›, rfl⟩)⟩

theorem loopStep_check {c : C} {vChecks : List C} {nNow : Nat} {fOk : Bool}
    (hb : s.phase t = .running ⟨c :: vChecks, nNow, fOk⟩) :
    loopStep nBatchSize check t s = some (execute check t c ⟨vChecks, nNow, fOk⟩ s) := by
  simp only [loopStep, hb]

theorem loopStep_merge {nNow : Nat} {fOk : Bool} (hb : s.phase t = .running ⟨[], nNow, fOk⟩) :
    loopStep nBatchSize check t s =
      some (loopHead nBatchSize t (merge t ⟨[], nNow, fOk⟩ s)) := by
  simp only [loopStep, hb]

/-- A thread can act unless it is outside or asleep. -/
theorem enabled_loop (hout : s.phase t ≠ .outside) (hsleep : s.phase t ≠ .waiting) :
    Fair.Enabled (Step nBatchSize check) (.loop t) s := by
  have : (loopStep nBatchSize check t s).isSome := by
    unfold loopStep
    split <;> simp_all
  obtain ⟨s', hs'⟩ := Option.isSome_iff_exists.mp this
  exact ⟨s', .loop t hs'⟩

end Steps

/-! ### What every interleaving keeps -/

/-- The checks of a batch that are still to run. -/
def inHand : Option (Batch C) → Multiset C
  | none => 0
  | some b => b.vChecks

/-- What a batch still counts for in `nTodo`. -/
def owed : Option (Batch C) → Nat
  | none => 0
  | some b => b.nNow

/-- A thread has seen a check fail, or started its batch after one did. -/
def Failed : Option (Batch C) → Prop
  | none => False
  | some b => b.fOk = false

@[simp] theorem inHand_none : inHand (none : Option (Batch C)) = 0 := rfl

@[simp] theorem inHand_some (b : Batch C) : inHand (some b) = b.vChecks := rfl

@[simp] theorem owed_none : owed (none : Option (Batch C)) = 0 := rfl

@[simp] theorem owed_some (b : Batch C) : owed (some b) = b.nNow := rfl

@[simp] theorem not_failed_none : ¬ Failed (none : Option (Batch C)) := id

@[simp] theorem failed_some (b : Batch C) : Failed (some b) ↔ b.fOk = false := Iff.rfl

/-- The queue or a thread knows of a failed check. -/
def Failing (s : CCheckQueue W C) : Prop :=
  s.fAllOk = false ∨ ∃ t, Failed (s.phase t).batch

/-- What holds of the queue between two sections under the mutex. -/
structure Consistent [Fintype W] (check : C → Bool) (s : CCheckQueue W C) : Prop where
  conserved : (s.queue : Multiset C) + ∑ t, inHand (s.phase t).batch + s.executed + s.skipped =
    s.added
  counted : s.nTodo = s.queue.length + ∑ t, owed (s.phase t).batch
  nonempty : ∀ t, ∀ b ∈ (s.phase t).batch, 0 < b.nNow
  bounded : s.nTodo ≤ s.added.card
  fits : s.added.card < 2 ^ 32
  failing : s.Failing ↔ ∃ c ∈ s.executed, check c = false
  skips : s.skipped ≠ 0 → s.Failing
  /-- the master sleeps only while others still run checks -/
  asleep : s.phase none = .waiting → s.queue = [] ∧ s.nTodo ≠ 0

section Updates

variable [DecidableEq W] {t : Option W} {s : CCheckQueue W C} {p : Phase C} {φ : Option W → Phase C}

theorem sum_batch_update [Fintype W] {M : Type} [AddCommMonoid M] (f : Option (Batch C) → M)
    (φ : Option W → Phase C) (t : Option W) (p : Phase C) :
    ∑ u, f (Function.update φ t p u).batch + f (φ t).batch = ∑ u, f (φ u).batch + f p.batch := by
  have hrest : ∑ u ∈ Finset.univ.erase t, f (Function.update φ t p u).batch =
      ∑ u ∈ Finset.univ.erase t, f (φ u).batch :=
    Finset.sum_congr rfl fun u hu => by rw [Function.update_of_ne (Finset.ne_of_mem_erase hu)]
  rw [← Finset.add_sum_erase _ _ (Finset.mem_univ t), hrest, Function.update_self,
    ← Finset.add_sum_erase _ (fun u => f (φ u).batch) (Finset.mem_univ t),
    add_right_comm, add_comm (f p.batch), add_right_comm]

/-- The thread `t` apart from the others. -/
theorem failing_iff (t : Option W) : s.Failing ↔
    s.fAllOk = false ∨ Failed (s.phase t).batch ∨ ∃ u, u ≠ t ∧ Failed (s.phase u).batch := by
  constructor
  · rintro (h | ⟨u, hu⟩)
    · exact .inl h
    · by_cases hut : u = t
      · exact .inr (.inl (hut ▸ hu))
      · exact .inr (.inr ⟨u, hut, hu⟩)
  · rintro (h | h | ⟨u, -, hu⟩)
    · exact .inl h
    · exact .inr ⟨t, h⟩
    · exact .inr ⟨u, hu⟩

/-- The thread `t` gets another batch. -/
theorem failing_update {q : CCheckQueue W C}
    (hφ : ∀ u, (q.phase u).batch = (Function.update s.phase t p u).batch) : q.Failing ↔
    q.fAllOk = false ∨ Failed p.batch ∨ ∃ u, u ≠ t ∧ Failed (s.phase u).batch := by
  rw [failing_iff t, hφ, Function.update_self]
  refine or_congr_right (or_congr_right (exists_congr fun u => and_congr_right fun hu => ?_))
  rw [hφ, Function.update_of_ne hu]

theorem nonempty_update (h : ∀ u, ∀ b ∈ (φ u).batch, 0 < b.nNow) (hp : ∀ b ∈ p.batch, 0 < b.nNow)
    (u : Option W) : ∀ b ∈ (Function.update φ t p u).batch, 0 < b.nNow := by
  by_cases hu : u = t
  · rw [hu, Function.update_self]
    exact hp
  · rw [Function.update_of_ne hu]
    exact h u

/-- The master sleeps after a step of a thread that does not. -/
theorem asleep_of_update (h : Function.update φ t p none = .waiting) (hp : p ≠ .waiting) :
    φ none = .waiting := by
  by_cases ht : t = none
  · rw [ht, Function.update_self] at h
    exact absurd h hp
  · rwa [Function.update_of_ne (Ne.symm ht)] at h

end Updates

namespace Consistent

variable [Fintype W] {check : C → Bool} {s : CCheckQueue W C}

theorem empty : Consistent check (empty : CCheckQueue W C) where
  conserved := by simp [CCheckQueue.empty, batch, inHand]
  counted := by simp [CCheckQueue.empty, batch, owed]
  nonempty := by simp [CCheckQueue.empty, batch]
  bounded := Nat.zero_le _
  fits := by simp [CCheckQueue.empty]
  failing := by simp [CCheckQueue.empty, Failing, Failed, batch]
  skips := by simp [CCheckQueue.empty]
  asleep := by simp [CCheckQueue.empty]

/-- Threads that come, go, sleep or wake keep their batches. -/
theorem rephase (h : Consistent check s) {φ : Option W → Phase C}
    (hφ : ∀ t, (φ t).batch = (s.phase t).batch)
    (hmaster : φ none = .waiting → s.queue = [] ∧ s.nTodo ≠ 0) (nIdle nTotal : Nat) :
    Consistent check { s with nIdle := nIdle, nTotal := nTotal, phase := φ } := by
  have hfailing : Failing { s with nIdle := nIdle, nTotal := nTotal, phase := φ } ↔ s.Failing := by
    simp only [Failing, hφ]
  exact {
    conserved := by simpa only [hφ] using h.conserved
    counted := by simpa only [hφ] using h.counted
    nonempty := by simpa only [hφ] using h.nonempty
    bounded := h.bounded
    fits := h.fits
    failing := hfailing.trans h.failing
    skips := fun hs => hfailing.mpr (h.skips hs)
    asleep := hmaster }

/-- With nothing to do no thread holds a batch. -/
theorem batch_eq_none (h : Consistent check s) (h0 : s.nTodo = 0) (t : Option W) :
    (s.phase t).batch = none := by
  have hsum : ∑ t, owed (s.phase t).batch = 0 := by
    have := h.counted
    omega
  have ht := (Finset.sum_eq_zero_iff.mp hsum) t (Finset.mem_univ t)
  cases hb : (s.phase t).batch with
  | none => rfl
  | some b =>
    have hpos := h.nonempty t b hb
    rw [hb] at ht
    exact absurd ht (Nat.pos_iff_ne_zero.mp hpos)

theorem not_failing_iff (h : Consistent check s) :
    ¬ s.Failing ↔ ∀ c ∈ s.executed, check c = true := by
  rw [h.failing]
  simp

theorem owed_le (h : Consistent check s) {t : Option W} {b : Batch C}
    (hb : s.phase t = .running b) : b.nNow ≤ s.nTodo := by
  have : owed (s.phase t).batch ≤ ∑ u, owed (s.phase u).batch :=
    Finset.single_le_sum (fun u _ => Nat.zero_le (owed (s.phase u).batch)) (Finset.mem_univ t)
  rw [hb, batch_running, owed_some] at this
  have := h.counted
  omega

/-- Once nothing is left to do, the queue's verdict is the conjunction of all
checks. -/
theorem verdict (h : Consistent check s) (h0 : s.nTodo = 0) (hq : s.queue = []) :
    s.fAllOk = true ↔ ∀ c ∈ s.added, check c = true := by
  have hnone := h.batch_eq_none h0
  have hall : s.executed + s.skipped = s.added := by
    have := h.conserved
    simp only [hnone, inHand_none, hq] at this
    simpa using this
  have hfailing : s.Failing ↔ s.fAllOk = false := by
    simp [Failing, hnone]
  constructor
  · intro hok c hc
    have hgood : ¬ s.Failing := by
      rw [hfailing, hok]
      exact nofun
    have hskip : s.skipped = 0 := not_not.mp (mt h.skips hgood)
    rw [← hall, hskip, add_zero] at hc
    exact h.not_failing_iff.mp hgood c hc
  · intro hgood
    have : ¬ s.Failing := by
      refine h.not_failing_iff.mpr fun c hc => hgood c ?_
      rw [← hall]
      exact Multiset.mem_add.mpr (.inl hc)
    rw [hfailing] at this
    simpa using this

/-- The master asleep has another thread at work for it. -/
theorem exists_batch (h : Consistent check s) (hw : s.phase none = .waiting) :
    ∃ t b, s.phase t = .running b := by
  obtain ⟨hq, h0⟩ := h.asleep hw
  have hsum : ∑ t, owed (s.phase t).batch ≠ 0 := by
    have := h.counted
    simp only [hq, List.length_nil] at this
    omega
  obtain ⟨t, -, ht⟩ := Finset.exists_ne_zero_of_sum_ne_zero hsum
  cases hp : s.phase t with
  | running b => exact ⟨t, b, hp⟩
  | outside => simp [hp, batch] at ht
  | starting => simp [hp] at ht
  | waiting => simp [hp, batch] at ht
  | woken => simp [hp, batch] at ht

variable [DecidableEq W] {t : Option W}

theorem finish (h : Consistent check s) (h0 : s.nTodo = 0) (hq : s.queue = []) :
    Consistent check s.finish := by
  have hnone : ∀ u, (s.finish.phase u).batch = none := by
    intro u
    rw [finish_phase]
    by_cases hu : u = none
    · rw [hu, Function.update_self, batch]
    · rw [Function.update_of_ne hu, h.batch_eq_none h0]
  have hok : ¬ s.finish.Failing := by
    rintro (hf | ⟨u, hu⟩)
    · cases hf
    · rw [hnone u] at hu
      exact hu
  exact {
    conserved := by
      simp only [hnone, inHand]
      simp [CCheckQueue.finish, hq]
    counted := by
      simp only [hnone, owed]
      simp [CCheckQueue.finish, hq, h0]
    nonempty := by simp [hnone]
    bounded := by simp [CCheckQueue.finish, h0]
    fits := by simp [CCheckQueue.finish]
    failing := iff_of_false hok (by simp [CCheckQueue.finish])
    skips := by simp [CCheckQueue.finish]
    asleep := by simp [CCheckQueue.finish] }

theorem sleep (h : Consistent check s) (hb : (s.phase t).batch = none) (hq : s.queue = [])
    (hmaster : t = none → s.nTodo ≠ 0) : Consistent check (s.sleep t) := by
  refine h.rephase (fun u => ?_) (fun hw => ⟨hq, ?_⟩) _ _
  · by_cases hu : u = t
    · rw [hu, Function.update_self, hb, batch]
    · rw [Function.update_of_ne hu]
  · by_cases ht : t = none
    · exact hmaster ht
    · rw [Function.update_of_ne (Ne.symm ht)] at hw
      exact (h.asleep hw).2

/-- One thread changes its batch, and moves checks between the queue, its
batch and those that are done. -/
theorem change (h : Consistent check s) {q : CCheckQueue W C} {p : Phase C}
    (hφ : ∀ u, (q.phase u).batch = (Function.update s.phase t p u).batch)
    (hpos : ∀ b ∈ p.batch, 0 < b.nNow)
    (hmove : (q.queue : Multiset C) + inHand p.batch + q.executed + q.skipped =
      (s.queue : Multiset C) + inHand (s.phase t).batch + s.executed + s.skipped)
    (hadded : q.added = s.added)
    (hcount : q.nTodo + (s.queue.length + owed (s.phase t).batch) =
      s.nTodo + (q.queue.length + owed p.batch))
    (hless : q.nTodo ≤ s.nTodo)
    (hfailing : q.Failing ↔ ∃ c ∈ q.executed, check c = false)
    (hskips : q.skipped ≠ 0 → q.Failing)
    (hasleep : q.phase none = .waiting → q.queue = [] ∧ q.nTodo ≠ 0) : Consistent check q where
  conserved := by
    have hsum := sum_batch_update inHand s.phase t p
    simp only [hφ]
    refine add_right_cancel (b := inHand (s.phase t).batch) ?_
    calc (q.queue : Multiset C) + ∑ u, inHand (Function.update s.phase t p u).batch + q.executed +
          q.skipped + inHand (s.phase t).batch
        = (q.queue : Multiset C) + q.executed + q.skipped +
            (∑ u, inHand (Function.update s.phase t p u).batch + inHand (s.phase t).batch) := by
          abel
      _ = ((q.queue : Multiset C) + inHand p.batch + q.executed + q.skipped) +
            ∑ u, inHand (s.phase u).batch := by rw [hsum]; abel
      _ = q.added + inHand (s.phase t).batch := by rw [hmove, hadded, ← h.conserved]; abel
  counted := by
    have hsum := sum_batch_update owed s.phase t p
    have := h.counted
    simp only [hφ]
    omega
  nonempty := by
    intro u b hb
    rw [hφ] at hb
    exact nonempty_update h.nonempty hpos u b hb
  bounded := hadded ▸ hless.trans h.bounded
  fits := hadded ▸ h.fits
  failing := hfailing
  skips := hskips
  asleep := hasleep

/-- A thread without a batch takes one: it starts from the queue's own
verdict, so it knows of a failure just if the queue does. -/
theorem takeBatch (h : Consistent check s) (hb : (s.phase t).batch = none) (hq : s.queue ≠ [])
    (nBatchSize : Nat) : Consistent check (s.takeBatch nBatchSize t) := by
  have hpos : 0 < nextBatch nBatchSize s := Nat.lt_of_lt_of_le Nat.one_pos (le_max_left _ _)
  have hle : nextBatch nBatchSize s ≤ s.queue.length := by
    refine max_le (List.length_pos_iff.mpr hq) ((min_le_right _ _).trans ?_)
    exact (Nat.div_le_self _ _).trans (Nat.mod_le _ _)
  have hfailing : (s.takeBatch nBatchSize t).Failing ↔ s.Failing := by
    rw [failing_update (s := s) (t := t) fun _ => rfl, failing_iff t, hb]
    simp [CCheckQueue.takeBatch]
  refine h.change (fun _ => rfl) (by simpa using hpos) ?_ rfl ?_ le_rfl
    (hfailing.trans h.failing) (fun hs => hfailing.mpr (h.skips hs))
    fun hw => absurd (h.asleep (asleep_of_update hw nofun)).1 hq
  · simp only [CCheckQueue.takeBatch, hb, batch_running, inHand_some, inHand_none, add_zero]
    rw [add_comm (s.queue.drop _ : Multiset C), Multiset.coe_add, List.take_append_drop]
  · simp only [CCheckQueue.takeBatch, hb, batch_running, owed_some, owed_none,
      List.length_drop]
    omega

/-- One check of a batch, run or passed over. -/
theorem execute (h : Consistent check s) {c : C} {vChecks : List C} {nNow : Nat} {fOk : Bool}
    (hb : s.phase t = .running ⟨c :: vChecks, nNow, fOk⟩) :
    Consistent check (execute check t c ⟨vChecks, nNow, fOk⟩ s) := by
  have hpos : 0 < nNow := h.nonempty t ⟨c :: vChecks, nNow, fOk⟩ (by rw [hb]; rfl)
  have hold := failing_iff t (s := s)
  simp only [hb, batch_running, failed_some] at hold
  cases fOk with
  | true =>
    have hnew : Failing { s with
        executed := c ::ₘ s.executed
        phase := Function.update s.phase t (.running ⟨vChecks, nNow, check c⟩) } ↔
        check c = false ∨ s.Failing := by
      rw [failing_update (s := s) (t := t) fun _ => rfl, hold]
      simp [or_left_comm]
    rw [CCheckQueue.execute, if_pos rfl]
    refine h.change (fun _ => rfl) (by simpa using hpos) ?_ rfl (by simp [hb]) le_rfl ?_
      (fun hs => hnew.mpr (.inr (h.skips hs))) fun hw => h.asleep (asleep_of_update hw nofun)
    · simp [hb, ← Multiset.cons_coe]
    · simp only [Multiset.mem_cons, exists_eq_or_imp]
      exact hnew.trans (or_congr_right h.failing)
  | false =>
    -- the thread passes the check over only because it knows of a failure
    have hfailing : s.Failing := hold.mpr (.inr (.inl rfl))
    have hnew : Failing { s with
        skipped := c ::ₘ s.skipped
        phase := Function.update s.phase t (.running ⟨vChecks, nNow, false⟩) } :=
      (failing_update (s := s) (t := t) (p := .running ⟨vChecks, nNow, false⟩) fun _ => rfl).mpr
        (.inr (.inl rfl))
    rw [CCheckQueue.execute, if_neg Bool.false_ne_true]
    refine h.change (fun _ => rfl) (by simpa using hpos) ?_ rfl (by simp [hb]) le_rfl
      (iff_of_true hnew (h.failing.mp hfailing)) (fun _ => hnew)
      fun hw => h.asleep (asleep_of_update hw nofun)
    simp [hb, ← Multiset.cons_coe]

/-- The counter does not wrap when a batch is merged. -/
theorem merge_nTodo (h : Consistent check s) {b : Batch C} (hb : s.phase t = .running b) :
    (merge t b s).nTodo = s.nTodo - b.nNow := by
  have hle := h.owed_le hb
  have hlt := Nat.lt_of_le_of_lt h.bounded h.fits
  change (s.nTodo + 2 ^ 32 - b.nNow) % 2 ^ 32 = _
  omega

/-- A finished batch is merged: its verdict goes from the thread to the
queue. -/
theorem merge (h : Consistent check s) {nNow : Nat} {fOk : Bool}
    (hb : s.phase t = .running ⟨[], nNow, fOk⟩) :
    Consistent check (merge t ⟨[], nNow, fOk⟩ s) := by
  have hle : nNow ≤ s.nTodo := h.owed_le hb
  have htodo : (CCheckQueue.merge t ⟨[], nNow, fOk⟩ s).nTodo = s.nTodo - nNow := h.merge_nTodo hb
  have hφ : ∀ u, ((CCheckQueue.merge t ⟨[], nNow, fOk⟩ s).phase u).batch =
      (Function.update s.phase t .starting u).batch := by
    intro u
    dsimp only [CCheckQueue.merge]
    split
    · by_cases hu : u = none
      · rw [hu, Function.update_self, batch_wake]
      · rw [Function.update_of_ne hu]
    · rfl
  have hfailing : (CCheckQueue.merge t ⟨[], nNow, fOk⟩ s).Failing ↔ s.Failing := by
    rw [failing_update hφ, failing_iff t, hb]
    simp only [CCheckQueue.merge, batch_starting, batch_running, not_failed_none,
      failed_some, false_or, Bool.and_eq_false_iff, or_assoc]
  refine h.change hφ (by simp) ?_ rfl ?_ (htodo ▸ Nat.sub_le _ _) (hfailing.trans h.failing)
    (fun hs => hfailing.mpr (h.skips hs)) fun hw => ?_
  · simp [hb, CCheckQueue.merge]
  · rw [htodo, hb]
    simp only [batch_running, owed_some, batch_starting, owed_none]
    change _ = s.nTodo + (s.queue.length + 0)
    omega
  · dsimp only [CCheckQueue.merge] at hw ⊢
    split at hw
    · exact absurd hw (wake_ne_waiting _)
    · have hlast := ‹¬ _›
      have hwold := asleep_of_update hw nofun
      have ht : t ≠ none := by
        rintro rfl
        rw [hb] at hwold
        cases hwold
      exact ⟨(h.asleep hwold).1, fun h0 => hlast ⟨h0, ht⟩⟩

/-- A section under the mutex, from the head of the inner loop. -/
theorem loopHead (h : Consistent check s) (hb : (s.phase t).batch = none) (nBatchSize : Nat) :
    Consistent check (loopHead nBatchSize t s) := by
  obtain ⟨hq, -, h0, heq⟩ | ⟨hq, hmaster, heq⟩ | ⟨hq, heq⟩ := loopHead_cases nBatchSize t s
  · exact heq ▸ h.finish h0 hq
  · exact heq ▸ h.sleep hb hq hmaster
  · exact heq ▸ h.takeBatch hb hq nBatchSize

theorem loopStep (h : Consistent check s) {nBatchSize : Nat} {s' : CCheckQueue W C}
    (hs : loopStep nBatchSize check t s = some s') : Consistent check s' := by
  obtain ⟨c, vChecks, nNow, fOk, hb, rfl⟩ | ⟨s₁, rfl, hs₁⟩ := loopStep_cases hs
  · exact h.execute hb
  · obtain ⟨ht, rfl⟩ | ⟨ht, rfl⟩ | ⟨nNow, fOk, hb, rfl⟩ := hs₁
    · have h₁ := h.rephase (fun _ => rfl) h.asleep s.nIdle (s.nTotal + 1)
      exact h₁.loopHead (by simp [ht]) nBatchSize
    · have h₁ := h.rephase (fun _ => rfl) h.asleep (s.nIdle - 1) s.nTotal
      exact h₁.loopHead (by simp [ht, batch]) nBatchSize
    · refine (h.merge hb).loopHead ?_ nBatchSize
      dsimp only [CCheckQueue.merge]
      split
      · rw [Function.update_of_ne (‹_ ∧ t ≠ none›).2, Function.update_self, batch_starting]
      · rw [Function.update_self, batch_starting]

end Consistent

/-- A notification of workers leaves the master and every batch alone. -/
theorem Notifies.same [DecidableEq W] {size : Nat} {φ φ' : Option W → Phase C}
    (h : Notifies size φ φ') : φ' none = φ none ∧ ∀ u, (φ' u).batch = (φ u).batch := by
  unfold Notifies at h
  split at h
  · exact h ▸ ⟨rfl, fun _ => rfl⟩
  split at h
  · obtain ⟨w, hw, rfl⟩ | ⟨-, rfl⟩ := h
    · refine ⟨Function.update_of_ne (Option.some_ne_none w).symm _ _, fun u => ?_⟩
      by_cases hu : u = some w
      · rw [hu, Function.update_self, hw, batch, batch]
      · rw [Function.update_of_ne hu]
    · exact ⟨rfl, fun _ => rfl⟩
  · refine ⟨h.1, fun u => ?_⟩
    cases u with
    | none => rw [h.1]
    | some w => rw [h.2 w, batch_wake]

namespace Consistent

variable [Fintype W] [DecidableEq W] {check : C → Bool} {s s' : CCheckQueue W C} {nBatchSize : Nat}

theorem add (h : Consistent check s) {vChecks : List C} {φ : Option W → Phase C}
    (hout : s.phase none = .outside) (hfits : s.added.card + vChecks.length < 2 ^ 32)
    (hφ : Notifies vChecks.length s.phase φ) : Consistent check (s.add vChecks φ) := by
  obtain ⟨hnone, hbatch⟩ := hφ.same
  have htodo : (s.add vChecks φ).nTodo = s.nTodo + vChecks.length := by
    have := h.bounded
    exact Nat.mod_eq_of_lt (by omega)
  have hfailing : (s.add vChecks φ).Failing ↔ s.Failing := by
    simp only [Failing, CCheckQueue.add, hbatch]
  exact {
    conserved := by
      simp only [CCheckQueue.add, hbatch, ← h.conserved, ← Multiset.coe_add, Multiset.coe_reverse]
      abel
    counted := by
      rw [htodo, h.counted]
      simp only [CCheckQueue.add, hbatch, List.length_append, List.length_reverse]
      omega
    nonempty := by simpa only [CCheckQueue.add, hbatch] using h.nonempty
    bounded := by
      simp only [CCheckQueue.add, Multiset.card_add, Multiset.coe_card]
      have := h.bounded
      omega
    fits := by
      simp only [CCheckQueue.add, Multiset.card_add, Multiset.coe_card]
      omega
    failing := hfailing.trans h.failing
    skips := fun hs => hfailing.mpr (h.skips hs)
    asleep := by
      intro hw
      have : s.phase none = .waiting := hnone ▸ hw
      rw [hout] at this
      cases this }

theorem step (h : Consistent check s) {a : Actor W} (hs : Step nBatchSize check a s s') :
    Consistent check s' := by
  have hset {t : Option W} {p : Phase C} (hold : (s.phase t).batch = p.batch) (hp : p ≠ .waiting) :
      Consistent check { s with phase := Function.update s.phase t p } := by
    refine h.rephase (fun u => ?_) (fun hw => h.asleep (asleep_of_update hw hp)) _ _
    by_cases hu : u = t
    · rw [hu, Function.update_self, hold]
    · rw [Function.update_of_ne hu]
  cases hs with
  | loop t hs => exact h.loopStep hs
  | thread w hw => exact hset (by rw [hw]; rfl) nofun
  | add vChecks φ hout hfits hφ => exact h.add hout hfits hφ
  | wait hout => exact hset (by rw [hout]; rfl) nofun
  | spurious t ht => exact hset (by rw [ht]; rfl) nofun
  | idle => exact h

theorem of_reachable (hs : Reachable nBatchSize check s) : Consistent check s := by
  induction hs with
  | refl => exact Consistent.empty
  | tail _ hstep ih =>
    obtain ⟨a, ha⟩ := hstep
    exact ih.step ha

/-- The master leaves `Loop` only through a queue with nothing left to do. -/
theorem of_leaves (h : Consistent check s)
    (hs : CCheckQueue.loopStep nBatchSize check none s = some s')
    (hout : s'.phase none = .outside) :
    ∃ s₁, Consistent check s₁ ∧ s₁.nTodo = 0 ∧ s₁.queue = [] ∧ s₁.added = s.added ∧
      s' = s₁.finish := by
  have hhead {s₁ : CCheckQueue W C} (h₁ : Consistent check s₁) (hadded : s₁.added = s.added)
      (hs₁ : s' = CCheckQueue.loopHead nBatchSize none s₁) :
      ∃ s₁, Consistent check s₁ ∧ s₁.nTodo = 0 ∧ s₁.queue = [] ∧ s₁.added = s.added ∧
        s' = s₁.finish := by
    obtain ⟨hq, -, h0, heq⟩ | ⟨-, -, heq⟩ | ⟨-, heq⟩ := loopHead_cases nBatchSize none s₁
    · exact ⟨s₁, h₁, h0, hq, hadded, hs₁.trans heq⟩
    · rw [hs₁, heq, sleep_phase, Function.update_self] at hout
      cases hout
    · rw [hs₁, heq, takeBatch_phase, Function.update_self] at hout
      cases hout
  obtain ⟨c, vChecks, nNow, fOk, hb, rfl⟩ | ⟨s₁, hs₁, hfrom⟩ := loopStep_cases hs
  · unfold CCheckQueue.execute at hout
    split at hout <;> simp at hout
  · obtain ⟨-, rfl⟩ | ⟨-, rfl⟩ | ⟨nNow, fOk, hb, rfl⟩ := hfrom
    · exact hhead (h.rephase (fun _ => rfl) h.asleep s.nIdle (s.nTotal + 1)) rfl hs₁
    · exact hhead (h.rephase (fun _ => rfl) h.asleep (s.nIdle - 1) s.nTotal) rfl hs₁
    · exact hhead (h.merge hb) rfl hs₁

end Consistent

/-! ### Fair scheduling -/

section Liveness

variable [DecidableEq W] {nBatchSize : Nat} {check : C → Bool}
  {s s' : CCheckQueue W C} {t : Option W}

theorem loopHead_frame (nBatchSize : Nat) (t : Option W) (s : CCheckQueue W C) :
    (loopHead nBatchSize t s).nTodo = s.nTodo ∧
      ∀ u, u ≠ t → (loopHead nBatchSize t s).phase u = s.phase u := by
  obtain ⟨-, rfl, -, heq⟩ | ⟨-, -, heq⟩ | ⟨-, heq⟩ := loopHead_cases nBatchSize t s
  all_goals exact heq ▸ ⟨rfl, fun u hu => Function.update_of_ne hu _ _⟩

variable [Fintype W]

/-- A thread's step never adds to what is left, and moves no other thread that
is awake. -/
theorem loopStep_frame (h : Consistent check s)
    (hs : loopStep nBatchSize check t s = some s') :
    s'.nTodo ≤ s.nTodo ∧ ∀ u, u ≠ t → s.phase u ≠ .waiting → s'.phase u = s.phase u := by
  obtain ⟨c, vChecks, nNow, fOk, hb, rfl⟩ | ⟨s₁, rfl, hs₁⟩ := loopStep_cases hs
  · unfold execute
    split <;> exact ⟨le_rfl, fun u hu _ => Function.update_of_ne hu _ _⟩
  · obtain ⟨htodo, hphase⟩ := loopHead_frame nBatchSize t s₁
    rw [htodo]
    obtain ⟨-, rfl⟩ | ⟨-, rfl⟩ | ⟨nNow, fOk, hb, rfl⟩ := hs₁
    · exact ⟨le_rfl, fun u hu _ => hphase u hu⟩
    · exact ⟨le_rfl, fun u hu _ => hphase u hu⟩
    · refine ⟨h.merge_nTodo hb ▸ Nat.sub_le _ _, fun u hu hawake => ?_⟩
      rw [hphase u hu, merge]
      dsimp only
      split
      · by_cases hnone : u = none
        · subst hnone
          rw [Function.update_self, Function.update_of_ne hu]
          cases hp : s.phase none <;> first | rfl | exact absurd hp hawake
        · rw [Function.update_of_ne hnone, Function.update_of_ne hu]
      · rw [Function.update_of_ne hu]

/-- The master is in `Wait`, with at most `k` checks left. -/
structure Pending (check : C → Bool) (k : Nat) (s : CCheckQueue W C) : Prop where
  consistent : Consistent check s
  inside : s.phase none ≠ .outside
  left : s.nTodo ≤ k

/-- `Wait` has returned, or fewer than `k` checks are left. -/
def Advanced (k : Nat) (s : CCheckQueue W C) : Prop :=
  s.phase none = .outside ∨ s.nTodo < k

/-- While the master waits nothing is added, and what others do leaves an
awake thread where it is. -/
theorem Pending.step {k : Nat} (h : Pending check k s) {a : Actor W}
    (hs : Step nBatchSize check a s s') :
    s'.phase none = .outside ∨ Pending check k s' ∧
      ∀ u, .loop u ≠ a → s.phase u ≠ .outside → s.phase u ≠ .waiting →
        s'.phase u = s.phase u := by
  by_cases hout : s'.phase none = .outside
  · exact .inl hout
  have hnext : Consistent check s' := h.consistent.step hs
  cases hs with
  | loop t hs =>
    obtain ⟨htodo, hphase⟩ := loopStep_frame h.consistent hs
    refine .inr ⟨⟨hnext, hout, htodo.trans h.left⟩, fun u hu _ hawake => hphase u ?_ hawake⟩
    exact fun hut => hu (hut ▸ rfl)
  | thread w hw =>
    refine .inr ⟨⟨hnext, hout, h.left⟩, fun u _ hin _ => Function.update_of_ne ?_ _ _⟩
    exact fun huw => hin (huw ▸ hw)
  | add _ _ hmaster => exact absurd hmaster h.inside
  | wait hmaster => exact absurd hmaster h.inside
  | spurious t ht =>
    refine .inr ⟨⟨hnext, hout, h.left⟩, fun u _ _ hawake => Function.update_of_ne ?_ _ _⟩
    exact fun hut => hawake (hut ▸ ht)
  | idle => exact .inr ⟨⟨hnext, hout, h.left⟩, fun _ _ _ _ => rfl⟩

variable (r : Fair.Run (Step nBatchSize check : Actor W → CCheckQueue W C → CCheckQueue W C → Prop))

/-- While the master waits, a thread that is awake gets to act, unless `Wait`
returns before. -/
theorem awake_acts (hfair : r.WeaklyFair (.loop t)) {k n : Nat} {p : Phase C}
    (h : Pending check k (r.st n)) (hp : (r.st n).phase t = p) (hin : p ≠ .outside)
    (hawake : p ≠ .waiting) {Q : CCheckQueue W C → Prop}
    (hact : ∀ s s', loopStep nBatchSize check t s = some s' → Pending check k s →
      s.phase t = p → Pending check k s' → Q s') :
    ∃ m ≥ n, (r.st m).phase none = .outside ∨ Q (r.st m) := by
  refine r.leads_to hfair (P := fun s => Pending check k s ∧ s.phase t = p)
    (Q := fun s => s.phase none = .outside ∨ Q s) ?_ ?_ ?_ ⟨h, hp⟩
  · rintro s ⟨-, rfl⟩
    exact enabled_loop hin hawake
  · rintro s s' hs ⟨hpend, hsp⟩
    obtain hout | ⟨hpend', -⟩ := hpend.step hs
    · exact .inl hout
    · cases hs with
      | loop _ hs => exact .inr (hact s s' hs hpend hsp hpend')
  · rintro a s s' ha hs ⟨hpend, rfl⟩
    obtain hout | ⟨hpend', hkeep⟩ := hpend.step hs
    · exact .inr (.inl hout)
    · exact .inl ⟨hpend', hkeep t (Ne.symm ha) hin hawake⟩

/-- A batch in a thread's hands is run and merged. -/
theorem batch_lands (hfair : r.WeaklyFair (.loop t)) {k n : Nat} (h : Pending check k (r.st n))
    {b : Batch C} (hb : (r.st n).phase t = .running b) : ∃ m ≥ n, Advanced k (r.st m) := by
  obtain ⟨vChecks, nNow, fOk⟩ := b
  induction vChecks generalizing n fOk with
  | nil =>
    refine awake_acts r hfair h hb nofun nofun (Q := fun s => s.nTodo < k) ?_
    intro s s' hs hpend hsp _
    obtain rfl := Option.some.inj ((loopStep_merge hsp).symm.trans hs)
    have hpos := hpend.consistent.nonempty t ⟨[], nNow, fOk⟩ (by rw [hsp]; rfl)
    have hle := hpend.consistent.owed_le hsp
    have := hpend.left
    rw [(loopHead_frame _ _ _).1, hpend.consistent.merge_nTodo hsp]
    omega
  | cons c vChecks ih =>
    obtain ⟨m, hm, hout | ⟨hpend, fOk', hb'⟩⟩ := awake_acts r hfair h hb nofun nofun
      (Q := fun s => Pending check k s ∧ ∃ fOk, s.phase t = .running ⟨vChecks, nNow, fOk⟩) (by
        intro s s' hs _ hsp hpend'
        obtain rfl := Option.some.inj ((loopStep_check hsp).symm.trans hs)
        refine ⟨hpend', ?_⟩
        unfold execute
        split <;> exact ⟨_, Function.update_self _ _ _⟩)
    · exact ⟨m, hm, .inl hout⟩
    · obtain ⟨m', hm', hadv⟩ := ih hpend fOk' hb'
      exact ⟨m', hm'.trans' hm, hadv⟩

/-- The master at the mutex: it returns, or finds work or rest. -/
theorem master_settles (hfair : r.WeaklyFair (.loop none)) {k n : Nat} {p : Phase C}
    (h : Pending check k (r.st n)) (hp : (r.st n).phase none = p)
    (hat : p = .starting ∨ p = .woken) :
    ∃ m ≥ n, (r.st m).phase none = .outside ∨
      Pending check k (r.st m) ∧ ((r.st m).phase none = .waiting ∨
        ∃ b, (r.st m).phase none = .running b) := by
  refine awake_acts r hfair h hp (by rintro rfl; simp at hat) (by rintro rfl; simp at hat)
    (Q := fun s => Pending check k s ∧
      (s.phase none = .waiting ∨ ∃ b, s.phase none = .running b)) ?_
  rintro s s' hs - rfl hpend'
  refine ⟨hpend', ?_⟩
  obtain ⟨_, _, _, _, hb, -⟩ | ⟨s₁, rfl, -⟩ := loopStep_cases hs
  · simp [hb] at hat
  · obtain ⟨-, -, -, heq⟩ | ⟨-, -, heq⟩ | ⟨-, heq⟩ := loopHead_cases nBatchSize none s₁
    · exact absurd (by rw [heq, finish_phase, Function.update_self]) hpend'.inside
    · exact .inl (by rw [heq, sleep_phase, Function.update_self])
    · exact .inr ⟨_, by rw [heq, takeBatch_phase, Function.update_self]⟩

theorem advances (hfair : ∀ t, r.WeaklyFair (.loop t)) {k n : Nat}
    (h : Pending check k (r.st n)) : ∃ m ≥ n, Advanced k (r.st m) := by
  -- from where the master sleeps or works, a batch is under way
  have hunderway {n : Nat} (h : Pending check k (r.st n))
      (hat : (r.st n).phase none = .waiting ∨ ∃ b, (r.st n).phase none = .running b) :
      ∃ m ≥ n, Advanced k (r.st m) := by
    obtain hw | ⟨b, hb⟩ := hat
    · obtain ⟨t, b, hb⟩ := h.consistent.exists_batch hw
      exact batch_lands r (hfair t) h hb
    · exact batch_lands r (hfair none) h hb
  have hsettles {p : Phase C} (hp : (r.st n).phase none = p) (hat : p = .starting ∨ p = .woken) :
      ∃ m ≥ n, Advanced k (r.st m) := by
    obtain ⟨m, hm, hout | ⟨hpend, hat'⟩⟩ := master_settles r (hfair none) h hp hat
    · exact ⟨m, hm, .inl hout⟩
    · obtain ⟨m', hm', hadv⟩ := hunderway hpend hat'
      exact ⟨m', hm'.trans' hm, hadv⟩
  cases hp : (r.st n).phase none with
  | outside => exact absurd hp h.inside
  | starting => exact hsettles hp (.inl rfl)
  | running b => exact hunderway h (.inr ⟨b, hp⟩)
  | waiting => exact hunderway h (.inl hp)
  | woken => exact hsettles hp (.inr rfl)

/-- `Wait` returns: what is left shrinks as long as it does not. -/
theorem wait_returns (h0 : r.st 0 = empty) (hfair : ∀ t, r.WeaklyFair (.loop t)) (k : Nat)
    {n : Nat} (h : Pending check k (r.st n)) : ∃ m ≥ n, (r.st m).phase none = .outside := by
  induction k using Nat.strong_induction_on generalizing n with
  | _ k ih =>
    obtain ⟨m, hm, hout | hlt⟩ := advances r hfair h
    · exact ⟨m, hm, hout⟩
    · by_cases hout : (r.st m).phase none = .outside
      · exact ⟨m, hm, hout⟩
      · have hcons : Consistent check (r.st m) :=
          r.always (h0 ▸ Consistent.empty) (fun _ _ _ hs hc => hc.step hs) m
        obtain ⟨m', hm', hret⟩ := ih _ hlt ⟨hcons, hout, le_rfl⟩
        exact ⟨m', hm'.trans' hm, hret⟩

end Liveness

/-- Whatever the number of workers, the batch size and the interleaving: no
check is run twice; `Wait` returns the conjunction of the checks added since
it last returned, and leaves the queue as new; under fair scheduling the
master is woken and `Wait` returns. -/
theorem wait_returns_conjunction [Fintype W] [DecidableEq W] (nBatchSize : Nat)
    (check : C → Bool) :
    (∀ s : CCheckQueue W C, Reachable nBatchSize check s → s.executed ≤ s.added) ∧
    (∀ s s' : CCheckQueue W C, Reachable nBatchSize check s →
      Step nBatchSize check (.loop none) s s' → s'.phase none = .outside →
        (∃ fRet, s'.fRet = some fRet ∧ (fRet = true ↔ ∀ c ∈ s.added, check c = true)) ∧
        s'.queue = [] ∧ s'.nTodo = 0 ∧ s'.fAllOk = true) ∧
    (∀ r : Fair.Run (Step nBatchSize check : Actor W → CCheckQueue W C → _ → Prop),
      r.st 0 = empty → (∀ t, r.WeaklyFair (.loop t)) →
        ∀ n, (r.st n).phase none ≠ .outside → ∃ m ≥ n, (r.st m).phase none = .outside) := by
  refine ⟨fun s hs => ?_, fun s s' hs hstep hout => ?_, fun r h0 hfair n hin => ?_⟩
  · rw [← (Consistent.of_reachable hs).conserved, add_right_comm]
    exact Multiset.le_add_left _ _
  · cases hstep with
    | loop _ hstep =>
      obtain ⟨s₁, h₁, hdone, hq, hadded, rfl⟩ :=
        (Consistent.of_reachable hs).of_leaves hstep hout
      exact ⟨⟨s₁.fAllOk, rfl, hadded ▸ h₁.verdict hdone hq⟩, hq, hdone, rfl⟩
  · have hcons : Consistent check (r.st n) :=
      r.always (h0 ▸ Consistent.empty) (fun _ _ _ hs hc => hc.step hs) n
    exact wait_returns r h0 hfair _ ⟨hcons, hin, le_rfl⟩

/-- A worker that comes early and sleeps, runs the one check of a block, and
sleeps again, while the master's `Wait` returns. -/
def oneCheck : Nat → CCheckQueue Unit Unit
  | 0 => empty
  | 1 => { oneCheck 0 with phase := Function.update (oneCheck 0).phase (some ()) .starting }
  | 2 => loopHead 128 (some ()) { oneCheck 1 with nTotal := (oneCheck 1).nTotal + 1 }
  | 3 => (oneCheck 2).add [()] (Function.update (oneCheck 2).phase (some ()) .woken)
  | 4 => loopHead 128 (some ()) { oneCheck 3 with nIdle := (oneCheck 3).nIdle - 1 }
  | 5 => execute (fun _ => true) (some ()) () ⟨[], 1, true⟩ (oneCheck 4)
  | 6 => loopHead 128 (some ()) (merge (some ()) ⟨[], 1, true⟩ (oneCheck 5))
  | 7 => { oneCheck 6 with phase := Function.update (oneCheck 6).phase none .starting }
  | 8 => loopHead 128 none { oneCheck 7 with nTotal := (oneCheck 7).nTotal + 1 }
  | n + 9 => oneCheck (n + 8)

def oneCheckActor : Nat → Actor Unit
  | 1 => .loop (some ())
  | 3 => .loop (some ())
  | 4 => .loop (some ())
  | 5 => .loop (some ())
  | 7 => .loop none
  | _ => .surroundings

theorem oneCheck_last (n : Nat) : oneCheck (n + 8) = oneCheck 8 := by
  induction n with
  | zero => rfl
  | succ n ih => exact ih

theorem oneCheck_merged : merge (some ()) ⟨[], 1, true⟩ (oneCheck 5) =
    { oneCheck 5 with
      nTodo := 0, phase := Function.update (oneCheck 5).phase (some ()) .starting } := by
  simp [merge, oneCheck, execute, loopHead, takeBatch, sleep, add, empty, wake]

theorem oneCheck_step (n : Nat) :
    Step 128 (fun _ => true) (oneCheckActor n) (oneCheck n) (oneCheck (n + 1)) := by
  match n with
  | 0 => exact .thread () rfl
  | 1 => exact .loop _ rfl
  | 2 => exact .add [()] _ rfl (by decide) (.inl ⟨(), rfl, rfl⟩)
  | 3 => exact .loop _ rfl
  | 4 => exact .loop _ rfl
  | 5 => exact .loop _ rfl
  | 6 => exact .wait (by rw [oneCheck, oneCheck_merged]; rfl)
  | 7 => exact .loop _ rfl
  | n + 8 => exact .idle

/-- A worker's wait need not end: with no more work to come, it sleeps on. -/
theorem worker_sleeps_on :
    ∃ r : Fair.Run (Step 128 (fun _ => true) : Actor Unit → CCheckQueue Unit Unit → _ → Prop),
      r.st 0 = empty ∧ (∀ t, r.WeaklyFair (.loop t)) ∧ (r.st 8).fRet = some true ∧
        ∀ n ≥ 8, (r.st n).phase (some ()) = .waiting := by
  refine ⟨⟨oneCheck, oneCheckActor, oneCheck_step⟩, rfl, fun t n => ?_, rfl, fun n hn => ?_⟩
  · refine ⟨n + 8, by omega, .inr ?_⟩
    rintro ⟨s', hs⟩
    change Step 128 (fun _ => true) (.loop t) (oneCheck (n + 8)) s' at hs
    rw [oneCheck_last] at hs
    cases hs with
    | loop _ hs =>
      match t with
      | none => cases hs
      | some () => cases hs
  · obtain ⟨k, rfl⟩ := Nat.exists_eq_add_of_le' hn
    change (oneCheck (k + 8)).phase (some ()) = .waiting
    rw [oneCheck_last]
    rfl

end CCheckQueue

end junkcoin
