import Coreutils.ThreadCounts
import Coreutils.XargsPool

/-!
# The mutex, the semaphore and the wait group of xargs -P

Whoever holds the mutex is in a place that says so, and the two counters are the numbers of workers
in certain places. So some thread can always go on: the one with the mutex, or else any worker under
way, or else the loop.
-/

namespace Coreutils.XargsPool
open Function GoText ThreadCounts

def Worker.holds : Worker→Bool
  | testing | tested _ | noteHeld _ _ | noteDone _ | writeOut _ _ | writeErr _ _ _ | flags _ _
  | report _ _ _ | setStop _ _ | unlock _ _ => true
  | _ => false

def Worker.slot : Worker→Bool
  | idle | finish _ | ended _ => false
  | _ => true

def Worker.live : Worker→Bool
  | idle | ended _ => false
  | _ => true

def Worker.running : Worker→Bool
  | child => true
  | _ => false

def Worker.untested : Worker→Bool
  | idle | testWait | testing => true
  | _ => false

def Scheduler.holds : Scheduler→Bool
  | checking _ | checked _ _ => true
  | _ => false

def Scheduler.slot : Scheduler→Bool
  | spawning _ => true
  | _ => false

def Scheduler.pending : Scheduler→Bool
  | acquiring _ | spawning _ => true
  | _ => false

def Scheduler.At (n : ℕ) (stopped : Bool) (j : ℕ) : Scheduler→Prop
  | head i => i=j
  | checked i b => i=j ∧ i<n ∧ (b=true→stopped=true)
  | checking i | adding i | acquiring i | spawning i => i=j ∧ i<n
  | waiting | returned _ => j=n ∨ stopped=true

def State.running (n : ℕ) (s : State) : ℕ := count n Worker.running s.workers

theorem conclude_place (r : Result) :
    (conclude r).holds=false ∧ (conclude r).slot=true ∧ (conclude r).live=true := by
  unfold conclude
  split <;> exact ⟨rfl,rfl,rfl⟩

theorem After.next_place (a : After) :
    a.next.holds=false ∧ a.next.slot=true ∧ a.next.live=true := by
  cases a <;> exact ⟨rfl,rfl,rfl⟩

structure Inv (n procs : ℕ) (s : State) : Prop where
  main : s.shared.mu=some .main ↔ s.sched.holds=true
  mutex : ∀k,s.shared.mu=some (.worker k) ↔ (s.workers k).holds=true
  started : ∃j≤n,(∀k,s.workers k≠.idle ↔ k<j) ∧ s.sched.At n s.shared.stopped j
  sem : s.shared.sem=count n Worker.slot s.workers+s.sched.slot.toNat
  wg : s.shared.wg=count n Worker.live s.workers+s.sched.pending.toNat
  cap : s.shared.sem≤procs

section
variable {trace : Bool} {batches : List (List Bytes)} {procs n k : ℕ} {argv : List Bytes}
  {w w' : Worker} {sh sh' : Shared} {s s' : State}

structure WorkerEffect (k : ℕ) (w : Worker) (sh : Shared) (w' : Worker) (sh' : Shared) : Prop where
  live : w.live=true
  idle : w'≠.idle
  mutex : (sh'.mu=sh.mu ∧ w'.holds=w.holds) ∨
    (sh.mu=none ∧ sh'.mu=some (.worker k) ∧ w'.holds=true) ∨
    (w.holds=true ∧ sh'.mu=none ∧ w'.holds=false)
  sem : sh'.sem+w.slot.toNat=sh.sem+w'.slot.toNat
  semLe : sh'.sem ≤ sh.sem
  wg : sh'.wg+w.live.toNat=sh.wg+w'.live.toNat
  stopped : sh.stopped=true→sh'.stopped=true

theorem Worker.ne_idle_of_live (h : w.live=true) : w≠.idle := by
  rintro rfl
  cases h

namespace WorkerEffect

section
variable (hw : w.live=true) (hw' : w'.live=true) (hslot : w'.slot=w.slot)
include hw hw' hslot

/-- A step that leaves the mutex and the counters alone. -/
theorem keep (hholds : w'.holds=w.holds) (hmu : sh'.mu=sh.mu) (hsem : sh'.sem=sh.sem)
    (hwg : sh'.wg=sh.wg) (hstop : sh.stopped=true→sh'.stopped=true) : WorkerEffect k w sh w' sh' :=
  ⟨hw,Worker.ne_idle_of_live hw',.inl ⟨hmu,hholds⟩,by rw [hsem,hslot],hsem.le,
    by rw [hwg,hw,hw'],hstop⟩

theorem lock (hholds : w'.holds=true) (hmu : sh.mu=none) :
    WorkerEffect k w sh w' { sh with mu := some (.worker k) } :=
  ⟨hw,Worker.ne_idle_of_live hw',.inr (.inl ⟨hmu,rfl,hholds⟩),by simp [hslot],le_rfl,
    by simp [hw,hw'],id⟩

theorem unlock (hholds : w.holds=true) (hholds' : w'.holds=false) :
    WorkerEffect k w sh w' { sh with mu := none } :=
  ⟨hw,Worker.ne_idle_of_live hw',.inr (.inr ⟨hholds,rfl,hholds'⟩),by simp [hslot],le_rfl,
    by simp [hw,hw'],id⟩

end

end WorkerEffect

theorem WorkerStep.effect (h : WorkerStep trace argv k w sh w' sh') :
    WorkerEffect k w sh w' sh' := by
  cases h with
  | testLock h | noteLock _ _ h | flushLock _ h => exact .lock rfl rfl rfl rfl h
  | testRead | start | note | outByte | outDone | outFail | errByte | errDone | errFail | clean
  | reportByte | reportDone => exact .keep rfl rfl rfl rfl rfl rfl rfl id
  | testStop | testGo | unlockClean | unlockFailed => exact .unlock rfl rfl rfl rfl rfl
  | missing | startError | exit =>
    obtain ⟨hholds,hslot,hlive⟩ := conclude_place _
    exact .keep rfl hlive hslot hholds rfl rfl rfl id
  | noteUnlock after =>
    obtain ⟨hholds,hslot,hlive⟩ := after.next_place
    exact .unlock rfl hlive hslot rfl hholds
  | failed | failedFirst => exact .keep rfl rfl rfl rfl rfl rfl rfl fun _ => rfl
  | setStop r failure => exact .keep rfl rfl rfl rfl rfl rfl rfl fun h => by simp [h]
  | release flushed h =>
    refine ⟨rfl,by simp,.inl ⟨rfl,rfl⟩,?_,Nat.sub_le _ _,rfl,id⟩
    simp only [Worker.slot,Bool.toNat_true,Bool.toNat_false]
    omega
  | finish flushed h =>
    refine ⟨rfl,by simp,.inl ⟨rfl,rfl⟩,rfl,le_rfl,?_,id⟩
    simp only [Worker.live,Bool.toNat_true,Bool.toNat_false]
    omega

theorem Inv.initial (n procs : ℕ) : Inv n procs {} where
  main := by simp [Scheduler.holds]
  mutex := by simp [Worker.holds]
  started := ⟨0,Nat.zero_le n,by simp,rfl⟩
  sem := by
    rw [(count_eq_zero).mpr fun _ _ => rfl]
    rfl
  wg := by
    rw [(count_eq_zero).mpr fun _ _ => rfl]
    rfl
  cap := Nat.zero_le procs

theorem Scheduler.At.mono {c : Scheduler} {b b' : Bool} {j : ℕ} (h : c.At n b j)
    (hb : b=true → b'=true) : c.At n b' j := by
  cases c with
  | head | checking | adding | acquiring | spawning => exact h
  | checked i stopped => exact ⟨h.1,h.2.1,fun hs => hb (h.2.2 hs)⟩
  | waiting | returned => exact h.imp_right hb

/-- A worker that was started is one of the first `n`. -/
theorem Inv.lt (h : Inv n procs s) (hk : s.workers k≠.idle) : k<n := by
  obtain ⟨j,hj,hstarted,-⟩ := h.started
  have := (hstarted k).mp hk
  omega

/-- At most one thread holds the mutex. -/
theorem Inv.sched_free (h : Inv n procs s) (hmu : s.shared.mu≠some .main) : s.sched.holds=false :=
  Bool.eq_false_iff.mpr (mt h.main.mpr hmu)

theorem Inv.worker_free (h : Inv n procs s) (hmu : s.shared.mu≠some (.worker k)) :
    (s.workers k).holds=false :=
  Bool.eq_false_iff.mpr (mt (h.mutex k).mpr hmu)

theorem Inv.wg_pos (h : Inv n procs s) (hlive : (s.workers k).live=true) : 0<s.shared.wg := by
  have := count_pos (h.lt (Worker.ne_idle_of_live hlive)) hlive
  have := h.wg
  omega

theorem Inv.worker (h : Inv n procs s) (hw : WorkerEffect k (s.workers k) s.shared w' sh') :
    Inv n procs { s with workers := update s.workers k w',shared := sh' } := by
  have hkn : k<n := h.lt (Worker.ne_idle_of_live hw.live)
  refine ⟨?_,?_,?_,?_,?_,?_⟩
  · rcases hw.mutex with ⟨hmu,-⟩ | ⟨hmu,hmu',-⟩ | ⟨hk,hmu',-⟩
    · simp only [hmu]
      exact h.main
    · simp [hmu',h.sched_free (by simp [hmu])]
    · simp [hmu',h.sched_free (by simp [(h.mutex k).mpr hk])]
  · intro j
    by_cases hj : j=k
    · subst hj
      simp only [update_self]
      rcases hw.mutex with ⟨hmu,hholds⟩ | ⟨-,hmu',hholds⟩ | ⟨-,hmu',hholds⟩
      · rw [hmu,hholds]
        exact h.mutex j
      · simp [hmu',hholds]
      · simp [hmu',hholds]
    · simp only [update_of_ne hj]
      rcases hw.mutex with ⟨hmu,-⟩ | ⟨hmu,hmu',-⟩ | ⟨hk,hmu',-⟩
      · rw [hmu]
        exact h.mutex j
      · simp [hmu',h.worker_free (k := j) (by simp [hmu]),Ne.symm hj]
      · simp [hmu',h.worker_free (k := j) (by simp [(h.mutex k).mpr hk,Ne.symm hj])]
  · obtain ⟨j,hj,hstarted,hat⟩ := h.started
    refine ⟨j,hj,?_,hat.mono hw.stopped⟩
    intro i
    by_cases hi : i=k
    · subst hi
      simp only [update_self]
      exact ⟨fun _ => (hstarted i).mp (Worker.ne_idle_of_live hw.live),fun _ => hw.idle⟩
    · simp only [update_of_ne hi]
      exact hstarted i
  · have hc := count_update hkn Worker.slot s.workers w'
    have := hw.sem
    have := h.sem
    simp only
    omega
  · have hc := count_update hkn Worker.live s.workers w'
    have := hw.wg
    have := h.wg
    simp only
    omega
  · exact hw.semLe.trans h.cap

theorem Inv.sched {c' : Scheduler} (h : Inv n procs s)
    (hs : SchedulerStep n procs s.sched s.shared c' sh') :
    Inv n procs { s with sched := c',shared := sh' } := by
  obtain ⟨j,hj,hstarted,hat⟩ := h.started
  have hmain := h.main
  have hsem := h.sem
  have hwg := h.wg
  have hcap := h.cap
  -- with the mutex at the loop, no worker has it
  have hworkers : s.sched.holds=true→∀k,(s.workers k).holds=false :=
    fun hm k => h.worker_free (by simp [hmain.mpr hm])
  generalize hc : s.sched=c at hs hat hmain hsem hwg hworkers
  cases hs with
  | lock i hi hmu =>
    refine ⟨by simp [Scheduler.holds],?_,⟨j,hj,hstarted,hat,hi⟩,hsem,hwg,hcap⟩
    intro k
    have := h.mutex k
    rw [hmu] at this
    simpa using this
  | last => exact ⟨hmain,h.mutex,⟨j,hj,hstarted,.inl hat.symm⟩,hsem,hwg,hcap⟩
  | read i =>
    exact ⟨hmain,h.mutex,⟨j,hj,hstarted,hat.1,hat.2,id⟩,hsem,hwg,hcap⟩
  | stop i =>
    refine ⟨by simp [Scheduler.holds],?_,⟨j,hj,hstarted,.inr (hat.2.2 rfl)⟩,hsem,hwg,hcap⟩
    simp [hworkers rfl]
  | go i =>
    refine ⟨by simp [Scheduler.holds],?_,⟨j,hj,hstarted,hat.1,hat.2.1⟩,hsem,hwg,hcap⟩
    simp [hworkers rfl]
  | add i =>
    refine ⟨hmain,h.mutex,⟨j,hj,hstarted,hat⟩,hsem,?_,hcap⟩
    simp [hwg,Scheduler.pending]
  | acquire i hlt =>
    refine ⟨hmain,h.mutex,⟨j,hj,hstarted,hat⟩,?_,hwg,hlt⟩
    simp [hsem,Scheduler.slot]
  | wait hzero => exact ⟨hmain,h.mutex,⟨j,hj,hstarted,hat⟩,hsem,hwg,hcap⟩

/-- The worker that the loop is about to start has not been started. -/
theorem Inv.idle {i : ℕ} (h : Inv n procs s) (hs : s.sched=.spawning i) : s.workers i=.idle := by
  obtain ⟨j,-,hstarted,hat⟩ := h.started
  rw [hs] at hat
  by_contra hne
  have := (hstarted i).mp hne
  have := hat.1
  omega

theorem Inv.spawn {i : ℕ} (h : Inv n procs s) (hs : s.sched=.spawning i) : Inv n procs
      { s with sched := .head (i+1),workers := update s.workers i .testWait } := by
  obtain ⟨j,hj,hstarted,hat⟩ := h.started
  rw [hs] at hat
  obtain ⟨rfl,hi⟩ := hat
  have hidle := h.idle hs
  have hmain := h.main
  have hsem := h.sem
  have hwg := h.wg
  rw [hs] at hmain hsem hwg
  refine ⟨hmain,?_,⟨i+1,hi,?_,rfl⟩,?_,?_,h.cap⟩
  · intro k
    by_cases hk : k=i
    · subst hk
      have := h.mutex k
      rw [hidle] at this
      simpa [Worker.holds] using this
    · simpa [update_of_ne hk] using h.mutex k
  · intro k
    by_cases hk : k=i
    · subst hk
      simp
    · simp only [update_of_ne hk,hstarted k]
      omega
  · have hc := count_update hi Worker.slot s.workers .testWait
    rw [hidle] at hc
    simp only [Worker.slot,Scheduler.slot] at hc hsem ⊢
    omega
  · have hc := count_update hi Worker.live s.workers .testWait
    rw [hidle] at hc
    simp only [Worker.live,Scheduler.pending] at hc hwg ⊢
    omega

theorem Inv.step (h : Inv batches.length procs s) (hs : Step trace batches procs s s') :
    Inv batches.length procs s' := by
  cases hs with
  | sched hs => exact h.sched hs
  | spawn hs => exact h.spawn hs
  | worker k hs => exact h.worker hs.effect

theorem Reachable.inv (h : Reachable trace batches procs s) : Inv batches.length procs s := by
  induction h with
  | refl => exact Inv.initial _ _
  | tail _ hs ih => exact ih.step hs

/-- A worker that holds the mutex can go on. -/
theorem holds_step (hw : w.holds=true) : ∃w' sh',WorkerStep trace argv k w sh w' sh' := by
  cases w with
  | testing => exact ⟨_,_,.testRead⟩
  | tested b =>
    cases b with
    | true => exact ⟨_,_,.testStop⟩
    | false => exact ⟨_,_,.testGo⟩
  | noteHeld code after => exact ⟨_,_,.note code after⟩
  | noteDone after => exact ⟨_,_,.noteUnlock after⟩
  | writeOut r rest => exact ⟨_,_,.outFail r rest []⟩
  | writeErr r rest failure => exact ⟨_,_,.errFail r rest failure []⟩
  | flags r failure =>
    cases failure with
    | none => exact ⟨_,_,.clean r⟩
    | some failure =>
      cases hr : sh.reported with
      | true => exact ⟨_,_,.failed r failure hr⟩
      | false => exact ⟨_,_,.failedFirst r failure hr⟩
  | report r failure rest => exact ⟨_,_,.reportDone r failure rest⟩
  | setStop r failure => exact ⟨_,_,.setStop r failure⟩
  | unlock r failure =>
    cases failure with
    | none => exact ⟨_,_,.unlockClean r⟩
    | some failure => exact ⟨_,_,.unlockFailed r failure⟩
  | idle | testWait | ready | child | noteWait | flushWait | release | finish | ended => cases hw

/-- A worker whose child does not run can go on if the mutex is free. -/
theorem live_step (hlive : w.live=true) (hchild : w.running=false) (hmu : sh.mu=none)
    (hsem : w.slot=true→0<sh.sem) (hwg : 0<sh.wg) :
    ∃w' sh',WorkerStep trace argv k w sh w' sh' := by
  by_cases hw : w.holds=true
  · exact holds_step hw
  cases w with
  | testWait => exact ⟨_,_,.testLock hmu⟩
  | ready => exact ⟨_,_,.start⟩
  | noteWait code after => exact ⟨_,_,.noteLock code after hmu⟩
  | flushWait r => exact ⟨_,_,.flushLock r hmu⟩
  | release flushed => exact ⟨_,_,.release flushed (hsem rfl)⟩
  | finish flushed => exact ⟨_,_,.finish flushed hwg⟩
  | idle | ended => cases hlive
  | child => cases hchild
  | testing | tested | noteHeld | noteDone | writeOut | writeErr | flags | report | setStop
  | unlock => exact absurd rfl hw

theorem Step.of_sched {c c' : Scheduler} (hc : s.sched=c)
    (h : SchedulerStep batches.length procs c s.shared c' sh') :
    Step trace batches procs s { s with sched := c',shared := sh' } :=
  .sched (by rwa [hc])

section
variable (h : Inv batches.length procs s)
include h

/-- The loop can go on if the mutex is free and no worker is under way. -/
theorem sched_step (hprocs : 0<procs) (hret : ∀code,s.sched≠.returned code) (hmu : s.shared.mu=none)
    (hidle : ∀k,(s.workers k).live=false) : ∃s',Step trace batches procs s s' := by
  have hslots : count batches.length Worker.slot s.workers=0 := by
    apply count_eq_zero.mpr
    intro k _
    have := hidle k
    revert this
    cases s.workers k <;> simp [Worker.live,Worker.slot]
  have hlive : count batches.length Worker.live s.workers=0 :=
    count_eq_zero.mpr fun k _ => hidle k
  have hsem := h.sem
  have hwg := h.wg
  have hmain := h.main
  obtain ⟨j,hj,-,hat⟩ := h.started
  cases hc : s.sched with
  | head i =>
    rw [hc] at hat
    by_cases hi : i<batches.length
    · exact ⟨_,.of_sched hc (.lock i hi hmu)⟩
    obtain rfl : i=j := hat
    obtain rfl : i=batches.length := by omega
    exact ⟨_,.of_sched hc (.last)⟩
  | checking | checked =>
    rw [hc,hmu] at hmain
    simp [Scheduler.holds] at hmain
  | adding i => exact ⟨_,.of_sched hc (.add i)⟩
  | acquiring i =>
    rw [hc,hslots] at hsem
    exact ⟨_,.of_sched hc (.acquire i (hsem ▸ hprocs))⟩
  | spawning i => exact ⟨_,.spawn hc⟩
  | waiting =>
    rw [hc,hlive] at hwg
    exact ⟨_,.of_sched hc (.wait hwg)⟩
  | returned code => exact absurd hc (hret code)

/-- A thread that holds the mutex can go on. -/
theorem mutex_step {t : Thread} (hmu : s.shared.mu=some t) : ∃s',Step trace batches procs s s' := by
  cases t with
  | main =>
    have hm := h.main.mp hmu
    cases hc : s.sched with
    | checking i => exact ⟨_,.of_sched hc (.read i)⟩
    | checked i b =>
      cases b with
      | true => exact ⟨_,.of_sched hc (.stop i)⟩
      | false => exact ⟨_,.of_sched hc (.go i)⟩
    | head | adding | acquiring | spawning | waiting | returned => simp [hc,Scheduler.holds] at hm
  | worker k =>
    obtain ⟨w',sh',hs⟩ := @holds_step trace k (batches.getD k []) _ s.shared ((h.mutex k).mp hmu)
    exact ⟨_,.worker k hs⟩

/-- No deadlock: if no child runs and the loop has not returned, some thread can go on. -/
theorem exists_step (hprocs : 0<procs)
    (hret : ∀code,s.sched≠.returned code) (hchild : ∀k,(s.workers k).running=false) :
    ∃s',Step trace batches procs s s' := by
  cases hmu : s.shared.mu with
  | some t => exact mutex_step h hmu
  | none =>
    by_cases hidle : ∀k,(s.workers k).live=false
    · exact sched_step h hprocs hret hmu hidle
    rw [not_forall] at hidle
    obtain ⟨k,hk⟩ := hidle
    have hlive : (s.workers k).live=true := by simpa using hk
    have hsem : (s.workers k).slot=true→0<s.shared.sem := by
      intro hslot
      have := count_pos (h.lt (Worker.ne_idle_of_live hlive)) hslot
      have := h.sem
      omega
    obtain ⟨w',sh',hs⟩ :=
      @live_step trace k (batches.getD k []) _ _ hlive (hchild k) hmu hsem (h.wg_pos hlive)
    exact ⟨_,.worker k hs⟩

end

end

end Coreutils.XargsPool
