import Coreutils.XargsSchedules

/-!
# xargs -P is safe under every schedule

What a worker knows about its batch is kept by its own steps, and by those of the other threads
because they leave its part of the shared state alone (`Rely`). With the counters of the threads
this gives what `execBatches` guarantees in every state it can reach.
-/

namespace Coreutils.XargsPool
open Function List GoText ThreadCounts

def entries (k : ℕ) (stream : Stream) (bytes : Bytes) : List Entry :=
  bytes.map fun b => ⟨k,stream,b⟩

def Foreign (k : ℕ) (tape : List Entry) : Prop := ∀e∈tape,e.worker≠k

/-- What a worker has written stands in one piece: its standard output, then its standard error,
then the diagnostic if it wrote one; each whole unless a write failed. -/
def Piece (k : ℕ) (r : Result) (failure : Option Bytes) (pre tape post : List Entry) : Prop :=
  Foreign k pre ∧ Foreign k post ∧ ∃out err rep,
    tape=pre++(entries k .out out++entries k .err err++entries k .report rep)++post ∧
    out <+: r.out ∧ err <+: r.err ∧ (failure=none → out=r.out ∧ err=r.err)

/-- The child was started, or the worker asks to stop. -/
def After.Ran (k : ℕ) (sh : Shared) : After→Prop
  | flush r => k∈sh.runs ∨ r.stop=true
  | leave _ _ => k∈sh.runs ∨ sh.stopped=true

def Worker.Ran (k : ℕ) (sh : Shared) : Worker→Prop
  | idle | testWait | testing | ready => k∉sh.runs
  | tested b => k∉sh.runs ∧ (b=true→sh.stopped=true)
  | child => k∈sh.runs
  | noteWait _ a | noteHeld _ a | noteDone a => a.Ran k sh
  | flushWait r | writeOut r _ | writeErr r _ _ | flags r _ | report r _ _ | setStop r _ =>
    k∈sh.runs ∨ r.stop=true
  | unlock _ _ => k∈sh.runs ∨ sh.stopped=true
  | release flushed | finish flushed | ended flushed =>
    (flushed.isSome=true ∧ k∈sh.runs) ∨ sh.stopped=true

def Noted (sh : Shared) (r : Result) : Prop := ∀c,r.code=some c→c∈sh.noted

def NotedAll (sh : Shared) (flushed : Option (Result×Option Bytes)) : Prop :=
  ∀r failure,flushed=some (r,failure)→Noted sh r ∧ (failure≠none→1∈sh.noted)

/-- The codes that are noted, or are about to be. -/
def Worker.Codes (sh : Shared) : Worker→Prop
  | noteWait c (.flush r) | noteHeld c (.flush r) => r.code=some c
  | noteDone (.flush r) => Noted sh r
  | noteWait c (.leave r _) | noteHeld c (.leave r _) => c=1 ∧ Noted sh r
  | noteDone (.leave r _) => 1∈sh.noted ∧ Noted sh r
  | flushWait r | writeOut r _ | writeErr r _ _ | flags r _ | report r _ _ | setStop r _
  | unlock r _ => Noted sh r
  | release flushed | finish flushed | ended flushed => NotedAll sh flushed
  | _ => True

def Flushed (k : ℕ) (tape : List Entry) (flushed : Option (Result×Option Bytes)) : Prop :=
  ∀r failure,flushed=some (r,failure)→∃pre post,Piece k r failure pre tape post

def Worker.Wrote (k : ℕ) (tape : List Entry) : Worker→Prop
  | noteWait _ (.leave r failure) | noteHeld _ (.leave r failure) | noteDone (.leave r failure) =>
    ∃pre post,Piece k r (some failure) pre tape post
  | writeOut r rest => ∃pre out,Foreign k pre ∧ tape=pre++entries k .out out ∧
      out++rest=r.out
  | writeErr r rest failure => ∃pre out err,Foreign k pre ∧
      tape=pre++(entries k .out out++entries k .err err) ∧ out <+: r.out ∧
      err++rest=r.err ∧ (failure=none → out=r.out)
  | flags r failure => ∃pre out err,Foreign k pre ∧
      tape=pre++(entries k .out out++entries k .err err) ∧ out <+: r.out ∧
      err <+: r.err ∧ (failure=none → out=r.out ∧ err=r.err)
  | report r failure _ => ∃pre,Piece k r (some failure) pre tape []
  | setStop r failure | unlock r failure => ∃pre,Piece k r failure pre tape []
  | release flushed | finish flushed | ended flushed => Flushed k tape flushed
  | _ => Foreign k tape

/-- What `runOne` has left for the worker. -/
def Worker.result : Worker→Option Result
  | noteWait _ (.flush r) | noteHeld _ (.flush r) | noteDone (.flush r) => some r
  | noteWait _ (.leave r _) | noteHeld _ (.leave r _) | noteDone (.leave r _) => some r
  | flushWait r | writeOut r _ | writeErr r _ _ | flags r _ | report r _ _ | setStop r _
  | unlock r _ => some r
  | release flushed | finish flushed | ended flushed => flushed.map Prod.fst
  | _ => none

structure Knows (k : ℕ) (w : Worker) (sh : Shared) : Prop where
  ran : w.Ran k sh
  codes : w.Codes sh
  wrote : w.Wrote k sh.tape

/-- What the other threads may do to the shared state, as the worker `k` sees it. -/
structure Rely (k : ℕ) (sh sh' : Shared) : Prop where
  stopped : sh.stopped=true→sh'.stopped=true
  noted : ∀c∈sh.noted,c∈sh'.noted
  runs : k∈sh'.runs ↔ k∈sh.runs
  tape : ∃new,sh'.tape=sh.tape++new ∧ Foreign k new ∧ (sh.mu=some (.worker k)→new=[])

theorem Foreign.append {k : ℕ} {tape new : List Entry} (h : Foreign k tape) (hn : Foreign k new) :
    Foreign k (tape++new) :=
  forall_mem_append.mpr ⟨h,hn⟩

theorem Piece.append {k : ℕ} {r : Result} {failure : Option Bytes}
    {pre tape post new : List Entry} (h : Piece k r failure pre tape post) (hn : Foreign k new) :
    Piece k r failure pre (tape++new) (post++new) := by
  obtain ⟨hpre,hpost,out,err,rep,htape,hrest⟩ := h
  exact ⟨hpre,hpost.append hn,out,err,rep,by rw [htape,append_assoc],hrest⟩

section
variable {trace : Bool} {batches : List (List Bytes)} {procs n k j : ℕ} {argv : List Bytes}
  {w w' : Worker} {sh sh' : Shared} {s s' : State} {r : Result}

theorem Worker.Ran.rely (h : w.Ran k sh) (hr : Rely k sh sh') : w.Ran k sh' := by
  have hruns := hr.runs
  have hstop := hr.stopped
  have hafter : ∀a : After,a.Ran k sh→a.Ran k sh' := by
    rintro (r | ⟨r,failure⟩) ha
    · exact ha.imp hruns.mpr id
    · exact ha.imp hruns.mpr hstop
  cases w with
  | idle | testWait | testing | ready => exact mt hruns.mp h
  | tested b => exact ⟨mt hruns.mp h.1,fun hb => hstop (h.2 hb)⟩
  | child => exact hruns.mpr h
  | noteWait _ a | noteHeld _ a | noteDone a => exact hafter a h
  | flushWait | writeOut | writeErr | flags | report | setStop => exact h.imp hruns.mpr id
  | unlock r failure => exact h.imp hruns.mpr hstop
  | release | finish | ended => exact h.imp (And.imp_right hruns.mpr) hstop

theorem Noted.mono (h : Noted sh r) (hn : ∀c∈sh.noted,c∈sh'.noted) :
    Noted sh' r := fun c hc => hn c (h c hc)

theorem NotedAll.mono {flushed : Option (Result×Option Bytes)} (h : NotedAll sh flushed)
    (hn : ∀c∈sh.noted,c∈sh'.noted) : NotedAll sh' flushed := by
  intro r failure hf
  exact ⟨(h r failure hf).1.mono hn,fun hne => hn 1 ((h r failure hf).2 hne)⟩

theorem Worker.Codes.mono (h : w.Codes sh) (hn : ∀c∈sh.noted,c∈sh'.noted) : w.Codes sh' := by
  cases w with
  | noteWait c a | noteHeld c a =>
    cases a with
    | flush r => exact h
    | leave r failure => exact ⟨h.1,h.2.mono hn⟩
  | noteDone a =>
    cases a with
    | flush r => exact Noted.mono h hn
    | leave r failure => exact ⟨hn 1 h.1,h.2.mono hn⟩
  | flushWait | writeOut | writeErr | flags | report | setStop | unlock => exact Noted.mono h hn
  | release | finish | ended => exact NotedAll.mono h hn
  | idle | testWait | testing | tested | ready | child => trivial

/-- A worker with the mutex finds the tape as it left it; the others only see it grow. -/
theorem Worker.Wrote.rely (h : w.Wrote k sh.tape) (hr : Rely k sh sh')
    (hmu : w.holds=true→sh.mu=some (.worker k)) : w.Wrote k sh'.tape := by
  obtain ⟨new,htape,hnew,hlock⟩ := hr.tape
  by_cases hw : w.holds=true
  · rw [htape,hlock (hmu hw),append_nil]
    exact h
  rw [htape]
  have hpiece : ∀{r failure},(∃pre post,Piece k r failure pre sh.tape post)→
      ∃pre post,Piece k r failure pre (sh.tape++new) post := by
    rintro r failure ⟨pre,post,hp⟩
    exact ⟨pre,post++new,hp.append hnew⟩
  have hflushed : ∀{flushed},Flushed k sh.tape flushed→Flushed k (sh.tape++new) flushed :=
    fun hf r failure hr => hpiece (hf r failure hr)
  cases w with
  | idle | testWait | ready | child | flushWait => exact Foreign.append h hnew
  | noteWait c a =>
    cases a with
    | flush r => exact Foreign.append h hnew
    | leave r failure => exact hpiece h
  | release | finish | ended => exact hflushed h
  | testing | tested | noteHeld | noteDone | writeOut | writeErr | flags | report | setStop
  | unlock => exact absurd rfl hw

theorem Knows.rely (h : Knows k w sh) (hr : Rely k sh sh')
    (hmu : w.holds=true→sh.mu=some (.worker k)) : Knows k w sh' :=
  ⟨h.ran.rely hr,h.codes.mono hr.noted,h.wrote.rely hr hmu⟩

/-- The steps of one worker are what another may rely on; it writes with the mutex only. -/
theorem WorkerStep.rely (h : WorkerStep trace argv j w sh w' sh') (hjk : j≠k)
    (hmu : w.holds=true→sh.mu=some (.worker j)) : Rely k sh sh' := by
  have hkeep : ∀{sh₁ : Shared},(sh.stopped=true→sh₁.stopped=true)→sh₁.noted=sh.noted→
      sh₁.runs=sh.runs→sh₁.tape=sh.tape→Rely k sh sh₁ := by
    intro sh₁ hs hn hr ht
    exact ⟨hs,fun c hc => by rwa [hn],by rw [hr],[],by simp [ht],by simp [Foreign],by simp⟩
  have hput : ∀stream b,w.holds=true→Rely k sh (sh.put j stream b) := by
    intro stream b hw
    refine ⟨id,fun c hc => hc,Iff.rfl,[⟨j,stream,b⟩],rfl,?_,?_⟩
    · intro e he
      rw [mem_singleton.mp he]
      exact hjk
    · intro hk
      rw [hmu hw] at hk
      simp only [Option.some.injEq,Thread.worker.injEq] at hk
      exact absurd hk hjk
  cases h with
  | testLock | testRead | testStop | testGo | missing | startError | exit | noteLock | noteUnlock
  | flushLock | outDone | outFail | errDone | errFail | clean | reportDone | unlockClean
  | unlockFailed | release | finish => exact hkeep id rfl rfl rfl
  | start =>
    refine ⟨id,fun c hc => hc,?_,[],by simp,by simp [Foreign],by simp⟩
    have hkj : k≠j := fun h => hjk h.symm
    simp [hkj]
  | note code after =>
    exact ⟨id,fun c hc => by simp [hc],Iff.rfl,[],by simp,by simp [Foreign],by simp⟩
  | outByte r b rest => exact hput .out b rfl
  | errByte r b rest failure => exact hput .err b rfl
  | failed | failedFirst => exact hkeep (fun _ => rfl) rfl rfl rfl
  | reportByte r failure b rest => exact hput .report b rfl
  | setStop r failure => exact hkeep (fun h => by simp [h]) rfl rfl rfl

theorem SchedulerStep.rely {c c' : Scheduler} (h : SchedulerStep n procs c sh c' sh') (k : ℕ) :
    Rely k sh sh' := by
  cases h <;>
    exact ⟨id,fun c hc => hc,Iff.rfl,[],by simp,by simp [Foreign],by simp⟩

/-- The result of `runOne`: a child that was started, or a request to stop. -/
theorem conclude_ran (h : k∈sh.runs ∨ r.stop=true) : (conclude r).Ran k sh := by
  unfold conclude
  split <;> exact h

theorem conclude_codes (r : Result) : (conclude r).Codes sh := by
  unfold conclude
  split
  · rename_i hc
    exact hc
  · rename_i hc
    intro c h
    rw [hc] at h
    cases h

theorem conclude_wrote {tape : List Entry} (h : Foreign k tape) : (conclude r).Wrote k tape := by
  unfold conclude
  split <;> exact h

theorem entries_append (k : ℕ) (stream : Stream) (a : Bytes) (b : UInt8) :
    entries k stream (a++[b])=entries k stream a++[⟨k,stream,b⟩] := by
  simp [entries]

section
variable (h : WorkerStep trace argv k w sh w' sh')
include h

theorem WorkerStep.ran (hk : w.Ran k sh) : w'.Ran k sh' := by
  cases h with
  | testLock | noteLock | flushLock | outByte | outDone | outFail | errByte | errDone | errFail
  | clean | failed | failedFirst | reportByte | reportDone | unlockFailed | release | finish =>
    exact hk
  | testRead => exact ⟨hk,id⟩
  | testStop => exact .inr (hk.2 rfl)
  | testGo => exact hk.1
  | missing | startError => exact conclude_ran (.inr rfl)
  | start => exact mem_append_right _ (mem_singleton.mpr rfl)
  | exit out err status => exact conclude_ran (.inl hk)
  | note code after =>
    cases after with
    | flush | leave => exact hk
  | noteUnlock after =>
    cases after with
    | flush r => exact hk
    | leave r failure => exact Or.imp_left (fun h => ⟨rfl,h⟩) hk
  | setStop r failure => exact Or.imp_right (fun h => by simp [h]) hk
  | unlockClean r => exact Or.imp_left (fun h => ⟨rfl,h⟩) hk

theorem WorkerStep.codes (hk : w.Codes sh) : w'.Codes sh' := by
  cases h with
  | testLock | testRead | testGo | start => trivial
  | testStop =>
    intro r failure hf
    cases hf
  | missing | startError | exit => exact conclude_codes _
  | noteLock code after h =>
    cases after with
    | flush | leave => exact hk
  | note code after =>
    cases after with
    | flush r =>
      intro c hc
      rw [show r.code=some code from hk,Option.some.injEq] at hc
      simp [hc]
    | leave r failure => exact ⟨by simp [hk.1],hk.2.mono fun c hc => by simp [hc]⟩
  | noteUnlock after =>
    cases after with
    | flush r => exact hk
    | leave r failure =>
      intro r' failure' hf
      obtain ⟨rfl,rfl⟩ := hf
      exact ⟨hk.2,fun _ => hk.1⟩
  | flushLock | outByte | outDone | outFail | errByte | errDone | errFail | clean | failed
  | failedFirst | reportByte | reportDone | setStop | release | finish => exact hk
  | unlockClean r =>
    intro r' failure' hf
    obtain ⟨rfl,rfl⟩ := hf
    exact ⟨hk,fun h => absurd rfl h⟩
  | unlockFailed r failure => exact ⟨rfl,hk⟩

theorem WorkerStep.wrote (hk : w.Wrote k sh.tape) : w'.Wrote k sh'.tape := by
  cases h with
  | testLock | testRead | testGo | start | reportDone | setStop | release | finish => exact hk
  | testStop =>
    intro r failure hf
    cases hf
  | missing | startError | exit => exact conclude_wrote hk
  | noteLock _ after | note _ after =>
    cases after with
    | flush | leave => exact hk
  | noteUnlock after =>
    cases after with
    | flush r => exact hk
    | leave r failure =>
      intro r' failure' hf
      obtain ⟨rfl,rfl⟩ := hf
      exact hk
  | flushLock r h => exact ⟨sh.tape,[],hk,by simp [entries],rfl⟩
  | outByte r b rest =>
    obtain ⟨pre,out,hpre,htape,hout⟩ := hk
    refine ⟨pre,out++[b],hpre,?_,by simpa using hout⟩
    rw [entries_append,Shared.put,htape,append_assoc]
  | outDone r =>
    obtain ⟨pre,out,hpre,htape,hout⟩ := hk
    rw [append_nil] at hout
    exact ⟨pre,out,[],hpre,by simpa [entries] using htape,hout ▸ prefix_rfl,rfl,fun _ => hout⟩
  | outFail r rest failure =>
    obtain ⟨pre,out,hpre,htape,hout⟩ := hk
    exact ⟨pre,out,[],hpre,by simpa [entries] using htape,⟨rest,hout⟩,rfl,by simp⟩
  | errByte r b rest failure =>
    obtain ⟨pre,out,err,hpre,htape,hout,herr,hfull⟩ := hk
    refine ⟨pre,out,err++[b],hpre,?_,hout,by simpa using herr,hfull⟩
    rw [entries_append,Shared.put,htape]
    simp
  | errDone r failure =>
    obtain ⟨pre,out,err,hpre,htape,hout,herr,hfull⟩ := hk
    rw [append_nil] at herr
    exact ⟨pre,out,err,hpre,htape,hout,herr ▸ prefix_rfl,fun h => ⟨hfull h,herr⟩⟩
  | errFail r rest failure failure' =>
    obtain ⟨pre,out,err,hpre,htape,hout,herr,-⟩ := hk
    exact ⟨pre,out,err,hpre,htape,hout,⟨rest,herr⟩,by simp⟩
  | clean | failed | failedFirst =>
    obtain ⟨pre,out,err,hpre,htape,hout,herr,hfull⟩ := hk
    exact ⟨pre,hpre,by simp [Foreign],out,err,[],by simpa [entries] using htape,hout,herr,hfull⟩
  | reportByte r failure b rest =>
    obtain ⟨pre,hpre,hpost,out,err,rep,htape,hrest⟩ := hk
    refine ⟨pre,hpre,hpost,out,err,rep++[b],?_,hrest⟩
    rw [entries_append,Shared.put,htape]
    simp
  | unlockClean r =>
    intro r' failure' hf
    obtain ⟨rfl,rfl⟩ := hf
    exact hk.imp fun pre hp => ⟨[],hp⟩
  | unlockFailed r failure => exact hk.imp fun pre hp => ⟨[],hp⟩

end

theorem conclude_result (r : Result) : (conclude r).result=some r := by
  unfold conclude
  split <;> rfl

/-- A worker gets its result once: when its child ends, or when it starts none. -/
theorem WorkerStep.result (h : WorkerStep trace argv k w sh w' sh') (hk : w.Ran k sh) :
    (sh'.exits=sh.exits ∧ (w'.result=w.result ∨ w.result=none ∧ k∉sh'.runs)) ∨
      w.result=none ∧ ∃x : Exit,x.worker=k ∧ sh'.exits=sh.exits++[x] ∧
        w'.result=some (XargsPool.ended trace argv x.out x.err x.status) := by
  cases h with
  | missing | startError => exact .inl ⟨rfl,.inr ⟨rfl,hk⟩⟩
  | exit out err status => exact .inr ⟨rfl,⟨k,out,err,status⟩,rfl,rfl,conclude_result _⟩
  | noteLock code after | note code after | noteUnlock after =>
    cases after <;> exact .inl ⟨rfl,.inl rfl⟩
  | _ => exact .inl ⟨rfl,.inl rfl⟩

theorem WorkerStep.runs (h : WorkerStep trace argv k w sh w' sh') (hk : w.Ran k sh) :
    sh'.runs=sh.runs ∨ w'.result=none ∧ k∉sh.runs ∧ sh'.runs=sh.runs++[k] := by
  cases h with
  | start => exact .inr ⟨rfl,hk,rfl⟩
  | _ => exact .inl rfl

/-- Every worker knows its batch; the log of the runs and `worst` are right. -/
structure Good (s : State) : Prop where
  knows : ∀k,Knows k (s.workers k) s.shared
  once : s.shared.runs.Nodup
  worst : s.shared.worst=s.shared.noted.foldl max 0
  returned : ∀code,s.sched=.returned code→s.shared.wg=0 ∧ code=s.shared.worst

theorem Good.initial : Good {} where
  knows k := ⟨by simp [Worker.Ran],trivial,by simp [Worker.Wrote,Foreign]⟩
  once := nodup_nil
  worst := rfl
  returned code h := by cases h

section
variable (h : Good s) (hinv : Inv n procs s)
include h hinv

theorem Good.worker (hs : WorkerStep trace argv k (s.workers k) s.shared w' sh') :
    Good { s with workers := update s.workers k w',shared := sh' } := by
  have hk := h.knows k
  refine ⟨?_,?_,?_,?_⟩
  · intro j
    by_cases hj : j=k
    · subst hj
      simp only [update_self]
      exact ⟨hs.ran hk.ran,hs.codes hk.codes,hs.wrote hk.wrote⟩
    · simp only [update_of_ne hj]
      exact (h.knows j).rely (hs.rely (fun h => hj h.symm) (hinv.mutex k).mpr) (hinv.mutex j).mpr
  · rcases hs.runs hk.ran with hruns | ⟨-,hnew,hruns⟩
    · rw [hruns]
      exact h.once
    · rw [hruns,nodup_append]
      refine ⟨h.once,by simp,?_⟩
      rintro a ha b hb rfl
      exact hnew (mem_singleton.mp hb ▸ ha)
  · have hworst := h.worst
    generalize s.workers k=w at hs
    cases hs with
    | note code after => simp [hworst]
    | _ => exact hworst
  · intro code hcode
    -- the loop has returned, so that no worker is left to take a step
    exact absurd (h.returned code hcode).1 (hinv.wg_pos hs.effect.live).ne'

theorem Good.sched {c' : Scheduler} (hs : SchedulerStep n procs s.sched s.shared c' sh') :
    Good { s with sched := c',shared := sh' } := by
  refine ⟨fun k => (h.knows k).rely (hs.rely k) (hinv.mutex k).mpr,?_,?_,?_⟩
  · have honce := h.once
    generalize s.sched=c at hs
    cases hs <;> exact honce
  · have hworst := h.worst
    generalize s.sched=c at hs
    cases hs <;> exact hworst
  intro code hcode
  subst hcode
  generalize s.sched=c at hs
  cases hs with
  | wait hzero => exact ⟨hzero,rfl⟩

theorem Good.spawn {i : ℕ} (hs : s.sched=.spawning i) :
    Good { s with sched := .head (i+1),workers := update s.workers i .testWait } := by
  have hidle := hinv.idle hs
  refine ⟨?_,h.once,h.worst,?_⟩
  · intro k
    by_cases hk : k=i
    · subst hk
      have hknows := h.knows k
      rw [hidle] at hknows
      simp only [update_self]
      exact ⟨hknows.ran,trivial,hknows.wrote⟩
    · simp only [update_of_ne hk]
      exact h.knows k
  · intro code hcode
    cases hcode

end

theorem Good.step (h : Good s) (hinv : Inv batches.length procs s)
    (hs : Step trace batches procs s s') : Good s' := by
  cases hs with
  | sched hs => exact h.sched hinv hs
  | spawn hs => exact h.spawn hinv hs
  | worker k hs => exact h.worker hinv hs

theorem Reachable.good (h : Reachable trace batches procs s) : Good s := by
  induction h with
  | refl => exact Good.initial
  | tail hpre hs ih => exact ih.step (Reachable.inv hpre) hs

/-- The result of a worker whose child was started is that of its end, which is on record once. -/
structure Recorded (trace : Bool) (batches : List (List Bytes)) (s : State) : Prop where
  ends : ∀x∈s.shared.exits,(s.workers x.worker).result =
    some (ended trace (batches.getD x.worker []) x.out x.err x.status)
  unique : (s.shared.exits.map Exit.worker).Nodup
  made : ∀k,(s.workers k).result≠none→k∈s.shared.runs→∃x∈s.shared.exits,x.worker=k

theorem Recorded.worker (h : Recorded trace batches s) (hran : (s.workers k).Ran k s.shared)
    (hs : WorkerStep trace (batches.getD k []) k (s.workers k) s.shared w' sh') :
    Recorded trace batches { s with workers := update s.workers k w',shared := sh' } := by
  have hother : ∀j≠k,j∈sh'.runs→j∈s.shared.runs := by
    intro j hj hmem
    rcases hs.runs hran with hruns | ⟨-,-,hruns⟩
    · exact hruns ▸ hmem
    · rw [hruns,mem_append,mem_singleton] at hmem
      exact hmem.resolve_right hj
  rcases hs.result hran with ⟨hexits,hresult⟩ | ⟨hnone,x,rfl,hexits,hresult⟩
  · refine ⟨fun x hx => ?_,by simpa only [hexits] using h.unique,fun j hj hmem => ?_⟩
    · simp only [hexits] at hx
      have hold := h.ends x hx
      by_cases hxk : x.worker=k
      · rw [hxk] at hold ⊢
        simp only [update_self]
        exact (hresult.resolve_right fun hnone => by simp [hnone.1] at hold).trans hold
      · simpa only [update_of_ne hxk] using hold
    · simp only [hexits]
      by_cases hjk : j=k
      · subst hjk
        simp only [update_self] at hj
        rcases hs.runs hran with hruns | ⟨hchild,-⟩
        · rcases hresult with hsame | ⟨-,hnot⟩
          · exact h.made j (hsame ▸ hj) (hruns ▸ hmem)
          · exact absurd hmem hnot
        · exact absurd hchild hj
      · simp only [update_of_ne hjk] at hj
        exact h.made j hj (hother j hjk hmem)
  · have hfresh : ∀y∈s.shared.exits,y.worker≠x.worker := by
      intro y hy heq
      have := h.ends y hy
      rw [heq,hnone] at this
      cases this
    refine ⟨fun y hy => ?_,?_,fun j hj hmem => ?_⟩
    · simp only [hexits,mem_append,mem_singleton] at hy
      rcases hy with hy | rfl
      · simpa only [update_of_ne (hfresh y hy)] using h.ends y hy
      · simpa only [update_self] using hresult
    · simp only [hexits,map_append,map_cons,map_nil]
      refine nodup_append.mpr ⟨h.unique,by simp,?_⟩
      rintro a ha b hb rfl
      obtain ⟨y,hy,hyx⟩ := mem_map.mp ha
      exact hfresh y hy (hyx.trans (mem_singleton.mp hb))
    · simp only [hexits]
      by_cases hjx : j=x.worker
      · exact ⟨x,by simp,hjx.symm⟩
      · simp only [update_of_ne hjx] at hj
        obtain ⟨y,hy,hyj⟩ := h.made j hj (hother j hjx hmem)
        exact ⟨y,mem_append_left _ hy,hyj⟩

theorem Recorded.step (h : Recorded trace batches s) (hgood : Good s)
    (hinv : Inv batches.length procs s) (hs : Step trace batches procs s s') :
    Recorded trace batches s' := by
  cases hs with
  | @sched c' sh' hs =>
    have hlogs : sh'.exits=s.shared.exits ∧ sh'.runs=s.shared.runs := by
      generalize s.sched=c at hs
      cases hs <;> exact ⟨rfl,rfl⟩
    refine ⟨?_,?_,?_⟩ <;> simp only [hlogs.1,hlogs.2]
    · exact h.ends
    · exact h.unique
    · exact h.made
  | @spawn i hs =>
    have hidle := hinv.idle hs
    have hresult : ∀k,(update s.workers i .testWait k).result=(s.workers k).result := by
      intro k
      by_cases hk : k=i
      · subst hk
        simp [hidle,Worker.result]
      · rw [update_of_ne hk]
    exact ⟨fun x hx => (hresult _).trans (h.ends x hx),h.unique,fun k hk =>
      h.made k (hresult k ▸ hk)⟩
  | worker k hs => exact h.worker (hgood.knows k).ran hs

theorem Reachable.recorded (h : Reachable trace batches procs s) : Recorded trace batches s := by
  induction h with
  | refl => exact ⟨by simp,nodup_nil,by simp⟩
  | tail hpre hs ih => exact ih.step (Reachable.good hpre) (Reachable.inv hpre) hs

/-- The worker has not read the flag, or has read that it was set. -/
def Worker.barred : Worker→Bool
  | idle | testWait | testing => true
  | tested b => b
  | release flushed | finish flushed | ended flushed => flushed.isNone
  | _ => false

/-- The flag is set before the worker has read it, and its child was not started. -/
structure Barred (k : ℕ) (s : State) : Prop where
  stopped : s.shared.stopped=true
  place : (s.workers k).barred=true
  runs : k∉s.shared.runs

theorem WorkerStep.barred (h : WorkerStep trace argv k w sh w' sh') (hs : sh.stopped=true)
    (hw : w.barred=true) : w'.barred=true ∧ sh'.runs=sh.runs := by
  cases h with
  | testLock | testStop => exact ⟨rfl,rfl⟩
  | testRead => exact ⟨hs,rfl⟩
  | release | finish => exact ⟨hw,rfl⟩
  | _ => cases hw

theorem Barred.step (h : Barred k s) (hinv : Inv batches.length procs s)
    (hs : Step trace batches procs s s') : Barred k s' := by
  cases hs with
  | sched hs =>
    have hr := hs.rely k
    exact ⟨hr.stopped h.stopped,h.place,mt hr.runs.mp h.runs⟩
  | @spawn i hs =>
    refine ⟨h.stopped,?_,h.runs⟩
    by_cases hk : k=i
    · subst hk
      simp [Worker.barred]
    · simpa [update_of_ne hk] using h.place
  | worker j hs =>
    by_cases hj : k=j
    · subst hj
      obtain ⟨hplace,hruns⟩ := hs.barred h.stopped h.place
      exact ⟨hs.effect.stopped h.stopped,by simpa using hplace,by simpa [hruns] using h.runs⟩
    · have hr := hs.rely (fun h => hj h.symm) (hinv.mutex j).mpr
      exact ⟨hr.stopped h.stopped,by simpa [update_of_ne hj] using h.place,mt hr.runs.mp h.runs⟩

/-- A worker that has not read the flag when it is set never starts a child. -/
theorem stop_respected (h : Reachable trace batches procs s) (hstop : s.shared.stopped=true)
    (hk : (s.workers k).untested=true)
    (hs : Relation.ReflTransGen (Step trace batches procs) s s') : k∉s'.shared.runs := by
  have hran := (h.good.knows k).ran
  have hbarred : Barred k s := by
    refine ⟨hstop,?_,?_⟩
    · revert hk
      cases s.workers k <;> simp [Worker.untested,Worker.barred]
    · revert hk hran
      cases s.workers k <;> simp [Worker.untested,Worker.Ran]
  have hall : Reachable trace batches procs s' ∧ Barred k s' := by
    induction hs with
    | refl => exact ⟨h,hbarred⟩
    | tail _ hstep ih => exact ⟨ih.1.tail hstep,ih.2.step ih.1.inv hstep⟩
  exact hall.2.runs

end

/-- What `execBatches` guarantees in a state that it can reach. -/
structure Safe (trace : Bool) (batches : List (List Bytes)) (procs : ℕ) (s : State) : Prop where
  /-- No deadlock. -/
  progress : (∀code,s.sched≠.returned code)→(∀k,(s.workers k).running=false)→
    ∃s',Step trace batches procs s s'
  limit : s.running batches.length≤procs
  once : s.shared.runs.Nodup
  all : ∀code,s.sched=.returned code→s.shared.stopped=false→
    ∀k<batches.length,k∈s.shared.runs
  stop : s.shared.stopped=true→∀k,(s.workers k).untested=true→
    ∀s',Relation.ReflTransGen (Step trace batches procs) s s'→k∉s'.shared.runs
  /-- A child ends once. -/
  exits : (s.shared.exits.map Exit.worker).Nodup
  /-- What a worker with a child has flushed is what the child left, and it stands in one piece. -/
  pieces : ∀k r failure,s.workers k=.ended (some (r,failure))→
    (∃pre post,Piece k r failure pre s.shared.tape post) ∧
      (k∈s.shared.runs→∃x∈s.shared.exits,x.worker=k ∧
        r=ended trace (batches.getD k []) x.out x.err x.status ∧ r.out=x.out ∧
        traceLine trace (batches.getD k [])++x.err <+: r.err)
  /-- The exit code is the greatest code noted; all codes are noted, and all children flushed. -/
  code : ∀code,s.sched=.returned code→code=s.shared.noted.foldl max 0 ∧
    (∀k,(s.workers k).live=false ∧ ∀r failure,s.workers k=.ended (some (r,failure))→
      Noted s.shared r ∧ (failure≠none→1∈s.shared.noted)) ∧
    ∀x∈s.shared.exits,∃failure,s.workers x.worker =
      .ended (some (ended trace (batches.getD x.worker []) x.out x.err x.status,failure))

theorem ended_out (out err : Bytes) (status : Status) : (ended trace argv out err status).out=out ∧
      traceLine trace argv++err <+: (ended trace argv out err status).err := by
  cases status with
  | exit code =>
    simp only [ended]
    split_ifs <;> simp
  | waitError msg => simp [ended]

theorem execBatches_safe (trace : Bool) (batches : List (List Bytes)) (procs : ℕ)
    (hprocs : 1<procs) (s : State) (h : Reachable trace batches procs s) :
    Safe trace batches procs s := by
  have hinv := h.inv
  have hgood := h.good
  have hrecorded := h.recorded
  have hover : ∀code,s.sched=.returned code→∀k,(s.workers k).live=false := fun code hcode k =>
    Bool.eq_false_iff.mpr fun hlive => (hinv.wg_pos hlive).ne' (hgood.returned code hcode).1
  refine ⟨exists_step hinv (by omega),?_,hgood.once,?_,?_,hrecorded.unique,?_,?_⟩
  · have hle : s.running batches.length≤count batches.length Worker.slot s.workers := by
      apply count_mono
      intro w hw
      cases w <;> first | rfl | cases hw
    have := hinv.sem
    have := hinv.cap
    omega
  · intro code hcode hstop k hk
    obtain ⟨j,-,hstarted,hat⟩ := hinv.started
    rw [hcode,hstop] at hat
    have hj : j=batches.length := hat.resolve_right (by simp)
    have hne := (hstarted k).mpr (by omega)
    have hran := (hgood.knows k).ran
    have hlive := hover code hcode k
    revert hne hran hlive
    cases s.workers k with
    | ended flushed =>
      intro _ hran _
      rcases hran with hran | hran
      · exact hran.2
      · rw [hstop] at hran
        cases hran
    | _ => simp [Worker.live]
  · intro hstop k hk s' hs
    exact stop_respected h hstop hk hs
  · intro k r failure hk
    have hwrote := (hgood.knows k).wrote
    rw [hk] at hwrote
    refine ⟨hwrote r failure rfl,fun hrun => ?_⟩
    have hresult : (s.workers k).result=some r := by rw [hk]; rfl
    obtain ⟨x,hx,rfl⟩ := hrecorded.made k (by simp [hresult]) hrun
    obtain rfl := Option.some.inj (hresult.symm.trans (hrecorded.ends x hx))
    exact ⟨x,hx,rfl,rfl,ended_out _ _ _⟩
  · intro code hcode
    refine ⟨(hgood.returned code hcode).2.trans hgood.worst,fun k => ⟨hover code hcode k,?_⟩,?_⟩
    · intro r failure hk
      have hcodes := (hgood.knows k).codes
      rw [hk] at hcodes
      exact hcodes r failure rfl
    · intro x hx
      have hends := hrecorded.ends x hx
      have hlive := hover code hcode x.worker
      revert hends hlive
      cases s.workers x.worker with
      | ended flushed =>
        intro hends _
        obtain ⟨⟨r,failure⟩,rfl,rfl⟩ := Option.map_eq_some_iff.mp hends
        exact ⟨failure,rfl⟩
      | idle => exact fun hends => by cases hends
      | _ => simp [Worker.live]

/-- The second of two batches ends first: it writes `b` and succeeds, the other `a` and fails. -/
theorem execBatches_safe_two : ∃s,Safe false [[ascii "a"],[ascii "b"]] 2 s ∧ s.sched=.returned 123 ∧
      s.shared.runs=[0,1] ∧ s.shared.tape=[⟨1,.out,98⟩,⟨0,.out,97⟩] ∧
      s.shared.exits=[⟨1,ascii "b",[],.exit 0⟩,⟨0,ascii "a",[],.exit 3⟩] := by
  obtain ⟨s,hrun,hend⟩ : ∃s,Reachable false [[ascii "a"],[ascii "b"]] 2 s ∧ s.sched=.returned 123 ∧
      s.shared.runs=[0,1] ∧ s.shared.tape=[⟨1,.out,98⟩,⟨0,.out,97⟩] ∧
      s.shared.exits=[⟨1,ascii "b",[],.exit 0⟩,⟨0,ascii "a",[],.exit 3⟩] :=
    ⟨_,.head (.sched (.lock 0 (by decide) rfl)) <| .head (.sched (.read 0)) <|
      .head (.sched (.go 0)) <| .head (.sched (.add 0)) <|
      .head (.sched (.acquire 0 (by decide))) <| .head (.spawn rfl) <|
      .head (.sched (.lock 1 (by decide) rfl)) <| .head (.sched (.read 1)) <|
      .head (.sched (.go 1)) <| .head (.sched (.add 1)) <|
      .head (.sched (.acquire 1 (by decide))) <| .head (.spawn rfl) <|
      .head (.worker 0 (.testLock rfl)) <| .head (.worker 0 .testRead) <|
      .head (.worker 0 .testGo) <| .head (.worker 0 .start) <| .head (.worker 1 (.testLock rfl)) <|
      .head (.worker 1 .testRead) <| .head (.worker 1 .testGo) <| .head (.worker 1 .start) <|
      .head (.worker 1 (.exit (ascii "b") [] (.exit 0))) <|
      .head (.worker 0 (.exit (ascii "a") [] (.exit 3))) <| .head (.worker 1 (.flushLock _ rfl)) <|
      .head (.worker 1 (.outByte _ _ _)) <| .head (.worker 1 (.outDone _)) <|
      .head (.worker 1 (.errDone _ _)) <| .head (.worker 1 (.clean _)) <|
      .head (.worker 1 (.setStop _ _)) <| .head (.worker 1 (.unlockClean _)) <|
      .head (.worker 0 (.noteLock _ _ rfl)) <| .head (.worker 0 (.note _ _)) <|
      .head (.worker 0 (.noteUnlock _)) <| .head (.worker 0 (.flushLock _ rfl)) <|
      .head (.worker 0 (.outByte _ _ _)) <| .head (.worker 0 (.outDone _)) <|
      .head (.worker 0 (.errDone _ _)) <| .head (.worker 0 (.clean _)) <|
      .head (.worker 0 (.setStop _ _)) <| .head (.worker 0 (.unlockClean _)) <|
      .head (.worker 1 (.release _ (by decide))) <| .head (.worker 1 (.finish _ (by decide))) <|
      .head (.worker 0 (.release _ (by decide))) <| .head (.worker 0 (.finish _ (by decide))) <|
      .head (.sched .last) <| .single (.sched (.wait rfl)),rfl,rfl,rfl,rfl⟩
  exact ⟨s,execBatches_safe false [[ascii "a"],[ascii "b"]] 2 (by decide) s hrun,hend⟩

end Coreutils.XargsPool
