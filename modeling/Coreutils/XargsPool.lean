import Coreutils.GoText

/-!
# The parallel runs of xargs

`execBatches` with `-P`: a scheduling loop that starts one worker for each batch, as a step relation
on the loop, the workers and what they share. Each operation of the mutex, the semaphore channel and
the wait group, each access to a shared variable and each byte written is a step. What a command is,
how it ends and whether a write fails is left open: every possibility is a step.
-/

namespace Coreutils.XargsPool
open GoText

/-- What `runOne` leaves: the code it notes, whether it asks to stop, and the captured output. -/
structure Result where
  code : Option ℕ
  stop : Bool
  out : Bytes
  err : Bytes
  deriving DecidableEq,Repr

/-- How a child ends: an exit status, negative for a signal, or a failure to wait for it. -/
inductive Status where
  | exit (code : ℤ)
  | waitError (msg : Bytes)
  deriving DecidableEq,Repr

variable (trace : Bool) (argv : List Bytes)

def traceLine : Bytes :=
  if trace then (argv.intersperse [32]).flatten++[newline] else []

def commandName : Bytes := argv.headD []

def notFound : Result where
  code := some 127
  stop := true
  out := []
  err := traceLine trace argv++ascii "xargs: " ++ commandName argv ++
    ascii ": command not found" ++ [newline]

def notStarted (msg : Bytes) : Result where
  code := some 126
  stop := true
  out := []
  err := traceLine trace argv++ascii "xargs: " ++ commandName argv++ascii ": " ++ msg++[newline]

def ended (out err : Bytes) : Status→Result
  | .exit code =>
    let err := traceLine trace argv++err
    if code=0 then ⟨none,false,out,err⟩
    else if code=255 then
      ⟨some 124,true,out,err++ascii "xargs: child returned exit status 255" ++ [newline]⟩
    else if code<0 then
      ⟨some 125,true,out,err++ascii "xargs: child terminated by signal" ++ [newline]⟩
    else ⟨some 123,false,out,err⟩
  | .waitError msg =>
    ⟨some 126,true,out,traceLine trace argv++err++ascii "xargs: wait error: " ++ msg ++
      [newline]⟩

inductive After where
  | flush (r : Result)
  | leave (r : Result) (failure : Bytes)
  deriving DecidableEq,Repr

/-- Where a worker is. A state in which it holds the mutex says so. -/
inductive Worker where
  /-- Not started by the loop. -/
  | idle
  /-- Before `mu.Lock()` of the stop test. -/
  | testWait
  /-- With the mutex, before the flag is read. -/
  | testing
  /-- With the mutex, the flag was read. -/
  | tested (stopped : Bool)
  /-- About to look the command up. -/
  | ready
  /-- The child runs. -/
  | child
  /-- Before `mu.Lock()` in `note`. -/
  | noteWait (code : ℕ) (after : After)
  /-- With the mutex, before `worst` is set. -/
  | noteHeld (code : ℕ) (after : After)
  /-- With the mutex, before `mu.Unlock()` in `note`. -/
  | noteDone (after : After)
  /-- Before `mu.Lock()` of the flush. -/
  | flushWait (r : Result)
  /-- With the mutex, in the write of the standard output; `rest` is left. -/
  | writeOut (r : Result) (rest : Bytes)
  /-- With the mutex, in the write of the standard error. -/
  | writeErr (r : Result) (rest : Bytes) (failure : Option Bytes)
  /-- With the mutex, both writes have returned. -/
  | flags (r : Result) (failure : Option Bytes)
  /-- With the mutex, in the write of the diagnostic. -/
  | report (r : Result) (failure rest : Bytes)
  /-- With the mutex, before the flag is set for a stop. -/
  | setStop (r : Result) (failure : Option Bytes)
  /-- With the mutex, before `mu.Unlock()` of the flush. -/
  | unlock (r : Result) (failure : Option Bytes)
  /-- Before `<-sem`; what was flushed, and whether a write failed. -/
  | release (flushed : Option (Result×Option Bytes))
  /-- Before `wg.Done()`. -/
  | finish (flushed : Option (Result×Option Bytes))
  | ended (flushed : Option (Result×Option Bytes))
  deriving DecidableEq,Repr

/-- Where the scheduling loop is; `i` is the batch it is at. -/
inductive Scheduler where
  /-- Before `mu.Lock()` of the stop test, or at the end of the batches. -/
  | head (i : ℕ)
  /-- With the mutex, before the flag is read. -/
  | checking (i : ℕ)
  /-- With the mutex, the flag was read. -/
  | checked (i : ℕ) (stopped : Bool)
  /-- Before `wg.Add(1)`. -/
  | adding (i : ℕ)
  /-- Before `sem <- struct{}{}`. -/
  | acquiring (i : ℕ)
  /-- Before the `go` statement. -/
  | spawning (i : ℕ)
  /-- Before `wg.Wait()`. -/
  | waiting
  | returned (code : ℕ)
  deriving DecidableEq,Repr

inductive Thread where
  | main
  | worker (k : ℕ)
  deriving DecidableEq,Repr

inductive Stream where
  | out
  | err
  | report
  deriving DecidableEq,Repr

structure Entry where
  worker : ℕ
  stream : Stream
  byte : UInt8
  deriving DecidableEq,Repr

/-- A child that has ended: what it wrote, and how it ended. -/
structure Exit where
  worker : ℕ
  out : Bytes
  err : Bytes
  status : Status
  deriving DecidableEq,Repr

/-- What the threads share. `tape` is all that was written; `noted` are the codes of the calls of
`note`, `runs` the batches whose child was started, and `exits` the children that have ended. -/
structure Shared where
  mu : Option Thread := none
  worst : ℕ := 0
  stopped : Bool := false
  reported : Bool := false
  sem : ℕ := 0
  wg : ℕ := 0
  tape : List Entry := []
  noted : List ℕ := []
  runs : List ℕ := []
  exits : List Exit := []
  deriving DecidableEq,Repr

structure State where
  sched : Scheduler := .head 0
  workers : ℕ→Worker := fun _ => .idle
  shared : Shared := {}

def After.next : After→Worker
  | flush r => .flushWait r
  | leave r failure => .release (some (r,some failure))

def conclude (r : Result) : Worker :=
  match r.code with
  | some code => .noteWait code (.flush r)
  | none => .flushWait r

def writeError (failure : Bytes) : Bytes := ascii "xargs: write error: " ++ failure++[newline]

def Shared.put (sh : Shared) (k : ℕ) (stream : Stream) (byte : UInt8) : Shared :=
  { sh with tape := sh.tape++[⟨k,stream,byte⟩] }

variable (k : ℕ) (batches : List (List Bytes)) (n procs : ℕ)

/-- The steps of the worker for the batch `k`, whose arguments are `argv`. -/
inductive WorkerStep : Worker→Shared→Worker→Shared→Prop
  | testLock {sh} (h : sh.mu=none) :
      WorkerStep .testWait sh .testing { sh with mu := some (.worker k) }
  | testRead {sh} : WorkerStep .testing sh (.tested sh.stopped) sh
  | testStop {sh} : WorkerStep (.tested true) sh (.release none) { sh with mu := none }
  | testGo {sh} : WorkerStep (.tested false) sh .ready { sh with mu := none }
  | missing {sh} : WorkerStep .ready sh (conclude (notFound trace argv)) sh
  | startError {sh} (msg) : WorkerStep .ready sh (conclude (notStarted trace argv msg)) sh
  | start {sh} : WorkerStep .ready sh .child { sh with runs := sh.runs++[k] }
  | exit {sh} (out err status) : WorkerStep .child sh (conclude (ended trace argv out err status))
        { sh with exits := sh.exits++[⟨k,out,err,status⟩] }
  | noteLock {sh} (code after) (h : sh.mu=none) :
      WorkerStep (.noteWait code after) sh (.noteHeld code after) { sh with mu := some (.worker k) }
  | note {sh} (code after) : WorkerStep (.noteHeld code after) sh (.noteDone after)
        { sh with worst := max sh.worst code,noted := sh.noted++[code] }
  | noteUnlock {sh} (after) : WorkerStep (.noteDone after) sh after.next { sh with mu := none }
  | flushLock {sh} (r) (h : sh.mu=none) : WorkerStep (.flushWait r) sh (.writeOut r r.out)
        { sh with mu := some (.worker k) }
  | outByte {sh} (r b rest) :
      WorkerStep (.writeOut r (b::rest)) sh (.writeOut r rest) (sh.put k .out b)
  | outDone {sh} (r) : WorkerStep (.writeOut r []) sh (.writeErr r r.err none) sh
  | outFail {sh} (r rest failure) :
      WorkerStep (.writeOut r rest) sh (.writeErr r r.err (some failure)) sh
  | errByte {sh} (r b rest failure) :
      WorkerStep (.writeErr r (b::rest) failure) sh (.writeErr r rest failure) (sh.put k .err b)
  | errDone {sh} (r failure) : WorkerStep (.writeErr r [] failure) sh (.flags r failure) sh
  | errFail {sh} (r rest failure failure') : WorkerStep (.writeErr r rest failure) sh
        (.flags r (some (failure.getD failure'))) sh
  | clean {sh} (r) : WorkerStep (.flags r none) sh (.setStop r none) sh
  | failed {sh} (r failure) (h : sh.reported=true) :
      WorkerStep (.flags r (some failure)) sh (.setStop r (some failure))
        { sh with stopped := true }
  | failedFirst {sh} (r failure) (h : sh.reported=false) : WorkerStep (.flags r (some failure)) sh
        (.report r failure (writeError failure)) { sh with stopped := true,reported := true }
  | reportByte {sh} (r failure b rest) :
      WorkerStep (.report r failure (b::rest)) sh (.report r failure rest) (sh.put k .report b)
  | reportDone {sh} (r failure rest) :
      WorkerStep (.report r failure rest) sh (.setStop r (some failure)) sh
  | setStop {sh} (r failure) : WorkerStep (.setStop r failure) sh (.unlock r failure)
        { sh with stopped := sh.stopped || r.stop }
  | unlockClean {sh} (r) :
      WorkerStep (.unlock r none) sh (.release (some (r,none))) { sh with mu := none }
  | unlockFailed {sh} (r failure) :
      WorkerStep (.unlock r (some failure)) sh (.noteWait 1 (.leave r failure))
        { sh with mu := none }
  | release {sh} (flushed) (h : 0<sh.sem) :
      WorkerStep (.release flushed) sh (.finish flushed) { sh with sem := sh.sem-1 }
  | finish {sh} (flushed) (h : 0<sh.wg) :
      WorkerStep (.finish flushed) sh (.ended flushed) { sh with wg := sh.wg-1 }

/-- The steps of the loop over `n` batches with a limit of `procs`, but for the `go` statement. -/
inductive SchedulerStep : Scheduler→Shared→Scheduler→Shared→Prop
  | lock {sh} (i) (hi : i<n) (h : sh.mu=none) :
      SchedulerStep (.head i) sh (.checking i) { sh with mu := some .main }
  | last {sh} : SchedulerStep (.head n) sh .waiting sh
  | read {sh} (i) : SchedulerStep (.checking i) sh (.checked i sh.stopped) sh
  | stop {sh} (i) : SchedulerStep (.checked i true) sh .waiting { sh with mu := none }
  | go {sh} (i) : SchedulerStep (.checked i false) sh (.adding i) { sh with mu := none }
  | add {sh} (i) : SchedulerStep (.adding i) sh (.acquiring i) { sh with wg := sh.wg+1 }
  | acquire {sh} (i) (h : sh.sem<procs) :
      SchedulerStep (.acquiring i) sh (.spawning i) { sh with sem := sh.sem+1 }
  | wait {sh} (h : sh.wg=0) : SchedulerStep .waiting sh (.returned sh.worst) sh

/-- The steps of `execBatches` with more than one process. -/
inductive Step : State→State→Prop
  | sched {s sched' shared'}
      (h : SchedulerStep batches.length procs s.sched s.shared sched' shared') :
      Step s { s with sched := sched',shared := shared' }
  | spawn {s i} (h : s.sched=.spawning i) : Step s
        { s with sched := .head (i+1),workers := Function.update s.workers i .testWait }
  | worker {s w' shared'} (k : ℕ)
      (h : WorkerStep trace (batches.getD k []) k (s.workers k) s.shared w' shared') : Step s
        { s with workers := Function.update s.workers k w',shared := shared' }

def Reachable (s : State) : Prop :=
  Relation.ReflTransGen (Step trace batches procs) {} s

end Coreutils.XargsPool
