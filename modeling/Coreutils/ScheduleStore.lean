import Mathlib.Data.Fin.VecNotation
import Mathlib.Data.List.FinRange
import Coreutils.Transactions

/-!
# The schedule store

`schedule add`, `rm`, `enable`, `disable`, `run` and `tick` and the submissions through `UpdateJobs`
load the store, change it and save it. `tick` and `UpdateJobs` hold `schedule.lock` meanwhile; the
others can save over what another process has saved since they loaded.
-/

namespace Coreutils.ScheduleStore

open List Transactions

abbrev Time := Int

inductive Kind where
  | cron
  | every
  | at
  | unknown
  deriving DecidableEq

/-- What the scheduler itself reads and writes of a job; the rest belongs to the command. -/
structure Job where
  id : String
  name : String
  kind : Kind
  spec : String
  posixCron : Bool
  batchLoad : Bool
  enabled : Bool
  createdAt : Time
  lastRun : Time
  nextRun : Time

structure Store where
  jobs : List Job
  cronSource : List UInt8
  cronSourceSet : Bool

/-- The time formats of the standard library, the cron package, and the platform. -/
structure Host where
  cronNext : String→Time→Option Time
  parseDuration : String→Option Int
  parseDate : String→Option Time
  parseClock : String→Time→Option Time
  unix : Bool

section
variable (host : Host) {j : Job} {now : Time}

def parseAt (s : String) (now : Time) : Option Time :=
  match host.parseDate s with
  | some t => some t
  | none =>
    match host.parseClock s now with
    | some today => some (if now<today then today else today+24*3600*1000000000)
    | none => none

/-- The loop of `computeNext`: `d` is added until the time is after `now`. -/
def advance (d now : Int) : ℕ→Time→Time
  | 0,n => n
  | fuel+1,n => if now<n then n else advance d now fuel (n+d)

def Job.computeNext (j : Job) (now : Time) : Option Time :=
  match j.kind with
  | .cron => host.cronNext j.spec now
  | .every =>
    match host.parseDuration j.spec with
    | none => none
    | some d =>
      if d≤0 then none
      else
        let base := if j.lastRun=0 then j.createdAt else j.lastRun
        let n := base+d
        -- each round adds at least a nanosecond
        some (advance d now (now+1-n).toNat n)
  | .at => parseAt host j.spec now
  | .unknown => none

def validateJobPlatform (j : Job) : Option String :=
  if host.unix then none
  else if j.posixCron then
    some ("POSIX crontab execution is unsupported on this non-Unix host: " ++
      "shell and umask semantics cannot be guaranteed")
  else if j.kind=.at then
    some ("POSIX at/batch execution is unsupported on this non-Unix host: session, " ++
      "process-group, controlling-terminal, and umask semantics cannot be guaranteed")
  else none

def Job.isRef (ref : String) (j : Job) : Bool := j.id == ref || j.name == ref

/-- `add` up to the point where it loads the store. -/
def newJob (id name : String) (kind : Kind) (spec : String) (now : Time) : Option Job :=
  let j : Job := ⟨id,name,kind,spec,false,false,true,now,0,0⟩
  match j.computeNext host now with
  | none => none
  | some next => some { j with nextRun := next }

def setEnabled (ref : String) (on : Bool) (jobs : List Job) : Option (List Job) :=
  if jobs.any (Job.isRef ref) then
    some (jobs.map fun j => if j.isRef ref then { j with enabled := on } else j)
  else none

def rm (ref : String) (jobs : List Job) : Option (List Job) :=
  if jobs.any (Job.isRef ref) then some (jobs.filter fun j => !j.isRef ref) else none

def run (ref : String) (fires : Job→Bool) (now : Time) : List Job→Option (List Job)
  | [] => none
  | j::rest =>
    if j.isRef ref then
      if fires j then some ({ j with lastRun := now }::rest) else none
    else (run ref fires now rest).map (j::·)

/-- The load of the host: no provider, a failure, or whether it is above `BatchLoadLimit`. -/
abbrev Load := Option (Except String Bool)

/-- Whether `tick` claims the job, or why it cannot tell. -/
def selectJob (load : Load) (now : Time) (j : Job) : Except String Bool :=
  if !j.enabled || j.nextRun == 0 || decide (now<j.nextRun) then .ok false
  else
    match validateJobPlatform host j with
    | some err => .error ("job " ++ j.id ++ ": " ++ err)
    | none =>
      if j.batchLoad then
        match load with
        | none =>
          .error ("job " ++ j.id ++ ": cannot read host load: host load provider is unavailable")
        | some (.error err) => .error ("job " ++ j.id ++ ": cannot read host load: " ++ err)
        | some (.ok high) => .ok !high
      else .ok true

def claimJob (now : Time) (j : Job) : Job :=
  if j.kind=.at then { j with lastRun := now,enabled := false }
  else
    match { j with lastRun := now }.computeNext host now with
    | some next => { j with lastRun := now,nextRun := next }
    | none => { j with lastRun := now }

/-- The jobs after a tick, those that it fires and its complaints. -/
def tickJobs (load : Load) (now : Time) : List Job→List Job×List Job×List String
  | [] => ([],[],[])
  | j::rest =>
    let (jobs,due,errs) := tickJobs load now rest
    match selectJob host load now j with
    | .ok true => (claimJob host now j::jobs,j::due,errs)
    | .ok false => (j::jobs,due,errs)
    | .error e => (j::jobs,due,e::errs)

inductive Command where
  | add (id name : String) (kind : Kind) (spec : String) (now : Time)
  | rm (ref : String)
  | setEnabled (ref : String) (on : Bool)
  | run (ref : String) (fires : Job→Bool) (now : Time)
  | tick (load : Load) (now : Time)
  | submit (update : List Job→Option (List Job))

/-- The jobs that the command saves, if it gets that far. -/
def Command.updateJobs : Command→List Job→Option (List Job)
  | .add id name kind spec now,jobs =>
    match newJob host id name kind spec now with
    | none => none
    | some j => some (jobs++[j])
  | .rm ref,jobs => ScheduleStore.rm ref jobs
  | .setEnabled ref on,jobs => ScheduleStore.setEnabled ref on jobs
  | .run ref fires now,jobs => ScheduleStore.run ref fires now jobs
  | .tick load now,jobs => some (tickJobs host load now jobs).1
  | .submit update,jobs => update jobs

def Command.locked : Command→Bool
  | .tick _ _ | .submit _ => true
  | _ => false

/-- The one-shot jobs that a command claims when it has loaded these jobs. -/
def Command.claimedAt : Command→List Job→List String
  | .tick load now,jobs =>
    ((tickJobs host load now jobs).2.1.filter fun j => j.kind=.at).map Job.id
  | _,_ => []

variable {n : ℕ} (commands : Fin n → Command)

def system : System (Fin n) Store where
  locked p := (commands p).locked
  tx p store := ((commands p).updateJobs host store.jobs).map fun jobs =>
    { store with jobs := jobs }

def Finished (s : State (Fin n) Store) : Prop := ∀p,∃snap,s.locals p=.done snap

variable {host commands} {store₀ : Store} {s : State (Fin n) Store} {order : List (Fin n)}
  {f : Job→Job} {fires : Job→Bool} {id name : String} {jobs : List Job} {c : Command}
  {store : Store}

theorem finished_perm (h : Serialised (system host commands) store₀ s order)
    (hdone : Finished s) : order.Perm (finRange n) := by
  refine (perm_ext_iff_of_nodup h.nodup (nodup_finRange n)).mpr fun p => ?_
  obtain ⟨snap,hp⟩ := hdone p
  have hmem : p∈order := (h.mem p).mpr ⟨snap,by simp [Committed,hp]⟩
  simp [hmem]

def HasJob (id name : String) (jobs : List Job) : Prop :=
  ∃j∈jobs,j.id=id ∧ j.name=name

def Command.Accepts (host : Host) (id name : String) (c : Command) : Prop :=
  ∀jobs,∃jobs',c.updateJobs host jobs=some jobs' ∧ HasJob id name jobs'

def Command.Keeps (id name : String) : Command→Prop
  | .rm ref => ref≠id ∧ ref≠name
  | .submit update => ∀jobs jobs',update jobs=some jobs'→HasJob id name jobs→
      HasJob id name jobs'
  | _ => True

theorem HasJob.map (hf : ∀j,(f j).id=j.id ∧ (f j).name=j.name) (h : HasJob id name jobs) :
    HasJob id name (jobs.map f) := by
  obtain ⟨j,hj,hid,hname⟩ := h
  exact ⟨f j,mem_map_of_mem hj,(hf j).1.trans hid,(hf j).2.trans hname⟩

theorem hasJob_cons : HasJob id name (j::jobs) ↔ (j.id=id ∧ j.name=name) ∨ HasJob id name jobs := by
  simp [HasJob]

@[simp] theorem claimJob_id (now : Time) (j : Job) : (claimJob host now j).id=j.id := by
  rw [claimJob]
  split
  · rfl
  · split <;> rfl

@[simp] theorem claimJob_name (now : Time) (j : Job) : (claimJob host now j).name=j.name := by
  rw [claimJob]
  split
  · rfl
  · split <;> rfl

@[simp] theorem claimJob_kind (now : Time) (j : Job) : (claimJob host now j).kind=j.kind := by
  rw [claimJob]
  split
  · rfl
  · split <;> rfl

/-- A tick changes the jobs that it selects. -/
theorem tickJobs_jobs (load : Load) (now : Time) (jobs : List Job) :
    (tickJobs host load now jobs).1=jobs.map fun j => match selectJob host load now j with
      | .ok true => claimJob host now j
      | _ => j := by
  induction jobs with
  | nil => rfl
  | cons j rest ih =>
    simp only [tickJobs,map_cons,←ih]
    cases selectJob host load now j with
    | error e => rfl
    | ok b => cases b <;> rfl

theorem tickJobs_due (load : Load) (now : Time) (jobs : List Job) :
    (tickJobs host load now jobs).2.1=jobs.filter fun j => match selectJob host load now j with
      | .ok b => b
      | .error _ => false := by
  induction jobs with
  | nil => rfl
  | cons j rest ih =>
    simp only [tickJobs,filter_cons,←ih]
    cases selectJob host load now j with
    | error e => rfl
    | ok b => cases b <;> rfl

theorem hasJob_run {ref : String} :
    ∀{jobs jobs' : List Job},run ref fires now jobs=some jobs'→HasJob id name jobs→
      HasJob id name jobs'
  | [],_,h,_ => by cases h
  | j::rest,jobs',h,hj => by
    rw [run] at h
    split at h
    · split at h
      · rw [←Option.some.inj h]
        rcases hasJob_cons.mp hj with hj | hj
        · exact hasJob_cons.mpr (.inl hj)
        · exact hasJob_cons.mpr (.inr hj)
      · cases h
    · obtain ⟨rest',hrest,rfl⟩ := Option.map_eq_some_iff.mp h
      rcases hasJob_cons.mp hj with hj | hj
      · exact hasJob_cons.mpr (.inl hj)
      · exact hasJob_cons.mpr (.inr (hasJob_run hrest hj))

theorem HasJob.updateJobs {jobs' : List Job}
    (hc : c.Keeps id name) (h : c.updateJobs host jobs=some jobs') (hj : HasJob id name jobs) :
    HasJob id name jobs' := by
  cases c with
  | add =>
    simp only [Command.updateJobs] at h
    split at h
    · cases h
    · rw [←Option.some.inj h]
      obtain ⟨j,hj,hjob⟩ := hj
      exact ⟨j,mem_append_left _ hj,hjob⟩
  | rm ref =>
    simp only [Command.updateJobs,ScheduleStore.rm] at h
    split at h
    · rw [←Option.some.inj h]
      obtain ⟨j,hj,rfl,rfl⟩ := hj
      refine ⟨j,mem_filter.mpr ⟨hj,?_⟩,rfl,rfl⟩
      simp [Job.isRef,Ne.symm hc.1,Ne.symm hc.2]
    · cases h
  | setEnabled ref on =>
    simp only [Command.updateJobs,ScheduleStore.setEnabled] at h
    split at h
    · rw [←Option.some.inj h]
      exact hj.map fun j => by split <;> exact ⟨rfl,rfl⟩
    · cases h
  | run ref fires now => exact hasJob_run h hj
  | tick load now =>
    rw [←Option.some.inj h,tickJobs_jobs]
    exact hj.map fun j => by split <;> simp
  | submit update => exact hc jobs jobs' h hj

theorem HasJob.serial (hc : ∀p∈order,(commands p).Keeps id name) (hj : HasJob id name store.jobs) :
    HasJob id name (serial (system host commands) order store).jobs := by
  induction order generalizing store with
  | nil => exact hj
  | cons p rest ih =>
    refine ih (fun q hq => hc q (mem_cons_of_mem _ hq)) ?_
    simp only [system]
    cases h : (commands p).updateJobs host store.jobs with
    | none => exact hj
    | some jobs' => exact hj.updateJobs (hc p (by simp)) h

/-- The jobs of the new list are old ones or have these identifiers, and a one-shot job is enabled
only if it was before or has one of them. -/
def Introduces (update : List Job→Option (List Job)) (ids : List String) : Prop :=
  ∀jobs jobs',update jobs=some jobs'→
    (jobs'.map Job.id).Subperm (jobs.map Job.id++ids) ∧
    ∀j'∈jobs',j'.kind=.at→j'.enabled=true→
      j'.id∈ids ∨ ∃j∈jobs,j.id=j'.id ∧ j.kind=.at ∧ j.enabled=true

/-- The identifiers that a command brings in; those of a submission are given. -/
def Command.newIds (submitted : List String) : Command→List String
  | .add id _ _ _ _ => [id]
  | .submit _ => submitted
  | _ => []

/-- A change of each job that leaves its identifier and its kind, and enables none. -/
theorem introduces_map (hf : ∀j,(f j).id=j.id ∧ (f j).kind=j.kind ∧
      ((f j).kind=.at→(f j).enabled=true→j.enabled=true)) :
    ((jobs.map f).map Job.id).Subperm (jobs.map Job.id++[]) ∧
    ∀j'∈jobs.map f,j'.kind=.at→j'.enabled=true→
      j'.id∈[] ∨ ∃j∈jobs,j.id=j'.id ∧ j.kind=.at ∧ j.enabled=true := by
  constructor
  · have : (jobs.map f).map Job.id=jobs.map Job.id := by
      rw [map_map]
      exact map_congr_left fun j _ => (hf j).1
    rw [this,append_nil]
  · intro j' hj' hk he
    obtain ⟨j,hj,rfl⟩ := mem_map.mp hj'
    exact .inr ⟨j,hj,(hf j).1.symm,(hf j).2.1 ▸ hk,(hf j).2.2 hk he⟩

theorem run_eq_map {ref : String} : ∀{jobs jobs' : List Job},run ref fires now jobs=some jobs'→
      jobs'.map Job.id=jobs.map Job.id ∧ ∀j'∈jobs',∃j∈jobs,j.id=j'.id ∧
        j.kind=j'.kind ∧ j.enabled=j'.enabled
  | [],_,h => by cases h
  | j::rest,jobs',h => by
    rw [run] at h
    split at h
    · split at h
      · rw [←Option.some.inj h]
        exact ⟨rfl,forall_mem_cons.mpr ⟨⟨j,by simp,rfl,rfl,rfl⟩,
          fun j' hj' => ⟨j',mem_cons_of_mem _ hj',rfl,rfl,rfl⟩⟩⟩
      · cases h
    · obtain ⟨rest',hrest,rfl⟩ := Option.map_eq_some_iff.mp h
      obtain ⟨hids,hjobs⟩ := run_eq_map hrest
      refine ⟨by simp [hids],forall_mem_cons.mpr ⟨⟨j,by simp,rfl,rfl,rfl⟩,fun j' hj' => ?_⟩⟩
      obtain ⟨j,hj,hsame⟩ := hjobs j' hj'
      exact ⟨j,mem_cons_of_mem _ hj,hsame⟩

/-- A command other than `enable` brings in its new identifiers only. -/
theorem introduces_updateJobs {submitted : List String} (henable : ∀ref,c≠.setEnabled ref true)
    (hsubmit : ∀update,c=.submit update→Introduces update submitted) :
    Introduces (c.updateJobs host) (c.newIds submitted) := by
  intro jobs jobs' h
  cases c with
  | add id name kind spec now =>
    simp only [Command.updateJobs,newJob] at h
    split at h
    · cases h
    rename_i j hj
    split at hj
    · cases hj
    rw [←Option.some.inj h,←Option.some.inj hj]
    refine ⟨by simpa [Command.newIds] using List.Subperm.refl _,fun j' hj' hk he => ?_⟩
    rcases mem_append.mp hj' with hj' | hj'
    · exact .inr ⟨j',hj',rfl,hk,he⟩
    · rw [mem_singleton.mp hj']
      exact .inl (by simp [Command.newIds])
  | rm ref =>
    simp only [Command.updateJobs,ScheduleStore.rm] at h
    split at h
    · rw [←Option.some.inj h]
      refine ⟨?_,fun j' hj' hk he => .inr ⟨j',mem_of_mem_filter hj',rfl,hk,he⟩⟩
      simpa [Command.newIds] using (filter_sublist.map Job.id).subperm
    · cases h
  | setEnabled ref on =>
    cases on with
    | true => exact absurd rfl (henable ref)
    | false =>
      simp only [Command.updateJobs,ScheduleStore.setEnabled] at h
      split at h
      · rw [←Option.some.inj h]
        exact introduces_map fun j => by split <;> simp
      · cases h
  | run ref fires now =>
    obtain ⟨hids,hjobs⟩ := run_eq_map h
    refine ⟨by simpa [Command.newIds,hids] using List.Subperm.refl _,fun j' hj' hk he => ?_⟩
    obtain ⟨j,hj,hid,hkind,hen⟩ := hjobs j' hj'
    exact .inr ⟨j,hj,hid,hkind.trans hk,hen.trans he⟩
  | tick load now =>
    rw [←Option.some.inj h,tickJobs_jobs]
    refine introduces_map fun j => ?_
    split
    · refine ⟨claimJob_id now j,claimJob_kind now j,fun hk he => ?_⟩
      rw [claimJob_kind] at hk
      simp [claimJob,hk] at he
    · exact ⟨rfl,rfl,fun _ he => he⟩
  | submit update => exact hsubmit update rfl jobs jobs' h

def Spent (id : String) (jobs : List Job) : Prop :=
  ∀j∈jobs,j.id=id→j.kind=.at→j.enabled=false

section Ids
variable {new : Fin n→List String}
  (hnew : ∀p,Introduces ((commands p).updateJobs host) (new p))
include hnew

theorem ids_serial (order : List (Fin n)) (store : Store) :
    ((serial (system host commands) order store).jobs.map Job.id).Subperm
      (store.jobs.map Job.id++order.flatMap new) := by
  induction order generalizing store with
  | nil => simpa [serial] using List.Subperm.refl _
  | cons p rest ih =>
    refine (ih _).trans ?_
    rw [flatMap_cons,←append_assoc]
    refine (subperm_append_right _).mpr ?_
    simp only [system]
    cases h : (commands p).updateJobs host store.jobs with
    | none => exact (sublist_append_left _ _).subperm
    | some jobs' => exact (hnew p _ _ h).1

theorem spent_serial {id : String} {order : List (Fin n)}
    (hid : id∉order.flatMap new) (h : Spent id store.jobs) :
    Spent id (serial (system host commands) order store).jobs := by
  induction order generalizing store with
  | nil => exact h
  | cons p rest ih =>
    rw [flatMap_cons,mem_append,not_or] at hid
    refine ih hid.2 ?_
    simp only [system]
    cases hu : (commands p).updateJobs host store.jobs with
    | none => exact h
    | some jobs' =>
      intro j' hj' hid' hk
      by_contra he
      rcases (hnew p _ _ hu).2 j' hj' hk (by simpa using he) with hmem | ⟨j,hj,hji,hjk,hje⟩
      · exact hid.1 (hid' ▸ hmem)
      · rw [h j hj (hji.trans hid') hjk] at hje
        cases hje

end Ids

theorem mem_claimedAt (h : id∈c.claimedAt host jobs) :
    ∃load now,c=.tick load now ∧ ∃j∈jobs,j.id=id ∧ j.kind=.at ∧
      selectJob host load now j=.ok true := by
  cases c with
  | tick load now =>
    obtain ⟨j,hj,rfl⟩ := mem_map.mp h
    rw [tickJobs_due,mem_filter,mem_filter,decide_eq_true_eq] at hj
    refine ⟨load,now,rfl,j,hj.1.1,rfl,hj.2,?_⟩
    have hsel := hj.1.2
    cases hs : selectJob host load now j with
    | error e => simp [hs] at hsel
    | ok b => simpa [hs] using hsel
  | _ => cases h

theorem enabled_of_select {load : Load}
    (h : selectJob host load now j=.ok true) : j.enabled=true := by
  cases he : j.enabled with
  | true => rfl
  | false => simp [selectJob,he] at h

/-- Once a tick has claimed a one-shot job, none with its identifier is enabled. -/
theorem spent_of_claimedAt {p : Fin n} (hnodup : (store.jobs.map Job.id).Nodup)
    (h : id∈(commands p).claimedAt host store.jobs) :
    Spent id (serial (system host commands) [p] store).jobs := by
  obtain ⟨load,now,hc,j,hj,rfl,hk,hsel⟩ := mem_claimedAt h
  have hjobs : (serial (system host commands) [p] store).jobs =
      (tickJobs host load now store.jobs).1 := by
    simp [serial,system,hc,Command.updateJobs]
  rw [hjobs,tickJobs_jobs]
  intro j' hj' hid hk'
  obtain ⟨i,hi,rfl⟩ := mem_map.mp hj'
  have hij : i=j := by
    refine inj_on_of_nodup_map hnodup hi hj (Eq.trans ?_ hid)
    split <;> simp
  subst hij
  simp [hsel,claimJob,hk]

/-- With different identifiers, no tick claims a one-shot job that one before it has claimed. -/
theorem claimed_once {a b c : List (Fin n)} {p q : Fin n} {new : Fin n→List String}
    (hnew : ∀p,Introduces ((commands p).updateJobs host) (new p)) (horder : order=a++p::b++q::c)
    (hids : (store₀.jobs.map Job.id++order.flatMap new).Nodup)
    (hp : id∈(commands p).claimedAt host (serial (system host commands) a store₀).jobs) :
    id∉(commands q).claimedAt host (serial (system host commands) (a++p::b) store₀).jobs := by
  intro hq
  subst horder
  have ha := ids_serial hnew a store₀
  have hsplit : (store₀.jobs.map Job.id++a.flatMap new ++
      (new p++b.flatMap new++(new q++c.flatMap new))).Nodup := by
    simpa using hids
  obtain ⟨hnd,-,hdisj⟩ := nodup_append.mp hsplit
  have hmem : id∈store₀.jobs.map Job.id++a.flatMap new := by
    obtain ⟨_,_,_,j,hj,rfl,-⟩ := mem_claimedAt hp
    exact ha.subset (mem_map_of_mem hj)
  have hb : id∉b.flatMap new := fun hb =>
    hdisj id hmem id (mem_append_left _ (mem_append_right _ hb)) rfl
  have hspent : Spent id (serial (system host commands) (a++p::b) store₀).jobs := by
    rw [show a++p::b=a++([p]++b) from rfl,serial_append,serial_append]
    obtain ⟨l,perm,sub⟩ := ha
    exact spent_serial hnew hb (spent_of_claimedAt (perm.nodup (hnd.sublist sub)) hp)
  obtain ⟨_,_,_,j,hj,hid,hk,hsel⟩ := mem_claimedAt hq
  have he := enabled_of_select hsel
  rw [hspent j hj hid hk] at he
  cases he

/-- A job that is there or brought in is there at the end, if no process removes it. -/
theorem hasJob_of_serialised
    (h : Serialised (system host commands) store₀ s order) (hdone : Finished s)
    (hjob : HasJob id name store₀.jobs ∨ ∃p,(commands p).Accepts host id name)
    (hkeep : ∀p,(commands p).Keeps id name) : HasJob id name s.store.jobs := by
  rw [h.store]
  rcases hjob with hjob | ⟨p,hp⟩
  · exact hjob.serial fun q _ => hkeep q
  obtain ⟨a,b,hab⟩ : ∃a b,order=a++p::b :=
    append_of_mem ((finished_perm h hdone).mem_iff.mpr (mem_finRange p))
  rw [hab,show a++p::b=a++([p]++b) from rfl,serial_append,serial_append]
  refine HasJob.serial (fun q _ => hkeep q) ?_
  generalize serial (system host commands) a store₀=st
  obtain ⟨jobs',hu,hjob⟩ := hp st.jobs
  simpa [serial,system,hu] using hjob

end

/-- If every save finds the store as its process has loaded it, then the store is that of the
commands one after another in some order, in which each has read what it has read in the run. No job
that is accepted and not removed is missing, and if the identifiers differ and nothing enables a
one-shot job again, no two ticks claim the same one. -/
theorem schedule_serialisable (host : Host) {n : ℕ} (commands : Fin n → Command) (store₀ : Store)
    (s : State (Fin n) Store)
    (hrun : Relation.ReflTransGen (FreshStep (system host commands)) (initial store₀) s)
    (hdone : Finished s) : (∃order : List (Fin n),order.Perm (finRange n) ∧
      s.store=serial (system host commands) order store₀ ∧
      ∀p snap,s.locals p=.done snap→∃pre post,order=pre++p::post ∧
        snap=serial (system host commands) pre store₀) ∧
    (∀id name,(HasJob id name store₀.jobs ∨ ∃p,(commands p).Accepts host id name)→
      (∀p,(commands p).Keeps id name)→HasJob id name s.store.jobs) ∧
    (∀submitted : Fin n→List String,(∀p ref,commands p≠.setEnabled ref true)→
      (∀p update,commands p=.submit update→Introduces update (submitted p))→
      (store₀.jobs.map Job.id ++
        (finRange n).flatMap fun p => (commands p).newIds (submitted p)).Nodup→
      ∀p q,p≠q→∀sp sq,s.locals p=.done sp→s.locals q=.done sq→
        ∀id∈(commands p).claimedAt host sp.jobs,id∉(commands q).claimedAt host sq.jobs) := by
  obtain ⟨order,h⟩ := exists_serialised hrun
  have hcom : ∀{p snap},s.locals p=.done snap → Committed (system host commands) s p snap :=
    fun hp => by simp [Committed,hp]
  refine ⟨⟨order,finished_perm h hdone,h.store,fun p snap hp => h.reads p snap (hcom hp)⟩,
    fun id name => hasJob_of_serialised h hdone,?_⟩
  intro submitted henable hsubmit hids p q hne sp sq hp hq id hidp hidq
  have hnew : ∀p,Introduces ((commands p).updateJobs host) ((commands p).newIds (submitted p)) :=
    fun p => introduces_updateJobs (henable p) (hsubmit p)
  have hids' : (store₀.jobs.map Job.id ++
      order.flatMap fun p => (commands p).newIds (submitted p)).Nodup :=
    (((finished_perm h hdone).flatMap_right _).append_left _).nodup_iff.mpr hids
  -- the order of the two ticks decides which of them came too late
  rcases h.ordered (hcom hp) (hcom hq) hne with ⟨a,b,c,hab,rfl,rfl⟩ | ⟨a,b,c,hab,rfl,rfl⟩
  · exact claimed_once hnew hab hids' hidp hidq
  · exact claimed_once hnew hab hids' hidq hidp

/-- If only `tick` and submissions are at work, that is so in every run: they hold the lock. -/
theorem fresh_of_all_locked (host : Host) {n : ℕ} {commands : Fin n → Command} {store₀ : Store}
    {s : State (Fin n) Store} (hlocked : ∀p,(commands p).locked=true)
    (hrun : Relation.ReflTransGen (Step (system host commands)) (initial store₀) s) :
    Relation.ReflTransGen (FreshStep (system host commands)) (initial store₀) s :=
  fresh_of_locked hlocked hrun

def plainHost : Host := ⟨fun _ _ => none,fun _ => some 1,fun _ => none,fun _ _ => none,true⟩

def oneShot : Store := ⟨[⟨"a","",.at,"",false,false,true,1,0,3⟩],[],false⟩

def twoTicks : Fin 2 → Command := ![.tick none 5,.tick none 6]

theorem twoTicks_run :
    ∃s,Relation.ReflTransGen (Step (system plainHost twoTicks)) (initial oneShot) s ∧
      Finished s := by
  have h₁ := Relation.ReflTransGen.refl.tail
    (Step.acquire 0 rfl rfl rfl : Step (system plainHost twoTicks) (initial oneShot) _)
  have h₂ := h₁.tail (Step.load 0 rfl)
  have h₃ := h₂.tail (Step.save 0 rfl rfl)
  have h₄ := h₃.tail (Step.finish 0 rfl)
  have h₅ := h₄.tail (Step.acquire 1 rfl rfl rfl)
  have h₆ := h₅.tail (Step.load 1 rfl)
  have h₇ := h₆.tail (Step.save 1 rfl rfl)
  have h₈ := h₇.tail (Step.finish 1 rfl)
  refine ⟨_,h₈,fun p => ?_⟩
  match p with
  | 0 | 1 => exact ⟨_,rfl⟩

theorem schedule_serialisable_two_ticks :
    ∃s : State (Fin 2) Store,Finished s ∧ ∃order,order.Perm (finRange 2) ∧
      s.store=serial (system plainHost twoTicks) order oneShot := by
  obtain ⟨s,hrun,hdone⟩ := twoTicks_run
  have hlocked : ∀p,(twoTicks p).locked=true := by decide
  obtain ⟨order,hperm,hstore,-⟩ :=
    (schedule_serialisable _ _ _ _ (fresh_of_all_locked _ hlocked hrun) hdone).1
  exact ⟨s,hdone,order,hperm,hstore⟩

def twoAdds : Fin 2 → Command := ![.add "a" "" .every "" 5,.add "b" "" .every "" 5]

theorem length_serial_twoAdds (order : List (Fin 2)) (store : Store) :
    (serial (system plainHost twoAdds) order store).jobs.length =
      store.jobs.length+order.length := by
  induction order generalizing store with
  | nil => rfl
  | cons p rest ih =>
    refine (ih _).trans ?_
    match p with
    | 0 | 1 => simp [system,twoAdds,Command.updateJobs,newJob,Job.computeNext,plainHost]; omega

/-- Two `add`s that both load before either saves leave one job. -/
theorem not_schedule_serialisable :
    ∃s,Relation.ReflTransGen (Step (system plainHost twoAdds)) (initial ⟨[],[],false⟩) s ∧
      Finished s ∧ ¬ ∃order : List (Fin 2),order.Perm (finRange 2) ∧
        s.store=serial (system plainHost twoAdds) order ⟨[],[],false⟩ := by
  have h₁ := Relation.ReflTransGen.refl.tail
    (Step.load 0 rfl : Step (system plainHost twoAdds) (initial ⟨[],[],false⟩) _)
  have h₂ := h₁.tail (Step.load 1 rfl)
  have h₃ := h₂.tail (Step.save 0 rfl rfl)
  have h₄ := h₃.tail (Step.save 1 rfl rfl)
  have h₅ := h₄.tail (Step.finish 0 rfl)
  have h₆ := h₅.tail (Step.finish 1 rfl)
  refine ⟨_,h₆,?_,?_⟩
  · intro p
    match p with
    | 0 | 1 => exact ⟨_,rfl⟩
  · rintro ⟨order,hperm,hstore⟩
    have hlen := length_serial_twoAdds order ⟨[],[],false⟩
    rw [←hstore,hperm.length_eq] at hlen
    exact absurd hlen (by decide)

section
variable (host : Host)

/-- When the ticks claim the job at `p` of the store. -/
def claimTimes (p : ℕ) : List (Load×Time)→List Job→List Time
  | [],_ => []
  | (load,now)::ticks,jobs =>
    let rest := claimTimes p ticks (tickJobs host load now jobs).1
    match jobs[p]?.map (selectJob host load now) with
    | some (.ok true) => now::rest
    | _ => rest

theorem le_advance {d now : Int} (hd : 0<d) (fuel : ℕ) (n : Time) : n≤advance d now fuel n := by
  induction fuel generalizing n with
  | zero => exact le_rfl
  | succ fuel ih =>
    rw [advance]
    split
    · exact le_rfl
    · exact (Int.le_add_of_nonneg_right hd.le).trans (ih _)

variable {host} {j : Job} {now : Time}

theorem nextRun_of_select {load : Load} (h : selectJob host load now j=.ok true) :
    j.nextRun≤now := by
  by_contra hlt
  simp [selectJob,lt_of_not_ge hlt] at h

theorem claimJob_every {d : Int} (hk : j.kind=.every) (hs : host.parseDuration j.spec=some d)
    (hd : 0<d) (hnow : now≠0) : ∃n,now+d≤n ∧
      claimJob host now j={ j with lastRun := now,nextRun := n } := by
  refine ⟨_,@le_advance d now hd (now+1-(now+d)).toNat _,?_⟩
  simp [claimJob,Job.computeNext,hk,hs,hnow,hd.not_ge]

/-- A job for every `d` is not claimed before it is due, and never twice within `d`, in whatever
order the ticks read the clock. Zero is no time at all. -/
theorem claimTimes_apart {p : ℕ} {d : Int} (hd : 0<d) {ticks : List (Load×Time)}
    (ht : ∀x∈ticks,x.2≠0) {jobs : List Job} (hp : jobs[p]?=some j) (hk : j.kind=.every)
    (hs : host.parseDuration j.spec=some d) :
    (claimTimes host p ticks jobs).Pairwise (fun t t' => t+d≤t') ∧
      ∀t∈claimTimes host p ticks jobs,j.nextRun≤t := by
  induction ticks generalizing j jobs with
  | nil => simp [claimTimes]
  | cons x ticks ih =>
    obtain ⟨load,now⟩ := x
    obtain ⟨hnow,ht⟩ := forall_mem_cons.mp ht
    have hnext := congrArg (·[p]?) (@tickJobs_jobs host load now jobs)
    simp only [getElem?_map,hp,Option.map_some] at hnext
    simp only [claimTimes,hp,Option.map_some]
    by_cases hsel : selectJob host load now j=.ok true
    · obtain ⟨n,hn,hclaim⟩ := claimJob_every hk hs hd hnow
      simp only [hsel,hclaim] at hnext ⊢
      obtain ⟨hpair,hle⟩ := ih ht hnext hk hs
      have hlate := fun t h => hn.trans (hle t h)
      have hdue := nextRun_of_select hsel
      refine ⟨pairwise_cons.mpr ⟨hlate,hpair⟩,forall_mem_cons.mpr ⟨hdue,fun t h => ?_⟩⟩
      exact hdue.trans ((Int.le_add_of_nonneg_right hd.le).trans (hlate t h))
    · split at hnext
      · contradiction
      · split
        · simp_all
        · exact ih ht hnext hk hs

theorem claimTimes_apart_again : (claimTimes plainHost 0 [(none,9),(none,9)]
      [⟨"a","",.every,"",false,false,true,1,0,5⟩]).Pairwise (fun t t' => t+1≤t') :=
  (claimTimes_apart (by decide) (by decide) rfl rfl rfl).1

end

end Coreutils.ScheduleStore
