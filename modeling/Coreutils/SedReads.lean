import Coreutils.SedEffects

/-!
# Reading through buffers of any sizes

The run of a program against a buffer without an end, and the reads that follow it. A read hands out
the next bytes of that run and leaves the machine where it goes on; so the bytes, the writes to
files and the error do not depend on the sizes of the buffers, if no full buffer cuts an instruction
short.
-/

namespace Coreutils.SedReads
open List GoText Programs SedVm SedBuffers SedEffects

def Primed (v : Vm) : Prop := 0≤v.lineno

theorem frame_primed : Frame Primed where
  other := fun h hline _ _ _ => by
    unfold Primed
    rwa [hline]
  write := fun _ h => h

theorem preserves_fetch : Preserves Primed fetch := by
  refine preserves_get.bind fun v => preserves_modify_bind (fun w h => ?_) ?_
  · have : 0≤w.lineno := h
    change 0≤w.lineno+1
    omega
  · split
    · exact preserves_throw _
    · exact preserves_pure _

theorem preserves_cmdFillNext : Preserves Primed cmdFillNext := by
  refine Preserves.bind ?_ fun _ => ?_
  · refine preserves_get.bind fun v => ?_
    cases v.appl with
    | none => exact preserves_pure _
    | some text =>
      dsimp only [flushText]
      refine Preserves.withDefer (fun w h => ?_) fun _ _ h => h
      rw [run_emit]
      split <;> exact h
  · exact preserves_get.bind fun v => (preserves_throw _).ite preserves_fetch

theorem primed_exec (host : Host) (i : Instr) : Preserves Primed (exec host i) := by
  by_cases h : Instr.Special i
  · cases i with
    | fillNext => exact preserves_cmdFillNext
    | fillNextAppend =>
      exact preserves_get.bind fun _ => preserves_cmdFillNext.bind fun _ =>
        preserves_other frame_primed fun _ => ⟨rfl,rfl,rfl,rfl⟩
    | appender text =>
      exact (preserves_advance frame_primed).bind fun _ => preserves_modify fun _ h => h
    | reader filename =>
      refine (preserves_advance frame_primed).bind fun _ => preserves_get.bind fun v => ?_
      cases host.readFile v.writes filename with
      | some text => exact preserves_modify fun _ h => h
      | none => exact preserves_pure _
    | _ => exact absurd h id
  · exact preserves_exec frame_primed host h

section
variable (host : Host) (ins : List Instr)

/-- The run from a state against an endless buffer: its text, its error and file writes. -/
inductive Ends : Vm→Bytes→Err→List (Bytes×Bytes)→Prop
  | stop {v w : Vm} {i : Instr} {e : Err} : ins[v.ip]?=some i→
      exec host i (put {} v)=.error e w→Ends v w.out.sent e w.writes
  | step {v w : Vm} {i : Instr} {out : Bytes} {e : Err} {log : List (Bytes×Bytes)} :
      ins[v.ip]?=some i→exec host i (put {} v)=.ok () w→Ends w out e log→
      Ends v (w.out.sent++out) e log

/-- A state of the run, and whether the last text was written without a look at the room. -/
inductive Reaches (v : Vm) (loose : Prop) : Vm→Prop→Prop
  | refl : Reaches v loose v loose
  | step {w x : Vm} {l : Prop} {i : Instr} : Reaches v loose w l→ins[w.ip]?=some i→
      exec host i (put {} w)=.ok () x→Reaches v loose x (Careless i w ∨ l ∧ x.out.sent=[])

/-- A full buffer does not cut the instruction short, and no text is kept back when it fails. -/
structure Safe (i : Instr) (w : Vm) (loose : Prop) : Prop where
  whole : ¬ Interruptible i w
  tight : ∀text x,exec host i (put {} w)=.error (.failed text) x→¬ loose ∧ ¬ Careless i w

def Calm (v : Vm) (loose : Prop) : Prop :=
  ∀w l,Reaches host ins v loose w l→∀i,ins[w.ip]?=some i→Safe host i w l

def Leads (v : Vm) (out : Bytes) (v' : Vm) : Prop :=
  ∀all e log,Ends host ins v all e log ↔ ∃rest,all=out++rest ∧ Ends host ins v' rest e log

end

section
variable {host : Host} {ins : List Instr} {v v' w : Vm} {i : Instr} {loose : Prop}

variable {out : Bytes} {e : Err} {log : List (Bytes×Bytes)}

variable (o : Out)

theorem ends_put : Ends host ins (put o v) out e log ↔ Ends host ins v out e log := by
  constructor <;> intro h
  all_goals
    cases h with
    | stop hi hx => exact .stop hi hx
    | step hi hx hr => exact .step hi hx hr

theorem careless_put : Careless i (put o v)=Careless i v := by cases i <;> rfl

theorem interruptible_put : Interruptible i (put o v)=Interruptible i v := by cases i <;> rfl

theorem reaches_put {l : Prop} (h : Reaches host ins (put o v) loose w l) :
    w=put o v ∧ l=loose ∨ Reaches host ins v loose w l := by
  induction h with
  | refl => exact .inl ⟨rfl,rfl⟩
  | step hr hi hx ih =>
    right
    rcases ih with ⟨rfl,rfl⟩ | ih
    · rw [careless_put]
      exact Reaches.step .refl hi hx
    · exact .step ih hi hx

theorem safe_put (h : Safe host i v loose) : Safe host i (put o v) loose := by
  refine ⟨?_,fun text x hx => ?_⟩
  · rw [interruptible_put]
    exact h.whole
  · rw [careless_put]
    exact h.tight text x hx

theorem calm_put (h : Calm host ins v loose) : Calm host ins (put o v) loose := by
  intro w l hr i hi
  rcases reaches_put o hr with ⟨rfl,rfl⟩ | hr
  · exact safe_put o (h v l .refl i hi)
  · exact h w l hr i hi

theorem Reaches.trans {l l' : Prop} (h : Reaches host ins v loose w l)
    (h' : Reaches host ins w l v' l') : Reaches host ins v loose v' l' := by
  induction h' with
  | refl => exact h
  | step _ hi hx ih => exact .step ih hi hx

theorem Calm.step (h : Calm host ins v loose) (hi : ins[v.ip]?=some i)
    (hx : exec host i (put {} v)=.ok () w) :
    Calm host ins w (Careless i v ∨ loose ∧ w.out.sent=[]) := by
  intro x l hr
  exact h x l ((Reaches.step .refl hi hx).trans hr)

theorem leads_refl (v : Vm) : Leads host ins v [] v := by
  intro all e log
  simp

theorem leads_put (v : Vm) : Leads host ins v [] (put o v) := by
  intro all e log
  simp [ends_put]

theorem Leads.trans {out' : Bytes} (h : Leads host ins v out w)
    (h' : Leads host ins w out' v') : Leads host ins v (out++out') v' := by
  intro all e log
  rw [h all e log]
  constructor
  · rintro ⟨rest,rfl,hr⟩
    obtain ⟨rest',rfl,hr'⟩ := (h' rest e log).mp hr
    exact ⟨rest',by rw [append_assoc],hr'⟩
  · rintro ⟨rest,rfl,hr⟩
    exact ⟨out'++rest,by rw [append_assoc],(h' _ e log).mpr ⟨rest,rfl,hr⟩⟩

theorem Leads.put (h : Leads host ins v out w) : Leads host ins v out (put o w) := by
  simpa using h.trans (leads_put o w)

theorem leads_step (hi : ins[v.ip]?=some i) (hx : exec host i (put {} v)=.ok () w) :
    Leads host ins v w.out.sent w := by
  intro all e log
  constructor
  · intro h
    cases h with
    | stop hj hy =>
      cases hi.symm.trans hj
      cases hx.symm.trans hy
    | step hj hy hr =>
      cases hi.symm.trans hj
      cases hx.symm.trans hy
      exact ⟨_,rfl,hr⟩
  · rintro ⟨rest,rfl,hr⟩
    exact .step hi hx hr

theorem ends_stop_iff (hi : ins[v.ip]?=some i)
    (hx : exec host i (put {} v)=.error e w) {all : Bytes} {e' : Err} :
    Ends host ins v all e' log ↔ all=w.out.sent ∧ e'=e ∧ log=w.writes := by
  constructor
  · intro h
    cases h with
    | stop hj hy =>
      cases hi.symm.trans hj
      cases hx.symm.trans hy
      exact ⟨rfl,rfl,rfl⟩
    | step hj hy hr =>
      cases hi.symm.trans hj
      cases hx.symm.trans hy
  · rintro ⟨rfl,rfl,rfl⟩
    exact .stop hi hx

theorem Ends.unique {out' : Bytes} {e' : Err} {log' : List (Bytes×Bytes)}
    (h : Ends host ins v out e log) (h' : Ends host ins v out' e' log') :
    out=out' ∧ e=e' ∧ log=log' := by
  induction h generalizing out' with
  | stop hi hx =>
    obtain ⟨rfl,rfl,rfl⟩ := (ends_stop_iff hi hx).mp h'
    exact ⟨rfl,rfl,rfl⟩
  | step hi hx _ ih =>
    obtain ⟨rest,rfl,hr⟩ := (leads_step hi hx _ _ _).mp h'
    obtain ⟨rfl,rfl,rfl⟩ := ih hr
    exact ⟨rfl,rfl,rfl⟩

theorem calm_intro (h : ∀i,ins[v.ip]?=some i→Safe host i v loose ∧
      ∀w,exec host i (put {} v)=.ok () w→
        Calm host ins w (Careless i v ∨ loose ∧ w.out.sent=[])) : Calm host ins v loose := by
  have key : ∀x l,Reaches host ins v loose x l→x=v ∧ l=loose ∨ ∃i w,ins[v.ip]?=some i ∧
      exec host i (put {} v)=.ok () w ∧
      Reaches host ins w (Careless i v ∨ loose ∧ w.out.sent=[]) x l := by
    intro x l hr
    induction hr with
    | refl => exact .inl ⟨rfl,rfl⟩
    | step _ hi hx ih =>
      right
      rcases ih with ⟨rfl,rfl⟩ | ⟨j,y,hj,hy,hr⟩
      · exact ⟨_,_,hi,hx,.refl⟩
      · exact ⟨j,y,hj,hy,hr.step hi hx⟩
  intro x l hr i hi
  rcases key x l hr with ⟨rfl,rfl⟩ | ⟨j,y,hj,hy,hr⟩
  · exact (h i hi).1
  · exact (h j hj).2 y hy x l hr i hi

variable {k : Sed Unit} {text : Bytes}

theorem exec_unqueued (host : Host) (h : filling v.pat i=some k) (hv : v.appl=none) (o : Out) :
    exec host i (put o v)=mapState (put o) (k v) := by
  rw [exec_filling host (v := put o v) h,run_bind_ok (run_flush_none (v := put o v) hv)]
  exact (silent_filling h).blind o v

theorem exec_queued (host : Host) (h : filling v.pat i=some k) (hv : v.appl=some text) :
    exec host i (put {} v)=mapState (put { sent := text }) (k (emptied text v)) := by
  rw [exec_flushed host h hv,exec_unqueued host (v := (emptied text v)) h rfl]
  cases k (emptied text v) <;> rfl

variable {pat : Bytes}

theorem not_careless_of_filling (h : filling pat i=some k) : ¬ Careless i v := by
  cases i <;> first | exact id | cases h

theorem not_interruptible_of_filling (h : filling pat i=some k) : ¬ Interruptible i v := by
  cases i <;> first | exact id | cases h

/-- The run goes on from the state in which the queued text is out. -/
theorem leads_flush (host : Host) (hi : ins[v.ip]?=some i) (h : filling v.pat i=some k)
    (hv : v.appl=some text) : Leads host ins v text (emptied text v) := by
  have hq := exec_queued host h hv
  have hu := exec_unqueued host (v := (emptied text v)) h rfl {}
  intro all e log
  cases hk : k (emptied text v) with
  | ok a w =>
    rw [hk] at hq hu
    rw [leads_step hi hq all e log]
    refine exists_congr fun rest => and_congr_right fun _ => ?_
    rw [leads_step (v := (emptied text v)) hi hu rest e log]
    simp [ends_put]
  | error e' w =>
    rw [hk] at hq hu
    rw [ends_stop_iff hi hq]
    simp only [ends_stop_iff (v := (emptied text v)) hi hu]
    simp

theorem calm_flush (hi : ins[v.ip]?=some i) (h : filling v.pat i=some k)
    (hv : v.appl=some text) (htext : text≠[]) (hcalm : Calm host ins v loose) :
    Calm host ins (emptied text v) False := by
  refine calm_intro fun j hj => ?_
  cases hi.symm.trans hj
  have hq := exec_queued host h hv
  have hu := exec_unqueued host (v := (emptied text v)) h rfl {}
  refine ⟨⟨not_interruptible_of_filling h,fun _ _ _ => ⟨id,not_careless_of_filling h⟩⟩,?_⟩
  intro w hw
  cases hk : k (emptied text v) with
  | ok a x =>
    rw [hk] at hq hu
    cases hu.symm.trans hw
    have hx := hcalm.step hi hq
    simp only [not_careless_of_filling h,htext,and_false,false_and] at hx ⊢
    exact calm_put (v := put { sent := text } x) {} hx
  | error e x =>
    rw [hk] at hu
    cases hu.symm.trans hw

theorem refill_eof (h : refill v=.error .eof w) : w=v ∧ v.lastl=true := by
  change (if v.lastl then throw Err.eof else fetch : Sed Unit) v=_ at h
  split_ifs at h with hl
  · cases h
    exact ⟨rfl,hl⟩
  · exact absurd rfl (throws_fetch _ _ _ h)

theorem filling_eof (h : filling pat i=some k) : k v=.error .eof w ↔ w=v ∧ v.lastl=true := by
  have hrefill : v.lastl=true → refill v=.error .eof v := by
    intro hl
    change (if v.lastl then throw Err.eof else fetch : Sed Unit) v=_
    rw [if_pos hl]
    rfl
  cases i with
  | fillNext =>
    cases h
    exact ⟨refill_eof,fun ⟨hw,hl⟩ => hw ▸ hrefill hl⟩
  | fillNextAppend =>
    cases h
    constructor
    · intro hk
      rcases bind_error.mp hk with hk | ⟨_,_,_,hk⟩
      · exact refill_eof hk
      · cases hk
    · rintro ⟨rfl,hl⟩
      exact run_bind_error (hrefill hl)
  | _ => cases h

/-- Where a run ended as at the end of the file, it ends so again, and writes nothing more. -/
theorem exec_eof_again (hx : exec host i (put {} v)=.error .eof w) :
    w.ip=v.ip ∧ ¬ Interruptible i w ∧
      ∃w',exec host i (put {} w)=.error .eof w' ∧ w'.out.sent=[] ∧ w'.writes=w.writes := by
  have hfill : ∀k,filling v.pat i=some k→w.ip=v.ip ∧ w.pat=v.pat ∧ w.appl=none ∧
      w.lastl=true := by
    intro k hk
    have hend : ∀{x o},mapState (put o) (k x)=.error .eof w→w=put o x ∧ x.lastl=true := by
      intro x o hx
      cases hr : k x with
      | ok a y =>
        rw [hr] at hx
        cases hx
      | error e y =>
        rw [hr] at hx
        cases hx
        obtain ⟨rfl,hl⟩ := (filling_eof hk).mp hr
        exact ⟨rfl,hl⟩
    cases hv : v.appl with
    | none =>
      rw [exec_unqueued host hk hv] at hx
      obtain ⟨rfl,hl⟩ := hend hx
      exact ⟨rfl,rfl,hv,hl⟩
    | some text =>
      rw [exec_queued host hk hv] at hx
      obtain ⟨rfl,hl⟩ := hend hx
      exact ⟨rfl,rfl,rfl,hl⟩
  have hagain : ∀k,filling v.pat i=some k→w.ip=v.ip ∧ ¬ Interruptible i w ∧
      ∃w',exec host i (put {} w)=.error .eof w' ∧ w'.out.sent=[] ∧ w'.writes=w.writes := by
    intro k hk
    obtain ⟨hip,hpat,happl,hl⟩ := hfill k hk
    have hk' : filling w.pat i=some k := hpat ▸ hk
    refine ⟨hip,not_interruptible_of_filling hk,put {} w,?_,rfl,rfl⟩
    rw [exec_unqueued host hk' happl,(filling_eof hk').mpr ⟨rfl,hl⟩]
    rfl
  cases i with
  | quit =>
    cases hx
    exact ⟨rfl,id,_,rfl,rfl,rfl⟩
  | fillNext | fillNextAppend => exact hagain _ rfl
  | _ => exact absurd rfl (throws_exec host id _ _ _ hx)

theorem calm_eof (loose : Prop) (hi : ins[v.ip]?=some i) (hx : exec host i (put {} v)=.error .eof w)
    (hw : ¬ Interruptible i v) : Calm host ins v loose := by
  refine calm_intro fun j hj => ?_
  cases hi.symm.trans hj
  refine ⟨⟨hw,fun text x hf => ?_⟩,fun x hf => ?_⟩
  · cases hx.symm.trans hf
  · cases hx.symm.trans hf

end

section
variable {host : Host} {ins : List Instr} {v v' : Vm} {loose : Prop} {size fuel : ℕ}

/-- How the loop of a read ends: with the run to go on from where it stopped, or at its end. -/
inductive Stopped (host : Host) (ins : List Instr) (size : ℕ) (v : Vm) : Err→Vm→Prop
  | paused {e : Err} {v' : Vm} {out : Bytes} {l : Prop} : (e=.fullBuffer ∨ e=.eof)→
      (e=.eof→Ends host ins v' [] .eof v'.writes)→(e=.fullBuffer→v'.out.overflow≠[])→
      Fits size v'.out→stream v'.out=stream v.out++out→Calm host ins v' l→
      Leads host ins v out v'→Stopped host ins size v e v'
  | failed {text out : Bytes} {v' : Vm} : v'.out.overflow=[]→
      stream v'.out=stream v.out++out→Ends host ins v out (.failed text) v'.writes→
      Stopped host ins size v (.failed text) v'

variable {e : Err} {out : Bytes}

theorem Stopped.cons {w : Vm} (hlead : Leads host ins v out w)
    (hstream : stream w.out=stream v.out++out) (h : Stopped host ins size w e v') :
    Stopped host ins size v e v' := by
  cases h with
  | paused he heof hfull hfits hs hcalm hl =>
    refine .paused he heof hfull hfits ?_ hcalm (hlead.trans hl)
    rw [hs,hstream,append_assoc]
  | failed hov hs hends =>
    refine .failed hov ?_ ((hlead _ _ _).mpr ⟨_,rfl,hends⟩)
    rw [hs,hstream,append_assoc]

variable {i : Instr} {o : Out}

/-- Where the run ends as at the end of the file, it goes on from the same place. -/
theorem stopped_eof {w : Vm} (hi : ins[v.ip]?=some i)
    (hx : exec host i (put {} v)=.error .eof w) (hfits : Fits size o)
    (hstream : stream o=stream v.out++w.out.sent) : Stopped host ins size v .eof (put o w) := by
  obtain ⟨hip,hwhole,w',hx',hsent,hwrites⟩ := exec_eof_again hx
  have hi' : ins[w.ip]?=some i := hip ▸ hi
  have hends : ∀rest e log,Ends host ins (put o w) rest e log ↔
      rest=[] ∧ e=.eof ∧ log=w.writes := by
    intro rest e log
    rw [ends_put,ends_stop_iff hi' hx',hsent,hwrites]
  refine .paused (.inr rfl) (fun _ => (hends _ _ _).mpr ⟨rfl,rfl,rfl⟩) (fun h => by cases h)
    hfits hstream (calm_put o (calm_eof False hi' hx' hwhole)) ?_
  intro all e log
  rw [ends_stop_iff hi hx]
  simp [hends]

/-- The loop follows the run. -/
theorem readLoop_stopped (hfits : Fits size v.out) (hloose : v.out.overflow≠[]→loose)
    (hcalm : Calm host ins v loose) (h : readLoop host ins fuel v=some (e,v')) :
    Stopped host ins size v e v' := by
  induction fuel generalizing v loose with
  | zero => cases h
  | succ fuel ih =>
    obtain ⟨i,hi,h⟩ := Option.bind_eq_some_iff.mp h
    have hsafe := hcalm v loose .refl i hi
    rcases exec_cases host hsafe.whole hfits with ht | ⟨k,text,hk,hv,hne,o,hf,hs,ho,hx⟩
    · generalize hb : exec host i (put v.out v)=bounded at ht
      generalize hu : exec host i (put {} v)=free at ht
      have hb' : exec host i v=bounded := hb
      rw [hb'] at h
      cases ht with
      | @ok _ w o hg =>
        refine Stopped.cons ((leads_step hi hu).put o) hg.stream (ih hg.fits ?_
          (calm_put o (hcalm.step hi hu)) h)
        intro hov
        exact (hg.kept hov).imp_right fun ⟨hbefore,hsent⟩ => ⟨hloose hbefore,hsent⟩
      | @full _ w o hf hs hov =>
        cases h
        exact .paused (.inl rfl) (fun he => by cases he) (fun _ => hov) hf hs
          (calm_put o (hcalm.step hi hu)) ((leads_step hi hu).put o)
      | @error _ w o he hg =>
        cases h
        cases e with
        | fullBuffer => exact absurd rfl he
        | eof => exact stopped_eof hi hu hg.fits hg.stream
        | failed text =>
          refine .failed ?_ hg.stream ((ends_stop_iff hi hu).mpr ⟨rfl,rfl,rfl⟩)
          obtain ⟨htight,hcareful⟩ := hsafe.tight text w hu
          by_contra hov
          rcases hg.kept hov with hc | ⟨hbefore,-⟩
          · exact hcareful hc
          · exact htight (hloose hbefore)
    · have hx' : exec host i v=.error .fullBuffer (put o (emptied text v)) := hx
      rw [hx'] at h
      cases h
      exact .paused (.inl rfl) (fun he => by cases he) (fun _ => ho) hf hs
        (calm_put o (calm_flush hi hk hv hne hcalm)) ((leads_flush host hi hk hv).put o)

theorem readLoop_error (hi : ins[v.ip]?=some i)
    (hx : exec host i v=.error e v') : readLoop host ins (fuel+1) v=some (e,v') := by
  simp [readLoop,hi,hx]

theorem readLoop_ok (hi : ins[v.ip]?=some i) (hx : exec host i v=.ok () v') :
    readLoop host ins (fuel+1) v=readLoop host ins fuel v' := by
  simp [readLoop,hi,hx]

variable {log : List (Bytes×Bytes)}

/-- If the run ends then so does the loop. -/
theorem exists_readLoop (hfits : Fits size o) (hcalm : Calm host ins v loose)
    (h : Ends host ins v out e log) : ∃fuel r,readLoop host ins fuel (put o v)=some r := by
  induction h generalizing loose o with
  | @stop v w i e hi hu =>
    have hsafe := hcalm v loose .refl i hi
    rcases exec_cases host hsafe.whole hfits with ht | ⟨_,_,_,_,_,_,_,_,_,hx⟩
    · generalize hb : exec host i (put o v)=bounded at ht
      rw [hu] at ht
      cases ht with
      | error => exact ⟨1,_,readLoop_error hi hb⟩
    · exact ⟨1,_,readLoop_error hi hx⟩
  | @step v w i out e log hi hu hr ih =>
    have hsafe := hcalm v loose .refl i hi
    rcases exec_cases host hsafe.whole hfits with ht | ⟨_,_,_,_,_,_,_,_,_,hx⟩
    · generalize hb : exec host i (put o v)=bounded at ht
      rw [hu] at ht
      cases ht with
      | ok hg =>
        obtain ⟨fuel,r,hl⟩ := ih hg.fits (hcalm.step hi hu)
        exact ⟨fuel+1,r,(readLoop_ok (v := put o v) hi hb).trans hl⟩
      | full => exact ⟨1,_,readLoop_error hi hb⟩
    · exact ⟨1,_,readLoop_error hi hx⟩

variable {fuel' : ℕ}

theorem readLoop_mono {r : Err×Vm} (hle : fuel≤fuel')
    (h : readLoop host ins fuel v=some r) : readLoop host ins fuel' v=some r := by
  induction fuel generalizing fuel' v with
  | zero => cases h
  | succ fuel ih =>
    obtain ⟨i,hi,h⟩ := Option.bind_eq_some_iff.mp h
    cases fuel' with
    | zero => omega
    | succ fuel' =>
      cases hx : exec host i v with
      | ok a w =>
        rw [hx] at h
        exact (readLoop_ok hi hx).trans (ih (Nat.le_of_succ_le_succ hle) h)
      | error e w =>
        rw [hx] at h
        exact (readLoop_error hi hx).trans h

theorem readLoop_primed (hv : Primed v) (h : readLoop host ins fuel v=some (e,v')) : Primed v' := by
  induction fuel generalizing v with
  | zero => cases h
  | succ fuel ih =>
    obtain ⟨i,hi,h⟩ := Option.bind_eq_some_iff.mp h
    have hp := primed_exec host i v hv
    cases hx : exec host i v with
    | ok a w =>
      rw [hx] at h hp
      exact ih hp h
    | error e w =>
      rw [hx] at h hp
      cases h
      exact hp

theorem fits_empty (size : ℕ) : Fits size { room := some size } :=
  ⟨rfl,Nat.zero_le _,fun h => absurd rfl h⟩

theorem sent_ne_nil (h : Fits size o) (hsize : 0<size) (ho : o.overflow≠[]) : o.sent≠[] := by
  intro hs
  have := h.full ho
  simp [hs] at this
  omega

/-- Only the end of the file without bytes is returned as such. -/
theorem readError_eof {sent : Bytes} (h : readError e sent=some .eof) : e=.eof ∧ sent=[] := by
  unfold readError at h
  split at h
  · cases h
  rename_i hne
  cases h
  refine ⟨rfl,?_⟩
  by_contra hs
  exact hne ⟨.inr rfl,hs⟩

/-- A read that is not the first starts with what did not fit the one before it. -/
theorem opening_primed (hv : Primed v) :
    opening (put { v.out with room := some size,sent := [] } v) =
      pour v.out.overflow (put { room := some size } v) := by
  have hline : v.lineno ≠ -1 := by
    have : 0≤v.lineno := hv
    omega
  unfold opening
  rw [run_get_bind,if_neg hline]
  by_cases ho : v.out.overflow=[]
  · rw [run_pour]
    simp [Out.write,ho]
  · rw [if_pos ho]
    rfl

inductive Served (host : Host) (ins : List Instr) (v : Vm) : Bytes→Option Err→Vm→Prop
  | more {sent out : Bytes} {l : Prop} {v' : Vm} : sent≠[]→
      v.out.overflow++out=sent++v'.out.overflow→Calm host ins v' l→
      Leads host ins v out v'→Primed v'→Served host ins v sent none v'
  | last {e : Err} {out : Bytes} {v' : Vm} : Ends host ins v out e v'.writes→
      Served host ins v (v.out.overflow++out) (some e) v'

theorem served_of_stopped (hsize : 0<size) (ho : stream o=v.out.overflow) (hv : Primed v')
    (h : Stopped host ins size (put o v) e v') :
    Served host ins v v'.out.sent (readError e v'.out.sent) v' := by
  cases h with
  | @paused _ _ out l he heof hfull hfits hstream hcalm hlead =>
    have hlead' : Leads host ins v out v' := (leads_put o v).trans hlead
    have hstream' : v.out.overflow++out=v'.out.sent++v'.out.overflow :=
      ho ▸ hstream.symm
    by_cases hsent : v'.out.sent=[]
    · -- nothing was sent, so the buffer did not fill up
      have hov : v'.out.overflow=[] := by
        by_contra hov
        exact sent_ne_nil hfits hsize hov hsent
      rcases he with rfl | rfl
      · exact absurd hov (hfull rfl)
      have hends : Ends host ins v out .eof v'.writes :=
        (hlead' _ _ _).mpr ⟨[],(append_nil out).symm,heof rfl⟩
      have hnil : v'.out.sent=v.out.overflow++out := by rw [hstream',hov,append_nil]
      rw [readError,if_neg (by simp [hsent]),hnil]
      exact .last hends
    · rw [readError,if_pos ⟨he,hsent⟩]
      exact .more hsent hstream' hcalm hlead' hv
  | @failed text out _ hov hstream hends =>
    have hsent : v'.out.sent=v.out.overflow++out := by
      rw [←ho,←hstream,SedBuffers.stream,hov,append_nil]
    rw [readError,hsent]
    exact .last ((ends_put o).mp hends)

theorem read_served (hsize : 0<size) (hv : Primed v) (hcalm : Calm host ins v loose)
    {sent : Bytes} {err : Option Err} (h : SedVm.read host ins fuel size v=some (sent,err,v')) :
    Served host ins v sent err v' := by
  obtain ⟨hfits,hstream⟩ := fits_write (fits_empty size) v.out.overflow
  obtain ⟨⟨e,w⟩,hloop,hres⟩ := Option.map_eq_some_iff.mp h
  rw [opening_primed hv,run_pour] at hloop
  cases hres
  generalize ho : (Out.write { room := some size } v.out.overflow).2=o at *
  cases hw : (Out.write { room := some size } v.out.overflow).1 with
  | true =>
    have hfull : some (Err.fullBuffer,put o v)=some (e,v') := by
      rw [if_pos hw] at hloop
      exact ho ▸ hloop
    cases hfull
    refine served_of_stopped hsize hstream hv ?_
    exact .paused (.inl rfl) (fun he => by cases he) (fun _ => ho ▸ write_full hw) hfits
      (append_nil _).symm (calm_put o hcalm) (leads_refl _)
  | false =>
    have hloop' : readLoop host ins fuel (put o v)=some (e,v') := by
      rw [if_neg (by simp [hw])] at hloop
      exact ho ▸ hloop
    refine served_of_stopped hsize hstream (readLoop_primed (v := put o v) hv hloop') ?_
    refine readLoop_stopped (v := put o v) hfits (fun hov => ?_) (calm_put o hcalm) hloop'
    exact absurd rfl (write_fitted (fits_empty size) hw (ho ▸ hov)).1

theorem exists_read (hv : Primed v) (hcalm : Calm host ins v loose) (h : Ends host ins v out e log)
    (size : ℕ) : ∃fuel r,SedVm.read host ins fuel size v=some r := by
  obtain ⟨hfits,-⟩ := fits_write (fits_empty size) v.out.overflow
  obtain ⟨fuel,r,hr⟩ := exists_readLoop hfits hcalm h
  unfold SedVm.read
  dsimp only
  rw [opening_primed hv,run_pour]
  split
  · exact ⟨0,_,rfl⟩
  · exact ⟨fuel,_,by rw [readFrom,hr]; rfl⟩

theorem read_mono {r : Bytes×Option Err×Vm} (hle : fuel≤fuel')
    (h : SedVm.read host ins fuel size v=some r) : SedVm.read host ins fuel' size v=some r := by
  obtain ⟨⟨e,w⟩,hloop,hres⟩ := Option.map_eq_some_iff.mp h
  refine Option.map_eq_some_iff.mpr ⟨(e,w),?_,hres⟩
  cases hx : opening { v with out := { v.out with room := some size,sent := [] } } with
  | ok a x =>
    rw [hx] at hloop
    exact readLoop_mono hle hloop
  | error e' x =>
    rw [hx] at hloop
    exact hloop

variable {sizes : ℕ→ℕ}

theorem readAll_mono {r : Bytes×Err×Vm} (hle : fuel≤fuel')
    (h : readAll host ins fuel sizes v=some r) : readAll host ins fuel' sizes v=some r := by
  induction fuel generalizing fuel' v sizes r with
  | zero => cases h
  | succ fuel ih =>
    obtain ⟨⟨sent,err,w⟩,hread,hrest⟩ := Option.bind_eq_some_iff.mp h
    cases fuel' with
    | zero => omega
    | succ fuel' =>
      refine Option.bind_eq_some_iff.mpr ⟨(sent,err,w),read_mono hle hread,?_⟩
      cases err with
      | some e => exact hrest
      | none =>
        obtain ⟨r',hr',rfl⟩ := Option.map_eq_some_iff.mp hrest
        exact Option.map_eq_some_iff.mpr ⟨r',ih (Nat.le_of_succ_le_succ hle) hr',rfl⟩

/-- Reads through buffers of any sizes return what the run writes. -/
theorem ends_of_readAll (hsizes : ∀n,0<sizes n) (hv : Primed v) (hcalm : Calm host ins v loose)
    {bytes : Bytes} (h : readAll host ins fuel sizes v=some (bytes,e,v')) :
    ∃out,bytes=v.out.overflow++out ∧ Ends host ins v out e v'.writes := by
  induction fuel generalizing v sizes bytes loose with
  | zero => cases h
  | succ fuel ih =>
    obtain ⟨⟨sent,err,w⟩,hread,hrest⟩ := Option.bind_eq_some_iff.mp h
    cases read_served (hsizes 0) hv hcalm hread with
    | @more _ out l _ hsent hstream hcalm' hlead hw =>
      obtain ⟨⟨bytes',e',x⟩,hr',hres⟩ := Option.map_eq_some_iff.mp hrest
      cases hres
      obtain ⟨out',rfl,hends⟩ := ih (fun n => hsizes (n+1)) hw hcalm' hr'
      refine ⟨out++out',?_,(hlead _ _ _).mpr ⟨out',rfl,hends⟩⟩
      rw [←append_assoc,←hstream,append_assoc]
    | @last e' out _ hends =>
      cases hrest
      exact ⟨out,rfl,hends⟩

/-- If the run ends, reads through buffers of any sizes come to its end. -/
theorem readAll_of_ends (hsizes : ∀n,0<sizes n) (hv : Primed v) (hcalm : Calm host ins v loose)
    (h : Ends host ins v out e log) :
    ∃fuel w,readAll host ins fuel sizes v=some (v.out.overflow++out,e,w) ∧ w.writes=log := by
  -- each read but the last returns some of the bytes that are left
  induction hn : (v.out.overflow++out).length using Nat.strongRecOn generalizing
    v sizes loose out with
  | ind n ih =>
    obtain ⟨fuel,⟨sent,err,w⟩,hread⟩ := exists_read hv hcalm h (sizes 0)
    cases read_served (hsizes 0) hv hcalm hread with
    | @more _ out₁ l _ hsent hstream hcalm' hlead hw =>
      obtain ⟨rest,rfl,hends⟩ := (hlead _ _ _).mp h
      have hall : v.out.overflow++(out₁++rest)=sent++(w.out.overflow++rest) := by
        rw [←append_assoc,hstream,append_assoc]
      have hlt : (w.out.overflow++rest).length<n := by
        have hpos := length_pos_iff.mpr hsent
        rw [hall,length_append] at hn
        omega
      obtain ⟨fuel',x,hr',hx⟩ := ih _ hlt (fun n => hsizes (n+1)) hw hcalm' hends rfl
      refine ⟨max fuel fuel'+1,x,Option.bind_eq_some_iff.mpr ⟨(sent,none,w),?_,?_⟩,hx⟩
      · exact read_mono (by omega) hread
      · refine Option.map_eq_some_iff.mpr ⟨_,readAll_mono (le_max_right _ _) hr',?_⟩
        rw [hall]
    | last hends =>
      obtain ⟨rfl,rfl,rfl⟩ := h.unique hends
      exact ⟨fuel+1,w,Option.bind_eq_some_iff.mpr ⟨_,read_mono (Nat.le_succ _) hread,rfl⟩,rfl⟩

end

/-- The program is read to its end through such buffers: bytes, file writes and error. -/
def Reads (host : Host) (ins : List Instr) (sizes : ℕ→ℕ) (v : Vm)
    (r : Bytes×List (Bytes×Bytes)×Err) : Prop :=
  ∃fuel w,readAll host ins fuel sizes v=some (r.1,r.2.2,w) ∧ w.writes=r.2.1

def primed (input : Input) (source : Option ℤ) : Vm :=
  put {} { final (cmdFillNext (wrap input source)) with ip := 0 }

section
variable (host : Host) (ins : List Instr) (input : Input) (source : Option ℤ)

variable {host ins} in
theorem reads_of_eq {sizes : ℕ→ℕ} {v : Vm} {r : Bytes×List (Bytes×Bytes)×Err} (fuel : ℕ)
    (h : (readAll host ins fuel sizes v).map (fun r => (r.1,r.2.2.writes,r.2.1))=some r) :
    Reads host ins sizes v r := by
  obtain ⟨⟨bytes,e,w⟩,hr,rfl⟩ := Option.map_eq_some_iff.mp h
  exact ⟨fuel,w,hr,rfl⟩

variable {host ins} in
theorem Reads.unique {sizes : ℕ→ℕ} {v : Vm} {r r' : Bytes×List (Bytes×Bytes)×Err}
    (h : Reads host ins sizes v r) (h' : Reads host ins sizes v r') : r=r' := by
  obtain ⟨bytes,log,e⟩ := r
  obtain ⟨bytes',log',e'⟩ := r'
  obtain ⟨fuel,w,hr,rfl⟩ := h
  obtain ⟨fuel',w',hr',rfl⟩ := h'
  have h₁ := readAll_mono (le_max_left fuel fuel') hr
  have h₂ := readAll_mono (le_max_right fuel fuel') hr'
  cases h₁.symm.trans h₂
  rfl

theorem cmdFillNext_put (o : Out) :
    cmdFillNext (put o (wrap input source))=mapState (put o) (cmdFillNext (wrap input source)) := by
  have hfill : filling (wrap input source).pat .fillNext=some refill := rfl
  have hother := exec_unqueued {} hfill rfl o
  have hown := exec_unqueued {} hfill rfl (wrap input source).out
  change cmdFillNext (put o (wrap input source))=_ at hother
  change cmdFillNext (wrap input source)=_ at hown
  rw [hother,hown]
  cases refill (wrap input source) <;> rfl

theorem cmdFillNext_wrap : cmdFillNext (wrap input source)=fetch (wrap input source) := rfl

theorem lineno_fetch (v : Vm) : (final (fetch v)).lineno=v.lineno+1 := by
  unfold fetch
  rw [run_get_bind]
  rcases readString v.input.stop v.input.buffered v.input.reads with ⟨line,err,input⟩
  dsimp only
  rw [run_modify_bind]
  split <;> rfl

theorem primed_primed : Primed (primed input source) := by
  change 0≤(final (cmdFillNext (wrap input source))).lineno
  rw [cmdFillNext_wrap,lineno_fetch]
  change (0 : ℤ) ≤ -1+1
  decide

theorem opening_wrap (size : ℕ) :
    opening (put { (wrap input source).out with room := some size,sent := [] }
      (wrap input source)) =
      mapState (fun v => { put { room := some size } v with ip := 0 })
        (cmdFillNext (wrap input source)) := by
  have hopen : opening (put { room := some size } (wrap input source)) =
      withDefer cmdFillNext (fun _ r => { final r with ip := 0 })
        (put { room := some size } (wrap input source)) := rfl
  change opening (put { room := some size } (wrap input source))=_
  rw [hopen,withDefer,cmdFillNext_put]
  cases cmdFillNext (wrap input source) <;> rfl

variable {w : Vm}

/-- A first read that fills the line ahead starts as a read of the machine with the line filled. -/
theorem opening_filled {a : Unit} (h : cmdFillNext (wrap input source)=.ok a w) (size : ℕ) :
    opening (put { (wrap input source).out with room := some size,sent := [] }
        (wrap input source)) =
      opening (put { (primed input source).out with room := some size,sent := [] }
        (primed input source)) := by
  have hprimed : primed input source=put {} { w with ip := 0 } := by
    rw [primed,h]
    rfl
  rw [opening_primed (primed_primed input source),hprimed,opening_wrap,h]
  rfl

theorem read_filled {a : Unit} (h : cmdFillNext (wrap input source)=.ok a w)
    (fuel size : ℕ) : SedVm.read host ins fuel size (wrap input source) =
      SedVm.read host ins fuel size (primed input source) := by
  have hopen := opening_filled input source h size
  unfold SedVm.read
  rw [hopen]

/-- A first read that does not fill it fails whatever the size of the buffer. -/
theorem read_unfilled {e : Err} (h : cmdFillNext (wrap input source)=.error e w) :
    ∃text,∀fuel size,SedVm.read host ins fuel size (wrap input source) =
      some ([],some (.failed text),put { room := some size } (primed input source)) := by
  rw [cmdFillNext_wrap] at h
  have hfull : e≠.fullBuffer := silent_fetch.throws _ _ _ h
  have heof : e≠.eof := throws_fetch _ _ _ h
  cases e with
  | fullBuffer => exact absurd rfl hfull
  | eof => exact absurd rfl heof
  | failed text =>
    refine ⟨text,fun fuel size => ?_⟩
    have hfirst := opening_wrap input source size
    unfold SedVm.read primed
    rw [hfirst,cmdFillNext_wrap,h]
    rfl

/-- The first read fills the line ahead, or fails whatever the size of the buffer. -/
theorem read_wrap : (∀fuel size,SedVm.read host ins fuel size (wrap input source) =
        SedVm.read host ins fuel size (primed input source)) ∨
      ∃text,∀fuel size,SedVm.read host ins fuel size (wrap input source) =
        some ([],some (.failed text),put { room := some size } (primed input source)) := by
  cases hr : cmdFillNext (wrap input source) with
  | ok a w => exact .inl (read_filled host ins input source hr)
  | error e w => exact .inr (read_unfilled host ins input source hr)

/-- The first read, and the reads after it, are those of the machine with the line ahead filled. -/
theorem reads_wrap : (∀sizes r,Reads host ins sizes (wrap input source) r ↔
        Reads host ins sizes (primed input source) r) ∨
      ∃text log,∀sizes r,Reads host ins sizes (wrap input source) r ↔ r=([],log,.failed text) := by
  rcases read_wrap host ins input source with h | ⟨text,h⟩
  · left
    intro sizes r
    refine exists_congr fun fuel => exists_congr fun w => ?_
    cases fuel with
    | zero => rfl
    | succ fuel => simp [readAll,h]
  · right
    refine ⟨text,(primed input source).writes,fun sizes r => ?_⟩
    have hread : ∀fuel,readAll host ins (fuel+1) sizes (wrap input source) =
        some ([],.failed text,put { room := some (sizes 0) } (primed input source)) :=
      fun fuel => by simp [readAll,h]
    constructor
    · rintro ⟨_ | fuel,w,hr,hw⟩
      · cases hr
      · obtain ⟨bytes,log,e⟩ := r
        cases (hread fuel).symm.trans hr
        cases hw
        rfl
    · rintro rfl
      exact ⟨1,_,hread 0,rfl⟩

/-- The bytes, the writes to files and the error do not depend on the sizes of the buffers, if
no instruction of the run is one that a full buffer cuts short. -/
theorem reads_agree (h : Calm host ins (primed input source) False) {sizes sizes' : ℕ→ℕ}
    (hs : ∀n,0<sizes n) (hs' : ∀n,0<sizes' n) (r : Bytes×List (Bytes×Bytes)×Err) :
    Reads host ins sizes (wrap input source) r ↔ Reads host ins sizes' (wrap input source) r := by
  rcases reads_wrap host ins input source with
    hw | ⟨text,log,hw⟩
  · have hrun : ∀sizes : ℕ→ℕ,(∀n,0<sizes n)→
        (Reads host ins sizes (primed input source) r ↔
          Ends host ins (primed input source) r.1 r.2.2 r.2.1) := by
      intro sizes hs
      constructor
      · rintro ⟨fuel,w,hr,hw⟩
        obtain ⟨out,hout,hends⟩ := ends_of_readAll hs (primed_primed input source) h hr
        rw [hw] at hends
        rwa [hout]
      · exact fun hends => readAll_of_ends hs (primed_primed input source) h hends
    rw [hw,hw,hrun sizes hs,hrun sizes' hs']
  · rw [hw,hw]

end

def insertQuit : List Instr :=
  [.fillNext,.inserter (ascii "ab\n"),.print,.quit,.print,.branch 0]

theorem calm_of_ok {host : Host} {ins : List Instr} {v w : Vm} {i : Instr} {loose l : Prop}
    (hi : ins[v.ip]?=some i) (hx : exec host i (put {} v)=.ok () w)
    (hwhole : ¬ Interruptible i v) (hl : (Careless i v ∨ loose ∧ w.out.sent=[])=l)
    (hw : Calm host ins w l) : Calm host ins v loose := by
  refine calm_intro fun j hj => ?_
  cases hi.symm.trans hj
  refine ⟨⟨hwhole,fun text x hf => ?_⟩,fun x hf => ?_⟩
  · cases hx.symm.trans hf
  · cases hx.symm.trans hf
    exact hl ▸ hw

theorem reads_agree_insertQuit :
    Calm {} insertQuit (primed { reads := [ascii "x\ny\n"] } none) False ∧
      Reads {} insertQuit (fun _ => 1) (wrap { reads := [ascii "x\ny\n"] } none)
        (ascii "ab\nx\n",[],.eof) ∧
      Reads {} insertQuit (fun _ => 3) (wrap { reads := [ascii "x\ny\n"] } none)
        (ascii "ab\nx\n",[],.eof) := by
  have hcalm : Calm {} insertQuit (primed { reads := [ascii "x\ny\n"] } none) False := by
    refine calm_of_ok (l := False) rfl rfl id (by simp [Careless]) ?_
    refine calm_of_ok (l := False) rfl rfl id (by simp [Careless]) ?_
    refine calm_of_ok rfl rfl id ?_ (calm_eof False rfl rfl id)
    -- the line printed ends in a newline
    exact propext ⟨fun h => h.elim (fun hc => Bool.noConfusion hc.1) And.left,False.elim⟩
  have hreads : Reads {} insertQuit (fun _ => 1) (wrap { reads := [ascii "x\ny\n"] } none)
      (ascii "ab\nx\n",[],.eof) := reads_of_eq 10 (by decide +kernel)
  exact ⟨hcalm,hreads,(reads_agree _ _ _ _ hcalm (by simp) (by simp) _).mp hreads⟩

/-- `N` and `l`, without automatic printing: a buffer of one byte loses the second line. -/
theorem not_reads_agree_list : ¬ ∀(host : Host) (ins : List Instr) (input : Input)
    (source : Option ℤ) (sizes sizes' : ℕ→ℕ),(∀n,0<sizes n)→(∀n,0<sizes' n)→∀r,
    (Reads host ins sizes (wrap input source) r ↔ Reads host ins sizes' (wrap input source) r) := by
  intro h
  have hwide : Reads {} [.fillNext,.fillNextAppend,.list,.branch 0] (fun _ => 9)
      (wrap { reads := [ascii "a\nb\n"] } none) (ascii "a$\nb$\n",[],.eof) :=
    reads_of_eq 9 (by decide +kernel)
  have hnarrow : Reads {} [.fillNext,.fillNextAppend,.list,.branch 0] (fun _ => 1)
      (wrap { reads := [ascii "a\nb\n"] } none) (ascii "a$\n",[],.eof) :=
    reads_of_eq 9 (by decide +kernel)
  have hboth := (h _ _ _ _ (fun _ => 9) (fun _ => 1) (by simp) (by simp) _).mp hwide
  exact absurd (hboth.unique hnarrow) (by decide)

end Coreutils.SedReads
