import Coreutils.SedReads

/-!
# Texts queued by `a` and `r`

The record of a run is checked against the purpose of the queue: a text queued is put out once,
after what was written until then, and before the next line is taken. The instructions that take a
line keep to it, so the only texts not put out are those in the queue when the run ends at `q` or in
an error.
-/

namespace Coreutils.SedQueue
open List GoText Programs SedVm SedBuffers SedEffects SedReads

/-- The texts queued, and whether they were just put out. -/
structure Ledger where
  queue : Bytes := []
  out : Bool := false
  deriving DecidableEq,Repr

/-- A line is taken once the texts are put out, and only when no text is queued. -/
def Ledger.enter : Ledger→Act→Option Ledger
  | ⟨q,false⟩,.wrote _ => some ⟨q,false⟩
  | ⟨q,false⟩,.queued t => some ⟨q++t,false⟩
  | ⟨q,false⟩,.flushed t => if t=q then some ⟨[],true⟩ else none
  | ⟨q,_⟩,.took => if q=[] then some {} else none
  | _,_ => none

/-- Every text that was queued was put out, in its place. -/
def Delivered (trace : List Act) : Prop :=
  ∃out,trace.foldlM Ledger.enter {}=some ⟨[],out⟩

def Act.text : Act→Bytes
  | .wrote t | .flushed t => t
  | _ => []

def texts (trace : List Act) : Bytes := trace.flatMap Act.text

theorem texts_concat (trace : List Act) (a : Act) : texts (trace++[a])=texts trace++Act.text a := by
  simp [texts]

/-- The record `trace` leaves the queue as the ledger says. -/
def Adds (trace : List Act) (l : Ledger) : Prop := trace.foldlM Ledger.enter {}=some l

theorem Adds.concat {trace : List Act} {l l' : Ledger} {a : Act} (h : Adds trace l)
    (ha : l.enter a=some l') : Adds (trace++[a]) l' := by
  unfold Adds at h ⊢
  rw [foldlM_append,h]
  simpa using ha

/-- The buffer has what was written and not handed out before. -/
structure Booked (size : ℕ) (done : Bytes) (v : Vm) : Prop where
  fits : Fits size v.out
  bytes : done++stream v.out=texts v.trace

def Open (v : Vm) : Prop := Adds v.trace ⟨v.appl.getD [],false⟩

/-- The record accounts for the queue. If texts were just put out, a line is to be taken. -/
def Accounted (ins : List Instr) (v : Vm) : Prop :=
  Open v ∨ Adds v.trace ⟨[],true⟩ ∧ v.appl=none ∧
    ∃i k,ins[v.ip]?=some i ∧ filling v.pat i=some k

section
variable {size : ℕ} {done pat : Bytes} {ins : List Instr} {v w : Vm} {i : Instr} {k : Sed Unit}

theorem frame_booked : Frame (Booked size done) where
  other := fun h _ _ htrace hout => ⟨hout ▸ h.fits,by rw [hout,htrace]; exact h.bytes⟩
  write := fun {v} s h => by
    obtain ⟨hfits,hstream⟩ := fits_write h.fits s
    refine ⟨hfits,?_⟩
    change done++stream (v.out.write s).2=texts (v.trace++[.wrote s])
    rw [hstream,texts_concat,←h.bytes,append_assoc]
    rfl

theorem frame_open : Frame Open where
  other := fun h _ happl htrace _ => by
    unfold Open
    rw [happl,htrace]
    exact h
  write := fun _ h => Adds.concat h rfl

theorem booked_emptied (text : Bytes) (h : Booked size done v) :
    Booked size done (put (v.out.write text).2 (emptied text v)) := by
  obtain ⟨hfits,hstream⟩ := fits_write h.fits text
  refine ⟨hfits,?_⟩
  rw [hstream,texts_concat,←h.bytes,append_assoc]
  rfl

theorem booked_note {a : Act} (h : Booked size done v) (ha : Act.text a=[])
    (htrace : w.trace=v.trace++[a]) (hout : w.out=v.out) : Booked size done w := by
  refine ⟨hout ▸ h.fits,?_⟩
  rw [hout,htrace,texts_concat,ha,append_nil]
  exact h.bytes

theorem booked_fetch : Preserves (Booked size done) fetch := by
  refine preserves_get.bind fun v => preserves_modify_bind (fun w h => booked_note h rfl rfl rfl) ?_
  split
  · exact preserves_throw _
  · exact preserves_pure _

theorem booked_filling (h : filling pat i=some k) : Preserves (Booked size done) k := by
  have hrefill : Preserves (Booked size done) refill :=
    preserves_get.bind fun v => (preserves_throw _).ite booked_fetch
  cases i with
  | fillNext =>
    cases h
    exact hrefill
  | fillNextAppend =>
    cases h
    exact hrefill.bind fun _ => preserves_other frame_booked fun _ => ⟨rfl,rfl,rfl,rfl⟩
  | _ => cases h

theorem fetch_took (v : Vm) : (final (fetch v)).trace=v.trace++[.took] ∧
    (final (fetch v)).appl=v.appl := by
  unfold fetch
  rw [run_get_bind]
  rcases readString v.input.stop v.input.buffered v.input.reads with ⟨line,err,input⟩
  dsimp only
  rw [run_modify_bind]
  split <;> exact ⟨rfl,rfl⟩

theorem refill_took (v : Vm) : refill v=.error .eof v ∨
    (final (refill v)).trace=v.trace++[.took] ∧ (final (refill v)).appl=v.appl := by
  have hrun : refill v=(if v.lastl then throw Err.eof else fetch : Sed Unit) v := rfl
  rw [hrun]
  split
  · exact .inl rfl
  · exact .inr (fetch_took v)

/-- With nothing queued, the run ends at the end of the file or a line is taken. -/
theorem filling_took (h : filling pat i=some k) (v : Vm) : k v=.error .eof v ∨
    (final (k v)).trace=v.trace++[.took] ∧ (final (k v)).appl=v.appl := by
  cases i with
  | fillNext =>
    cases h
    exact refill_took v
  | fillNextAppend =>
    cases h
    rcases refill_took v with hr | hr
    · exact .inl (run_bind_error hr)
    right
    rw [run_bind]
    cases hx : refill v with
    | ok a w =>
      rw [hx] at hr
      exact hr
    | error e w =>
      rw [hx] at hr
      exact hr
  | _ => cases h

theorem accounted_filling {out : Bool} (h : filling pat i=some k)
    (hv : v.appl=none) (hadds : Adds v.trace ⟨[],out⟩) (hacc : Accounted ins v) :
    Accounted ins (final (k v)) ∧ (final (k v)).appl=none := by
  rcases filling_took h v with hk | ⟨htrace,happl⟩
  · rw [hk]
    exact ⟨hacc,hv⟩
  have hnone : (final (k v)).appl=none := happl.trans hv
  refine ⟨.inl ?_,hnone⟩
  unfold Open
  rw [hnone,htrace]
  exact hadds.concat (by cases out <;> rfl)

/-- An instruction that takes a line leaves nothing queued. -/
theorem accounted_fill (host : Host) (hi : ins[v.ip]?=some i) (h : filling v.pat i=some k)
    (hbooked : Booked size done v) (hacc : Accounted ins v) :
    Booked size done (final (exec host i v)) ∧ Accounted ins (final (exec host i v)) ∧
      (final (exec host i v)).appl=none := by
  rw [exec_filling host h]
  cases hv : v.appl with
  | none =>
    rw [run_bind_ok (run_flush_none hv)]
    have hadds : ∃out,Adds v.trace ⟨[],out⟩ := by
      rcases hacc with ho | ⟨ho,-⟩
      · unfold Open at ho
        rw [hv] at ho
        exact ⟨false,ho⟩
      · exact ⟨true,ho⟩
    obtain ⟨out,hadds⟩ := hadds
    exact ⟨booked_filling h v hbooked,accounted_filling h hv hadds hacc⟩
  | some text =>
    have hopen : Adds v.trace ⟨text,false⟩ := by
      rcases hacc with ho | ⟨-,hnone,-⟩
      · unfold Open at ho
        rwa [hv] at ho
      · rw [hv] at hnone
        cases hnone
    have hadds : Adds (v.trace++[.flushed text]) ⟨[],true⟩ :=
      hopen.concat (if_pos rfl)
    have hbooked' := booked_emptied text hbooked
    have hacc' : Accounted ins (put (v.out.write text).2 (emptied text v)) :=
      .inr ⟨hadds,rfl,i,k,hi,h⟩
    rw [run_bind,run_flush_some hv]
    cases (v.out.write text).1 with
    | true => exact ⟨hbooked',hacc',rfl⟩
    | false => exact ⟨booked_filling h _ hbooked',accounted_filling h rfl hadds hacc'⟩

theorem accounted_queue (text : Bytes) (hbooked : Booked size done v) (hopen : Open v) :
    Booked size done (final (queue text v)) ∧ Open (final (queue text v)) :=
  ⟨booked_note hbooked rfl rfl rfl,hopen.concat rfl⟩

theorem open_of_accounted (hi : ins[v.ip]?=some i) (hfill : filling v.pat i=none)
    (h : Accounted ins v) : Open v := by
  rcases h with h | ⟨-,-,j,k,hj,hk⟩
  · exact h
  · cases hi.symm.trans hj
    rw [hfill] at hk
    cases hk

theorem open_advance (hbooked : Booked size done v) (hopen : Open v) :
    Booked size done { v with ip := v.ip+1 } ∧ Open { v with ip := v.ip+1 } :=
  ⟨preserves_advance frame_booked v hbooked,preserves_advance frame_open v hopen⟩

theorem accounted_exec (host : Host) (hi : ins[v.ip]?=some i) (hbooked : Booked size done v)
    (hacc : Accounted ins v) :
    Booked size done (final (exec host i v)) ∧ Accounted ins (final (exec host i v)) := by
  cases hfill : filling v.pat i with
  | some k =>
    obtain ⟨hb,ha,-⟩ := accounted_fill host hi hfill hbooked hacc
    exact ⟨hb,ha⟩
  | none =>
    have hopen := open_of_accounted hi hfill hacc
    by_cases hs : Instr.Special i
    · cases i with
      | appender text =>
        obtain ⟨hb,ho⟩ := open_advance hbooked hopen
        exact (accounted_queue text hb ho).imp_right .inl
      | reader filename =>
        obtain ⟨hb,ho⟩ := open_advance hbooked hopen
        have hrun : exec host (.reader filename) v =
            queueFile (host.readFile v.writes filename) { v with ip := v.ip+1 } := rfl
        rw [hrun]
        cases host.readFile v.writes filename with
        | none => exact ⟨hb,.inl ho⟩
        | some text => exact (accounted_queue text hb ho).imp_right .inl
      | fillNext | fillNextAppend => cases hfill
      | _ => exact absurd hs id
    · exact ⟨preserves_exec frame_booked host hs v hbooked,
        .inl (preserves_exec frame_open host hs v hopen)⟩

/-- A run that ends as at the end of the file left nothing queued, or ended at `q`. -/
theorem exec_eof_queue (host : Host) (hi : ins[v.ip]?=some i) (hbooked : Booked size done v)
    (hacc : Accounted ins v) (hx : exec host i v=.error .eof w) :
    w.appl=none ∨ ins[w.ip]?=some .quit := by
  have hfill : ∀k,filling v.pat i=some k→w.appl=none := by
    intro k hk
    obtain ⟨-,-,hnone⟩ := accounted_fill host hi hk hbooked hacc
    rwa [hx] at hnone
  cases i with
  | quit =>
    cases hx
    exact .inr hi
  | fillNext | fillNextAppend => exact .inl (hfill _ rfl)
  | _ => exact absurd rfl (throws_exec host id _ _ _ hx)

end

variable {sizes : ℕ→ℕ} {bytes : Bytes} {e : Err}

section
variable {host : Host} {ins : List Instr} {size fuel : ℕ} {done : Bytes} {v v' : Vm}

theorem readLoop_accounted (hbooked : Booked size done v) (hacc : Accounted ins v)
    (h : readLoop host ins fuel v=some (e,v')) : Booked size done v' ∧ Accounted ins v' ∧
      (e=.eof→v'.appl=none ∨ ins[v'.ip]?=some .quit) := by
  induction fuel generalizing v with
  | zero => cases h
  | succ fuel ih =>
    obtain ⟨i,hi,h⟩ := Option.bind_eq_some_iff.mp h
    obtain ⟨hb,ha⟩ := accounted_exec host hi hbooked hacc
    cases hx : exec host i v with
    | ok a w =>
      rw [hx] at h hb ha
      exact ih hb ha h
    | error e' w =>
      rw [hx] at h hb ha
      cases h
      refine ⟨hb,ha,?_⟩
      rintro rfl
      exact exec_eof_queue host hi hbooked hacc hx

/-- What is known between two reads: `done` was handed out. -/
structure Between (ins : List Instr) (done : Bytes) (v : Vm) : Prop where
  primed : Primed v
  bytes : done++v.out.overflow=texts v.trace
  accounted : Accounted ins v

/-- At the end of the file everything written was handed out, and only `q` leaves texts queued. -/
def Finished (ins : List Instr) (v : Vm) : Prop :=
  v.out.overflow=[] ∧ (v.appl=none ∨ ins[v.ip]?=some .quit)

theorem read_between (hsize : 0<size) (hv : Between ins done v) {sent : Bytes}
    {err : Option Err} (h : SedVm.read host ins fuel size v=some (sent,err,v')) :
    Between ins (done++sent) v' ∧ (err=some .eof→Finished ins v') := by
  obtain ⟨⟨e,w⟩,hloop,hres⟩ := Option.map_eq_some_iff.mp h
  rw [opening_primed hv.primed,run_pour] at hloop
  cases hres
  obtain ⟨hfits,hstream⟩ := fits_write (fits_empty size) v.out.overflow
  generalize ho : (Out.write { room := some size } v.out.overflow).2=o at *
  have hbooked : Booked size done (put o v) := by
    refine ⟨hfits,?_⟩
    rw [←hv.bytes]
    exact congrArg (done++·) hstream
  have hacc : Accounted ins (put o v) := hv.accounted
  have hend : Booked size done v' ∧ Accounted ins v' ∧ Primed v' ∧
      (e=.eof→v'.appl=none ∨ ins[v'.ip]?=some .quit) := by
    cases hw : (Out.write { room := some size } v.out.overflow).1 with
    | true =>
      have hfull : some (Err.fullBuffer,put o v)=some (e,v') := by
        rw [if_pos hw] at hloop
        exact ho ▸ hloop
      cases hfull
      exact ⟨hbooked,hacc,hv.primed,fun he => by cases he⟩
    | false =>
      have hloop' : readLoop host ins fuel (put o v)=some (e,v') := by
        rw [if_neg (by simp [hw])] at hloop
        exact ho ▸ hloop
      obtain ⟨hb,ha,he⟩ := readLoop_accounted hbooked hacc hloop'
      exact ⟨hb,ha,readLoop_primed (v := put o v) hv.primed hloop',he⟩
  obtain ⟨hb,ha,hp,he⟩ := hend
  refine ⟨⟨hp,?_,ha⟩,fun herr => ?_⟩
  · rw [append_assoc]
    exact hb.bytes
  · obtain ⟨rfl,hsent⟩ := readError_eof herr
    refine ⟨?_,he rfl⟩
    by_contra hov
    exact sent_ne_nil hb.fits hsize hov hsent

theorem readAll_between (hsizes : ∀n,0<sizes n) (hv : Between ins done v)
    (h : readAll host ins fuel sizes v=some (bytes,e,v')) :
    Between ins (done++bytes) v' ∧ (e=.eof→Finished ins v') := by
  induction fuel generalizing v sizes done bytes with
  | zero => cases h
  | succ fuel ih =>
    obtain ⟨⟨sent,err,w⟩,hread,hrest⟩ := Option.bind_eq_some_iff.mp h
    obtain ⟨hw,hfin⟩ := read_between (hsizes 0) hv hread
    cases err with
    | some e' =>
      cases hrest
      exact ⟨hw,fun he => hfin (congrArg some he)⟩
    | none =>
      obtain ⟨⟨bytes',e',x⟩,hr',hres⟩ := Option.map_eq_some_iff.mp hrest
      cases hres
      rw [←append_assoc]
      exact ih (fun n => hsizes (n+1)) hw hr'

end

theorem between_primed (ins : List Instr) (input : Input) (source : Option ℤ) :
    Between ins [] (primed input source) := by
  obtain ⟨htrace,happl⟩ := fetch_took (wrap input source)
  rw [←cmdFillNext_wrap] at htrace happl
  have htrace' : (primed input source).trace=[.took] := htrace
  have happl' : (primed input source).appl=none := happl
  refine ⟨primed_primed input source,?_,.inl ?_⟩
  · rw [htrace']
    rfl
  · unfold Open
    rw [htrace',happl']
    rfl

variable {ins : List Instr} {source : Option ℤ}

theorem wrap_between {host : Host} {input : Input} (hsizes : ∀n,0<sizes n) {fuel : ℕ} {v : Vm}
    (h : readAll host ins fuel sizes (wrap input source)=some (bytes,e,v)) :
    Between ins bytes v ∧ (e=.eof→Finished ins v) := by
  cases fuel with
  | zero => cases h
  | succ fuel =>
    rcases read_wrap host ins input source with hr | ⟨text,hr⟩
    · have hsame : readAll host ins (fuel+1) sizes (wrap input source) =
          readAll host ins (fuel+1) sizes (primed input source) := by
        simp [readAll,hr]
      rw [hsame] at h
      exact readAll_between hsizes (between_primed ins input source) h
    · simp only [readAll,hr] at h
      cases h
      have hstart := between_primed ins input source
      exact ⟨⟨hstart.primed,hstart.bytes,hstart.accounted⟩,fun he => by cases he⟩

theorem delivered_iff {v : Vm} (h : Accounted ins v) :
    Delivered v.trace ↔ ¬ ∃text,v.appl=some text ∧ text≠[] := by
  have hadds : ∃out,Adds v.trace ⟨v.appl.getD [],out⟩ := by
    rcases h with h | ⟨h,hnone,-⟩
    · exact ⟨false,h⟩
    · exact ⟨true,by rw [hnone]; exact h⟩
  obtain ⟨out,hadds⟩ := hadds
  unfold Delivered
  rw [hadds]
  cases v.appl with
  | none | some => simp

/-- Every text queued was put out, once and in its place, in what was written; `bytes` is all of
that, but for what a failed run did not hand out. -/
def Delivers (bytes : Bytes) (e : Err) (v : Vm) : Prop :=
  bytes++v.out.overflow=texts v.trace ∧ (e=.eof→v.out.overflow=[]) ∧ Delivered v.trace

/-- The run ended at `q` or in an error, with text queued. -/
def EndsEarly (ins : List Instr) (e : Err) (v : Vm) : Prop :=
  (∃text,v.appl=some text ∧ text≠[]) ∧ (ins[v.ip]?=some .quit ∨ e≠.eof)

theorem queue_delivered_iff {host : Host} {input : Input} (hsizes : ∀n,0<sizes n) {fuel : ℕ}
    {v : Vm} (h : readAll host ins fuel sizes (wrap input source)=some (bytes,e,v)) :
    Delivers bytes e v ↔ ¬ EndsEarly ins e v := by
  obtain ⟨hbetween,hfin⟩ := wrap_between hsizes h
  have hiff := delivered_iff hbetween.accounted
  constructor
  · rintro ⟨-,-,hd⟩ ⟨hqueued,-⟩
    exact hiff.mp hd hqueued
  intro hend
  refine ⟨hbetween.bytes,fun he => (hfin he).1,hiff.mpr fun hqueued => hend ⟨hqueued,?_⟩⟩
  -- text is left in the queue, so the run did not end at an instruction that takes a line
  by_cases he : e=.eof
  · obtain ⟨text,hv,-⟩ := hqueued
    rcases (hfin he).2 with hnone | hquit
    · rw [hnone] at hv
      cases hv
    · exact .inl hquit
  · exact .inr he

def appendNext : List Instr :=
  [.fillNext,.appender (ascii "foo\n"),.fillNextAppend,.print,.branch 0]

def appendQuit : List Instr :=
  [.fillNext,.appender (ascii "foo\n"),.print,.quit,.print,.branch 0]

theorem queue_delivered_appendNext : ∃v,
    readAll {} appendNext 9 (fun _ => 2) (wrap { reads := [ascii "x\n"] } none) =
      some (ascii "foo\n",.eof,v) ∧ Delivers (ascii "foo\n") .eof v := by
  have hrun : (readAll {} appendNext 9 (fun _ => 2) (wrap { reads := [ascii "x\n"] } none)).map
      (fun r => (r.1,r.2.1,r.2.2.appl))=some (ascii "foo\n",.eof,none) := by decide
  obtain ⟨⟨bytes,e,v⟩,hr,hres⟩ := Option.map_eq_some_iff.mp hrun
  obtain ⟨rfl,rfl,happl⟩ : bytes=ascii "foo\n" ∧ e=.eof ∧ v.appl=none := by simpa using hres
  refine ⟨v,hr,(queue_delivered_iff (fun _ => by decide) hr).mpr ?_⟩
  rintro ⟨⟨text,hv,-⟩,-⟩
  rw [happl] at hv
  cases hv

theorem not_queue_delivered_quit : ∃v,
    readAll {} appendQuit 9 (fun _ => 2) (wrap { reads := [ascii "x\n"] } none) =
      some (ascii "x\n",.eof,v) ∧ ¬ Delivers (ascii "x\n") .eof v := by
  have hrun : (readAll {} appendQuit 9 (fun _ => 2) (wrap { reads := [ascii "x\n"] } none)).map
      (fun r => (r.1,r.2.1,r.2.2.trace))=some (ascii "x\n",.eof,
        [.took,.took,.queued (ascii "foo\n"),.wrote (ascii "x"),.wrote [newline]]) := by
    decide
  obtain ⟨⟨bytes,e,v⟩,hr,hres⟩ := Option.map_eq_some_iff.mp hrun
  obtain ⟨rfl,rfl,htrace⟩ : bytes=ascii "x\n" ∧ e=.eof ∧ v.trace=_ := by simpa using hres
  refine ⟨v,hr,?_⟩
  rintro ⟨-,-,out,hd⟩
  rw [htrace] at hd
  cases hd

end Coreutils.SedQueue
