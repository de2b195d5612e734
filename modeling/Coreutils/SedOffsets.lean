import Coreutils.SedReads

/-!
# The offset that `q` leaves

The machine reads a line ahead and `bufio` further, so `q` seeks back over what is not consumed. It
does so each time it is executed, and a read that returns bytes does not return the end of the file
with them: the next read executes `q` again.
-/

namespace Coreutils.SedOffsets
open List GoText Programs SedVm SedBuffers SedEffects SedReads

def headLines : ℕ→Bytes→Bytes
  | 0,_ => []
  | k+1,s =>
    match cutLine s with
    | some (line,rest) => line++headLines k rest
    | none => s

def tailLines : ℕ→Bytes→Bytes
  | 0,s => s
  | k+1,s =>
    match cutLine s with
    | some (_,rest) => tailLines k rest
    | none => []

variable {s line : Bytes} {w v : Vm}

theorem cutLine_append {rest : Bytes} (h : cutLine s=some (line,rest)) : s=line++rest := by
  induction s generalizing line with
  | nil => cases h
  | cons c s ih =>
    unfold cutLine at h
    split at h
    · cases h
      rfl
    · obtain ⟨⟨l,r⟩,hcut,hres⟩ := Option.map_eq_some_iff.mp h
      cases hres
      rw [ih hcut]
      rfl

theorem headLines_append_tailLines (k : ℕ) (s : Bytes) : headLines k s++tailLines k s=s := by
  induction k generalizing s with
  | zero => rfl
  | succ k ih =>
    unfold headLines tailLines
    cases hcut : cutLine s with
    | none => exact append_nil s
    | some r =>
      rw [append_assoc,ih,←cutLine_append hcut]

theorem tailLines_cut {rest : Bytes} (h : cutLine s=some (line,rest)) (k : ℕ) :
    tailLines (k+1) s=tailLines k rest := by
  rw [tailLines,h]

theorem tailLines_uncut (h : cutLine s=none) (k : ℕ) : tailLines (k+1) s=[] := by rw [tailLines,h]

theorem tailLines_succ (k : ℕ) (s : Bytes) : tailLines (k+1) s=tailLines 1 (tailLines k s) := by
  induction k generalizing s with
  | zero => rfl
  | succ k ih =>
    cases hcut : cutLine s with
    | none =>
      rw [tailLines_uncut hcut,tailLines_uncut hcut]
      rfl
    | some r => rw [tailLines_cut hcut,tailLines_cut hcut,ih]

def rest (i : Input) : Bytes := i.buffered++i.reads.flatten

def ahead (v : Vm) : Bytes := v.nxtl++if v.nxtlNL then [newline] else []

theorem length_ahead (v : Vm) : v.unread=v.input.buffered.length+(ahead v).length := by
  unfold Vm.unread ahead
  cases v.nxtlNL <;> simp [add_assoc]

theorem cutLine_concat {tail : Bytes} (h : cutLine s=some (line,tail)) (t : Bytes) :
    cutLine (s++t)=some (line,tail++t) := by
  induction s generalizing line with
  | nil => cases h
  | cons c s ih =>
    rw [cons_append]
    unfold cutLine at h ⊢
    split_ifs at h with hc
    · cases h
      rw [if_pos hc]
    obtain ⟨⟨l,r⟩,hcut,hres⟩ := Option.map_eq_some_iff.mp h
    cases hres
    rw [if_neg hc,ih hcut]
    rfl

/-- `ReadString` takes one line, or what there is. -/
theorem readString_spec (stop : Option Bytes) (reads : List Bytes) : ∀buffered : Bytes,
    (readString stop buffered reads).1++rest (readString stop buffered reads).2.2 =
        buffered++reads.flatten ∧
      tailLines 1 (buffered++reads.flatten)=rest (readString stop buffered reads).2.2 := by
  induction reads with
  | nil =>
    intro buffered
    rw [flatten_nil,append_nil]
    unfold readString
    cases hcut : cutLine buffered with
    | none => exact ⟨append_nil _,tailLines_uncut hcut 0⟩
    | some r =>
      refine ⟨?_,(tailLines_cut hcut 0).trans (append_nil _).symm⟩
      rw [cutLine_append hcut]
      exact congrArg (r.1++·) (append_nil _)
  | cons c cs ih =>
    intro buffered
    unfold readString
    cases hcut : cutLine buffered with
    | none =>
      have hc := ih (buffered++c)
      rw [append_assoc] at hc
      exact hc
    | some r =>
      refine ⟨?_,tailLines_cut (cutLine_concat hcut _) 0⟩
      rw [cutLine_append hcut]
      exact (append_assoc _ _ _).symm

/-- What taking a line does to the line ahead and to the offset of the source. -/
structure Taken (v w : Vm) : Prop where
  all : rest v.input=ahead w++rest w.input
  next : tailLines 1 (rest v.input)=rest w.input
  lineno : w.lineno=v.lineno+1
  source : w.source=v.source.map (·+(w.unread-v.input.buffered.length : ℤ))

/-- The line ahead is the line that was read. -/
theorem ahead_eq (hnxtl : w.nxtl=if line.getLast?=some newline then line.dropLast else line)
    (hNL : w.nxtlNL=decide (line.getLast?=some newline)) : ahead w=line := by
  unfold ahead
  rw [hnxtl,hNL]
  by_cases h : line.getLast?=some newline
  · rw [if_pos h,if_pos (by simp [h])]
    exact dropLast_append_getLast? _ h
  · rw [if_neg h,if_neg (by simp [h])]
    exact append_nil line

theorem taken_intro (hall : line++rest w.input=rest v.input)
    (hnext : tailLines 1 (rest v.input)=rest w.input)
    (hnxtl : w.nxtl=if line.getLast?=some newline then line.dropLast else line)
    (hNL : w.nxtlNL=decide (line.getLast?=some newline)) (hline : w.lineno=v.lineno+1)
    (hsource : w.source=v.source.map
      (·+(line.length+w.input.buffered.length-v.input.buffered.length : ℤ))) : Taken v w := by
  have hahead := ahead_eq hnxtl hNL
  refine ⟨by rw [hahead,hall],hnext,hline,?_⟩
  rw [hsource,length_ahead,hahead,Nat.cast_add,Int.add_comm line.length]

theorem taken_fetch (v : Vm) : Taken v (final (fetch v)) := by
  obtain ⟨hall,hnext⟩ := readString_spec v.input.stop v.input.reads v.input.buffered
  unfold fetch
  rw [run_get_bind]
  generalize readString v.input.stop v.input.buffered v.input.reads=r at hall hnext
  obtain ⟨line,err,input⟩ := r
  dsimp only at hall hnext ⊢
  rw [run_modify_bind]
  split <;> exact taken_intro hall hnext rfl rfl rfl rfl

/-- The machine has consumed a line of `text` for each number; the source is after the rest read. -/
structure Ahead (text : Bytes) (start : ℕ) (v : Vm) : Prop where
  primed : Primed v
  all : tailLines v.lineno.toNat text=ahead v++rest v.input
  next : tailLines (v.lineno.toNat+1) text=rest v.input
  source : v.source=some (start+(headLines v.lineno.toNat text).length+v.unread : ℤ)

section
variable {text : Bytes} {start : ℕ}

/-- The lines consumed grow by the line ahead. -/
theorem Ahead.length_headLines (h : Ahead text start v) :
    (headLines (v.lineno.toNat+1) text).length =
      (headLines v.lineno.toNat text).length+(ahead v).length := by
  have hhead := congrArg length (headLines_append_tailLines v.lineno.toNat text)
  have hsucc := congrArg length (headLines_append_tailLines (v.lineno.toNat+1) text)
  rw [h.all] at hhead
  rw [h.next] at hsucc
  simp only [length_append] at hhead hsucc
  omega

theorem Ahead.taken (h : Ahead text start v) (hw : Taken v w) : Ahead text start w := by
  have hprimed : 0≤v.lineno := h.primed
  have hline : w.lineno.toNat=v.lineno.toNat+1 := by
    rw [hw.lineno]
    omega
  refine ⟨?_,?_,?_,?_⟩
  · change 0≤w.lineno
    omega
  · rw [hline,h.next,hw.all]
  · rw [hline,tailLines_succ,h.next,hw.next]
  · rw [hline,h.length_headLines,hw.source,h.source,length_ahead v]
    simp only [Option.map_some,Option.some.injEq]
    omega

/-- The machine with the first line ahead. -/
theorem ahead_primed (reads : List Bytes) (stop : Option Bytes) :
    Ahead reads.flatten start (primed { reads,stop } (some start)) := by
  have hw := taken_fetch (wrap { reads,stop } (some start))
  rw [←cmdFillNext_wrap] at hw
  have hline : (primed { reads,stop } (some start)).lineno=0 := hw.lineno
  refine ⟨primed_primed _ _,?_,?_,?_⟩
  · rw [hline]
    exact hw.all
  · rw [hline]
    exact hw.next
  · rw [hline]
    refine hw.source.trans (congrArg some ?_)
    rfl

end

/-- The part of the machine that says how far the input was read. -/
def reading (v : Vm) : Bytes×Bool×Input×Option ℤ×ℤ :=
  (v.nxtl,v.nxtlNL,v.input,v.source,v.lineno)

theorem Ahead.of_reading {text : Bytes} {start : ℕ} (h : Ahead text start v)
    (hw : reading w=reading v) : Ahead text start w := by
  simp only [reading,Prod.mk.injEq] at hw
  obtain ⟨hnxtl,hNL,hinput,hsource,hline⟩ := hw
  have hahead : ahead w=ahead v := by
    unfold ahead
    rw [hnxtl,hNL]
  refine ⟨?_,?_,?_,?_⟩
  · change 0≤w.lineno
    rw [hline]
    exact h.primed
  · rw [hline,hahead,hinput]
    exact h.all
  · rw [hline,hinput]
    exact h.next
  · rw [hsource,hline,length_ahead,hahead,hinput,←length_ahead]
    exact h.source

theorem keeps_flush : Keeps reading flush := by
  intro v
  cases hv : v.appl with
  | none =>
    rw [run_flush_none hv]
    rfl
  | some text =>
    rw [run_flush_some hv]
    split <;> rfl

theorem reading_effect {k : Option ℕ} (h : Effect k v w) : reading w=reading v := by
  induction h with
  | refl => rfl
  | apart _ ha ih =>
    obtain ⟨h₁,h₂,h₃,h₄,h₅⟩ := ha.input
    rw [←ih]
    simp [reading,h₁,h₂,h₃,h₄,h₅]
  | write _ _ ih => exact ih

/-- The instructions that can end the run as at the end of the file are those that read. -/
theorem keeps_exec (host : Host) {i : Instr} (h : ¬ Instr.Stops i) :
    Keeps reading (exec host i) := by
  by_cases hs : Instr.Special i
  · obtain ⟨t,ht⟩ := exec_queues host hs h
    rw [ht]
    refine keeps_modify_bind (fun _ => rfl) (keeps_get.bind fun v => ?_)
    cases t v with
    | some text => exact keeps_modify fun _ => rfl
    | none => exact keeps_pure _
  · exact fun v => reading_effect ((mild_exec host hs h).effect v)

def isQuit : Instr→Bool
  | .quit => true
  | _ => false

def rewound (v : Vm) : Vm :=
  { v with source := v.source.map fun off : ℤ => if v.unread≤off then off-v.unread else off }

theorem exec_quit (host : Host) {i : Instr} (h : isQuit i=true) (v : Vm) :
    i=.quit ∧ exec host i v=.error .eof (rewound v) := by
  cases i with
  | quit => exact ⟨rfl,rfl⟩
  | _ => cases h

section
variable {host : Host} {text : Bytes} {start : ℕ} {i : Instr}

theorem preserves_ahead_fetch : Preserves (Ahead text start) fetch :=
  fun v h => h.taken (taken_fetch v)

theorem preserves_ahead_fill : Preserves (Ahead text start) cmdFillNext := by
  refine Preserves.bind (fun v h => h.of_reading (keeps_flush v)) fun _ => ?_
  exact preserves_get.bind fun v => (preserves_throw _).ite preserves_ahead_fetch

/-- Every other instruction keeps the account of the input. -/
theorem preserves_ahead_exec (host : Host) (h : isQuit i=false) :
    Preserves (Ahead text start) (exec host i) := by
  by_cases hs : Instr.Stops i
  · cases i with
    | fillNext => exact preserves_ahead_fill
    | fillNextAppend =>
      exact preserves_get.bind fun _ => preserves_ahead_fill.bind fun _ =>
        preserves_modify fun v hv => hv.of_reading rfl
    | quit => cases h
    | _ => exact absurd hs id
  · exact fun v hv => hv.of_reading (keeps_exec host hs v)

theorem cmdFillNext_eof (h : cmdFillNext v=.error .eof w) : w.ip=v.ip := by
  have hip : Keeps Vm.ip flush := by
    intro v
    cases hv : v.appl with
    | none => rw [run_flush_none hv]; rfl
    | some text =>
      rw [run_flush_some hv]
      split <;> rfl
  rcases bind_error.mp h with hflush | ⟨_,t,hflush,hrefill⟩
  · exact hip.error hflush
  have hrun : refill t=(if t.lastl then throw Err.eof else fetch : Sed Unit) t := rfl
  rw [hrun] at hrefill
  split at hrefill
  · cases hrefill
    exact hip.ok hflush
  · exact absurd rfl (throws_fetch _ _ _ hrefill)

/-- A run that ends as at the end of the file elsewhere does not stand at `q`. -/
theorem exec_eof_ip (h : isQuit i=false) (hx : exec host i v=.error .eof w) : w.ip=v.ip := by
  by_cases hs : Instr.Stops i
  · cases i with
    | fillNext => exact cmdFillNext_eof hx
    | fillNextAppend =>
      have hrun : exec host .fillNextAppend v=(cmdFillNext >>= fun _ =>
          modify fun w => { w with pat := v.pat++newline::w.pat }) v := rfl
      rw [hrun] at hx
      rcases bind_error.mp hx with hfill | ⟨_,t,-,hmodify⟩
      · exact cmdFillNext_eof hfill
      · cases hmodify
    | quit => cases h
    | _ => exact absurd hs id
  · exact absurd rfl (throws_exec host hs _ _ _ hx)

end

section
variable (host : Host) (ins : List Instr)

/-- The machine when the loop of `Read` comes to `q`. -/
def comesToQuit : ℕ→Vm→Option Vm
  | 0,_ => none
  | fuel+1,v => do
    let i ← ins[v.ip]?
    if isQuit i then some v
    else
      match exec host i v with
      | .ok _ v => comesToQuit fuel v
      | .error _ _ => none

/-- The machine when the loop comes to `q`, unless what comes before it ended in an error. -/
def comesFrom (fuel : ℕ) : EStateM.Result Err Vm Unit→Option Vm
  | .ok _ v => comesToQuit host ins fuel v
  | .error _ _ => none

def readToQuit (fuel size : ℕ) (v : Vm) : Option Vm :=
  comesFrom host ins fuel (opening (put { v.out with room := some size,sent := [] } v))

/-- The machine when `q` is first executed, in reads with buffers of these sizes. -/
def firstQuit : ℕ→(ℕ→ℕ)→Vm→Option Vm
  | 0,_,_ => none
  | fuel+1,sizes,v =>
    match readToQuit host ins (fuel+1) (sizes 0) v with
    | some w => some w
    | none => do
      let (_,err,v) ← read host ins (fuel+1) (sizes 0) v
      if err.isSome then none else firstQuit fuel (fun i => sizes (i+1)) v

end

variable {sizes : ℕ→ℕ} {bytes : Bytes}

section
variable {host : Host} {ins : List Instr} {text sent : Bytes} {start fuel size : ℕ} {v' : Vm}
  {err : Option Err}

/-- The loop of a read either comes to `q`, and executes it, or ends elsewhere. -/
theorem readLoop_quit {e : Err} (hv : Ahead text start v)
    (h : readLoop host ins fuel v=some (e,v')) :
    (comesToQuit host ins fuel v=none ∧ Ahead text start v' ∧ (e=.eof→ins[v'.ip]?≠some .quit)) ∨
    ∃w,comesToQuit host ins fuel v=some w ∧ Ahead text start w ∧ ins[w.ip]?=some .quit ∧
      e=.eof ∧ v'=rewound w := by
  induction fuel generalizing v with
  | zero => cases h
  | succ fuel ih =>
    obtain ⟨i,hi,h⟩ := Option.bind_eq_some_iff.mp h
    have hcomes : comesToQuit host ins (fuel+1) v=if isQuit i then some v else
        match exec host i v with
        | .ok _ v => comesToQuit host ins fuel v
        | .error _ _ => none := by
      rw [comesToQuit,hi]
      rfl
    rw [hcomes]
    cases hq : isQuit i with
    | true =>
      obtain ⟨rfl,hx⟩ := exec_quit host hq v
      cases h
      exact .inr ⟨v,rfl,hv,hi,rfl,rfl⟩
    | false =>
      have hw := preserves_ahead_exec host hq v hv
      cases hx : exec host i v with
      | ok a w =>
        rw [hx] at h hw
        exact ih hw h
      | error e' w =>
        rw [hx] at h hw
        cases h
        refine .inl ⟨rfl,hw,?_⟩
        rintro rfl hquit
        rw [exec_eof_ip hq hx,hi] at hquit
        cases hquit
        cases hq

theorem pour_cases (s : Bytes) (o : Out) (v : Vm) :
    ∃o',pour s (put o v)=.error .fullBuffer (put o' v) ∨ pour s (put o v)=.ok () (put o' v) := by
  refine ⟨(o.write s).2,?_⟩
  rw [run_pour]
  cases (put o v).out.write s with
  | mk full o' => cases full <;> simp

theorem readToQuit_primed (hv : Primed v) : readToQuit host ins fuel size v =
    comesFrom host ins fuel (pour v.out.overflow (put { room := some size } v)) := by
  rw [readToQuit,opening_primed hv]

/-- What a read does once the text that did not fit the one before is out. -/
theorem read_primed (hv : Primed v) (h : SedVm.read host ins fuel size v=some (sent,err,v')) :
    ∃e,readFrom host ins fuel (pour v.out.overflow (put { room := some size } v)) =
      some (e,v') ∧ sent=v'.out.sent ∧ err=readError e sent := by
  obtain ⟨⟨e,x⟩,hloop,hres⟩ := Option.map_eq_some_iff.mp h
  rw [opening_primed hv] at hloop
  cases hres
  exact ⟨e,hloop,rfl,rfl⟩

/-- A read comes to `q` and executes it, or returns elsewhere. -/
theorem read_quit (hv : Ahead text start v)
    (h : SedVm.read host ins fuel size v=some (sent,err,v')) :
    (readToQuit host ins fuel size v=none ∧ Ahead text start v' ∧
      (err=some .eof→ins[v'.ip]?≠some .quit)) ∨
    ∃w,readToQuit host ins fuel size v=some w ∧ Ahead text start w ∧ ins[w.ip]?=some .quit ∧
      sent=w.out.sent ∧ err=readError .eof sent ∧ v'=rewound w := by
  obtain ⟨e,hloop,hsent,herr⟩ := read_primed hv.primed h
  rw [readToQuit_primed hv.primed]
  obtain ⟨o,hpour | hpour⟩ := pour_cases v.out.overflow { room := some size } v
  · -- the text left from the reads before fills the buffer
    rw [hpour] at hloop ⊢
    cases hloop
    refine .inl ⟨rfl,hv.of_reading rfl,fun heof => ?_⟩
    rw [herr] at heof
    cases (readError_eof heof).1
  · rw [hpour] at hloop ⊢
    have hput : Ahead text start (put o v) := hv.of_reading rfl
    rcases readLoop_quit hput hloop with ⟨hcomes,hv',hip⟩ | ⟨w,hcomes,hw,hq,rfl,rfl⟩
    · refine .inl ⟨hcomes,hv',fun heof => hip ?_⟩
      rw [herr] at heof
      exact (readError_eof heof).1
    · exact .inr ⟨w,hcomes,hw,hq,hsent,herr,rfl⟩

theorem readLoop_parked {e : Err} (hq : ins[v.ip]?=some .quit)
    (h : readLoop host ins fuel v=some (e,v')) : v'=rewound v := by
  cases fuel with
  | zero => cases h
  | succ fuel =>
    obtain ⟨i,hi,h⟩ := Option.bind_eq_some_iff.mp h
    cases hq.symm.trans hi
    cases h
    rfl

/-- A read of a machine at `q` hands out what is left and executes `q`, or is filled by it. -/
theorem read_parked (hq : ins[v.ip]?=some .quit) (hv : Primed v)
    (h : SedVm.read host ins fuel size v=some (sent,err,v')) :
    ∃o,v'=put o v ∧ err≠some .eof ∨ v'=rewound (put o v) := by
  obtain ⟨e,hloop,hsent,herr⟩ := read_primed hv h
  obtain ⟨o,hpour | hpour⟩ := pour_cases v.out.overflow { room := some size } v
  · rw [hpour] at hloop
    cases hloop
    refine ⟨o,.inl ⟨rfl,fun heof => ?_⟩⟩
    rw [herr] at heof
    cases (readError_eof heof).1
  · rw [hpour] at hloop
    exact ⟨o,.inr (readLoop_parked hq hloop)⟩

/-- The offset after the reads of a machine at `q`: each `q` goes back again, as far as it can. -/
def Slips (unread : ℕ) (off off' : ℤ) : Prop :=
  if unread=0 ∨ off<unread then off'=off else off'≤off-unread

theorem slips_rewind (unread : ℕ) (off : ℤ) :
    Slips unread off (if unread≤off then off-unread else off) := by
  unfold Slips
  split_ifs <;> omega

theorem Slips.trans {unread : ℕ} {off off' off'' : ℤ} (h : Slips unread off off')
    (h' : Slips unread off' off'') : Slips unread off off'' := by
  unfold Slips at h h' ⊢
  split_ifs at h h' ⊢ <;> omega

theorem readAll_parked {off : ℤ}
    (hq : ins[v.ip]?=some .quit) (hv : Primed v) (hsource : v.source=some off)
    (h : readAll host ins fuel sizes v=some (bytes,.eof,v')) :
    v'.lineno=v.lineno ∧ ∃off',v'.source=some off' ∧ Slips v.unread off off' := by
  induction fuel generalizing v sizes bytes off with
  | zero => cases h
  | succ fuel ih =>
    obtain ⟨⟨sent,err,w⟩,hread,hrest⟩ := Option.bind_eq_some_iff.mp h
    obtain ⟨o,⟨rfl,herr⟩ | rfl⟩ := read_parked hq hv hread
    · cases err with
      | some e =>
        cases hrest
        exact absurd rfl herr
      | none =>
        obtain ⟨⟨bytes',e',x⟩,hr,hres⟩ := Option.map_eq_some_iff.mp hrest
        cases hres
        exact ih (v := put o v) hq hv hsource hr
    · have hback : (rewound (put o v)).source =
          some (if v.unread≤off then off-v.unread else off) := by
        change v.source.map _=_
        rw [hsource]
        rfl
      have hslips := slips_rewind v.unread off
      cases err with
      | some e =>
        cases hrest
        exact ⟨rfl,_,hback,hslips⟩
      | none =>
        obtain ⟨⟨bytes',e',x⟩,hr,hres⟩ := Option.map_eq_some_iff.mp hrest
        cases hres
        obtain ⟨hline,off',hoff',hslips'⟩ := ih (v := rewound (put o v)) hq hv hback hr
        exact ⟨hline,off',hoff',hslips.trans hslips'⟩

/-- The source stands right after the lines that were consumed. -/
def LeavesRest (text : Bytes) (start : ℕ) (v : Vm) : Prop :=
  v.source=some (start+(headLines v.lineno.toNat text).length : ℤ)

/-- What `q` needs of the machine that comes to it: the read has no bytes to return, nothing was
read ahead, or there is no going back as far again. -/
def QuitsOnce (text : Bytes) (start : ℕ) (w : Vm) : Prop :=
  w.out.sent=[] ∨ w.unread=0 ∨ start+(headLines w.lineno.toNat text).length<w.unread

theorem Ahead.rewound {w : Vm} (h : Ahead text start w) :
    (rewound w).source=some (start+(headLines w.lineno.toNat text).length : ℤ) := by
  change w.source.map _=_
  rw [h.source,Option.map_some]
  exact congrArg some (by omega)

theorem readAll_quit (hv : Ahead text start v)
    (h : readAll host ins fuel sizes v=some (bytes,.eof,v')) (hq : ins[v'.ip]?=some .quit) :
    ∃w,firstQuit host ins fuel sizes v=some w ∧
      (LeavesRest text start v' ↔ QuitsOnce text start w) := by
  induction fuel generalizing v sizes bytes with
  | zero => cases h
  | succ fuel ih =>
    obtain ⟨⟨sent,err,x⟩,hread,hrest⟩ := Option.bind_eq_some_iff.mp h
    rcases read_quit hv hread with ⟨hnone,hx,hip⟩ | ⟨w,hw,hahead,hwq,hsent,herr,rfl⟩
    · cases err with
      | some e =>
        cases hrest
        exact absurd hq (hip rfl)
      | none =>
        obtain ⟨⟨bytes',e',y⟩,hr,hres⟩ := Option.map_eq_some_iff.mp hrest
        cases hres
        obtain ⟨w,hw,hiff⟩ := ih hx hr
        refine ⟨w,?_,hiff⟩
        rw [firstQuit,hnone,hread]
        exact hw
    · refine ⟨w,by rw [firstQuit,hw],?_⟩
      cases err with
      | some e =>
        cases hrest
        have hnil : w.out.sent=[] := hsent ▸ (readError_eof herr.symm).2
        exact iff_of_true hahead.rewound (.inl hnil)
      | none =>
        obtain ⟨⟨bytes',e',y⟩,hr,hres⟩ := Option.map_eq_some_iff.mp hrest
        cases hres
        have hne : w.out.sent≠[] := by
          intro hnil
          rw [hsent,hnil] at herr
          cases herr
        obtain ⟨hline,off,hoff,hslips⟩ :=
          readAll_parked (v := rewound w) hwq hahead.primed hahead.rewound hr
        have hline : v'.lineno=w.lineno := hline
        change Slips w.unread _ off at hslips
        unfold LeavesRest QuitsOnce Slips at *
        rw [hoff,hline,Option.some.injEq,or_iff_right hne]
        split at hslips <;> omega

end

/-- A run that executes `q` leaves a seekable source right after the lines it consumed exactly if
the read that first came to `q` had nothing to return, or going back once more changes nothing. -/
theorem quit_leavesRest_iff {host : Host} {ins : List Instr} {reads : List Bytes}
    {stop : Option Bytes} {start fuel : ℕ} {v : Vm}
    (h : readAll host ins fuel sizes (wrap { reads,stop } (some start))=some (bytes,.eof,v))
    (hq : ins[v.ip]?=some .quit) :
    ∃w,firstQuit host ins fuel sizes (wrap { reads,stop } (some start))=some w ∧
      (LeavesRest reads.flatten start v ↔ QuitsOnce reads.flatten start w) := by
  cases fuel with
  | zero => cases h
  | succ fuel =>
    have hahead : Ahead reads.flatten start (primed { reads,stop } (some start)) :=
      ahead_primed reads stop
    cases hfill : cmdFillNext (wrap { reads,stop } (some start)) with
    | ok a w =>
      have hread := read_filled host ins { reads,stop } (some start) hfill (fuel+1) (sizes 0)
      have hopen := opening_filled { reads,stop } (some start) hfill (sizes 0)
      have hall : readAll host ins (fuel+1) sizes (wrap { reads,stop } (some start)) =
          readAll host ins (fuel+1) sizes (primed { reads,stop } (some start)) := by
        simp [readAll,hread]
      have hfirst : firstQuit host ins (fuel+1) sizes (wrap { reads,stop } (some start)) =
          firstQuit host ins (fuel+1) sizes (primed { reads,stop } (some start)) := by
        simp [firstQuit,readToQuit,hread,hopen]
      rw [hall] at h
      rw [hfirst]
      exact readAll_quit hahead h hq
    | error e w =>
      obtain ⟨text,hr⟩ := read_unfilled host ins { reads,stop } (some start) hfill
      simp only [readAll,hr] at h
      cases h

def quietQuit : List Instr := [.fillNext,.quit,.branch 0]

def printQuit : List Instr := [.fillNext,.print,.quit,.print,.branch 0]

/-- Without output the second and the third line are left. -/
theorem quit_leavesRest_quiet : ∃v,
    readAll {} quietQuit 9 (fun _ => 512) (wrap { reads := [ascii "A\nB\nC\n"] } (some 0)) =
      some ([],.eof,v) ∧ quietQuit[v.ip]?=some .quit ∧ LeavesRest (ascii "A\nB\nC\n") 0 v := by
  have hrun : (readAll {} quietQuit 9 (fun _ => 512)
      (wrap { reads := [ascii "A\nB\nC\n"] } (some 0))).map (fun r => (r.1,r.2.1,r.2.2.ip)) =
        some ([],.eof,1) := by decide
  obtain ⟨⟨bytes,e,v⟩,hr,hres⟩ := Option.map_eq_some_iff.mp hrun
  obtain ⟨rfl,rfl,hip⟩ : bytes=[] ∧ e=.eof ∧ v.ip=1 := by simpa using hres
  have hq : quietQuit[v.ip]?=some .quit := by
    rw [hip]
    rfl
  obtain ⟨w,hw,hiff⟩ := quit_leavesRest_iff hr hq
  refine ⟨v,hr,hq,hiff.mpr (.inl ?_)⟩
  have hsent : (firstQuit {} quietQuit 9 (fun _ => 512)
      (wrap { reads := [ascii "A\nB\nC\n"] } (some (0 : ℕ)))).map (fun w => w.out.sent) =
        some [] := by decide
  rw [hw] at hsent
  simpa using hsent

/-- The first of the lines `AAAA` and `B` is put out, and `q` executed twice: the source stands at
offset 3, inside the line consumed. -/
theorem not_leavesRest_printed : ∃v,
    readAll {} printQuit 9 (fun _ => 512) (wrap { reads := [ascii "AAAA\nB\n"] } (some 0)) =
      some (ascii "AAAA\n",.eof,v) ∧ printQuit[v.ip]?=some .quit ∧ v.source=some 3 ∧
      ¬ LeavesRest (ascii "AAAA\nB\n") 0 v := by
  have hrun : (readAll {} printQuit 9 (fun _ => 512)
      (wrap { reads := [ascii "AAAA\nB\n"] } (some 0))).map
        (fun r => (r.1,r.2.1,r.2.2.ip,r.2.2.source,r.2.2.lineno)) =
        some (ascii "AAAA\n",.eof,2,some 3,1) := by decide
  obtain ⟨⟨bytes,e,v⟩,hr,hres⟩ := Option.map_eq_some_iff.mp hrun
  obtain ⟨rfl,rfl,hip,hsource,hline⟩ :
      bytes=ascii "AAAA\n" ∧ e=.eof ∧ v.ip=2 ∧ v.source=some 3 ∧ v.lineno=1 := by
    simpa using hres
  refine ⟨v,hr,?_,hsource,?_⟩
  · rw [hip]
    rfl
  · unfold LeavesRest
    rw [hsource,hline]
    decide

end Coreutils.SedOffsets
