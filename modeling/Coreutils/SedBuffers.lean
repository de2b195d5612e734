import Coreutils.SedVm

/-!
# Instructions and the buffer they write to

An instruction run against the buffer of a caller is compared with its run against a buffer without
an end. It does the same to the rest of the machine and gives the buffer the same text, unless a
full buffer ends it with work left: `l` on a pattern space of several lines, and `s` that prints and
then writes to a file.
-/

namespace Coreutils.SedBuffers
open List GoText Programs SedVm

abbrev put (o : Out) (v : Vm) : Vm := { v with out := o }

abbrev note (a : Act) (v : Vm) : Vm := { v with trace := v.trace++[a] }

structure Silent {α : Type} (m : Sed α) : Prop where
  blind : Blind put m
  throws : Throws (·≠.fullBuffer) m

section
variable {α β : Type} {m : Sed α} {f : α→Sed β}

theorem silent_pure (a : α) : Silent (pure a) := ⟨blind_pure a,throws_pure a⟩

theorem silent_throw {e : Err} (he : e≠.fullBuffer) : Silent (throw e : Sed α) :=
  ⟨blind_throw e,throws_throw he⟩

theorem silent_modify {g : Vm→Vm} (h : ∀o v,g (put o v)=put o (g v)) :
    Silent (modify g : Sed Unit) := ⟨blind_modify h,throws_modify g⟩

theorem Silent.bind (hm : Silent m) (hf : ∀a,Silent (f a)) : Silent (m >>= f) :=
  ⟨hm.blind.bind fun a => (hf a).blind,hm.throws.bind fun a => (hf a).throws⟩

theorem silent_get_bind {f : Vm→Sed β} (h : ∀o v,f (put o v)=f v) (hf : ∀v,Silent (f v)) :
    Silent (get >>= f) :=
  ⟨blind_get_bind h fun v => (hf v).blind,throws_get.bind fun v => (hf v).throws⟩

theorem Silent.ite {c : Prop} [Decidable c] {n : Sed α} (hm : Silent m) (hn : Silent n) :
    Silent (if c then m else n) :=
  ⟨hm.blind.ite hn.blind,hm.throws.ite hn.throws⟩

end

variable {α : Type}

theorem silent_orFail (r : Except Bytes α) : Silent (orFail r) := by
  cases r with
  | ok a => exact silent_pure a
  | error text => exact silent_throw (by simp)

theorem silent_advance : Silent advance := silent_modify fun _ _ => rfl

theorem silent_jump (target : ℕ) : Silent (jump target) := silent_modify fun _ _ => rfl

theorem silent_queue (text : Bytes) : Silent (queue text) := silent_modify fun _ _ => rfl

theorem silent_fetch : Silent fetch := by
  refine silent_get_bind (fun _ _ => rfl) fun v => ?_
  refine (silent_modify fun _ _ => rfl).bind fun _ => ?_
  split
  · exact silent_throw (by simp)
  · exact silent_pure _

variable (host : Host) {i : Instr}

theorem silent_writeFile (filename text : Bytes) : Silent (writeFile host filename text) := by
  refine silent_get_bind (fun _ _ => rfl) fun v => ?_
  refine (silent_modify fun _ _ => rfl).bind fun _ => ?_
  split
  · exact silent_throw (by simp)
  · exact silent_pure _

theorem silent_isMet (target : ℤ) (c : Cond) : Silent (isMet target c) := by
  cases c with
  | number | relative | eof => exact silent_get_bind (fun _ _ => rfl) fun _ => silent_pure _
  | regexp re null =>
    refine silent_get_bind (fun _ _ => rfl) fun v => (silent_orFail _).bind fun _ => ?_
    exact (silent_modify fun _ _ => rfl).bind fun _ => silent_pure _

theorem silent_cmdTwocond (id : ℕ) (start stop : Cond) (metloc unmetloc : ℕ) :
    Silent (cmdTwocond id start stop metloc unmetloc) := by
  refine silent_get_bind (fun _ _ => rfl) fun v => ?_
  refine Silent.ite ?_ ?_
  · exact (silent_isMet _ _).bind fun _ =>
      (silent_modify fun _ _ => rfl).ite (silent_modify fun _ _ => rfl)
  · exact (silent_isMet _ _).bind fun _ =>
      (silent_modify fun _ _ => rfl).ite (silent_modify fun _ _ => rfl)

theorem silent_cmdReader (filename : Bytes) : Silent (cmdReader host filename) := by
  refine silent_advance.bind fun _ => silent_get_bind (fun _ _ => rfl) fun v => ?_
  cases host.readFile v.writes filename with
  | some text => exact silent_queue text
  | none => exact silent_pure _

theorem silent_cmdDeleteFirstLine : Silent cmdDeleteFirstLine := by
  refine silent_modify fun o v => ?_
  split <;> rfl

def Instr.Writes : Instr→Prop
  | .print | .printFirstLine | .lineno | .list | .fillNext | .fillNextAppend => True
  | .changer _ _ | .inserter _ | .substitute _ => True
  | _ => False

theorem silent_exec (h : ¬ Instr.Writes i) : Silent (exec host i) := by
  cases i with
  | quit => exact (silent_modify fun _ _ => rfl).bind fun _ => silent_throw (by simp)
  | changedBranch target =>
    refine silent_get_bind (fun _ _ => rfl) fun _ => Silent.ite ?_ silent_advance
    exact silent_modify fun _ _ => rfl
  | deleteFirstLine => exact silent_cmdDeleteFirstLine
  | simplecond cond metloc unmetloc =>
    exact (silent_isMet 0 cond).bind fun _ => (silent_jump metloc).ite (silent_jump unmetloc)
  | twocond id start stop metloc unmetloc => exact silent_cmdTwocond id start stop metloc unmetloc
  | appender text => exact silent_advance.bind fun _ => silent_queue text
  | reader filename => exact silent_cmdReader host filename
  | writer filename =>
    exact silent_advance.bind fun _ => silent_get_bind (fun _ _ => rfl) fun v =>
      silent_writeFile host filename v.pat
  | swap | get | hold | getapp | holdapp | branch | translate => exact silent_modify fun _ _ => rfl
  | print | printFirstLine | lineno | list | fillNext | fillNextAppend => exact absurd trivial h
  | changer | inserter | substitute => exact absurd trivial h

def stream (o : Out) : Bytes := o.sent++o.overflow

structure Fits (size : ℕ) (o : Out) : Prop where
  room : o.room=some (size-o.sent.length)
  le : o.sent.length ≤ size
  full : o.overflow≠[] → o.sent.length=size

section
variable {size : ℕ} {o : Out} {s : Bytes}

theorem fits_write (h : Fits size o) (s : Bytes) :
    Fits size (o.write s).2 ∧ stream (o.write s).2=stream o++s := by
  have hle := h.le
  unfold Out.write
  rw [h.room]
  dsimp only
  split
  · refine ⟨⟨?_,?_,?_⟩,?_⟩
    · simp; omega
    · simp; omega
    · simp; omega
    · have hov : o.overflow=[] ∨ size-o.sent.length=0 := by
        by_cases ho : o.overflow=[]
        · exact .inl ho
        · exact .inr (by have := h.full ho; omega)
      rcases hov with hov | hov
      · simp [stream,hov]
      · simp [stream,hov]
  · have hov : o.overflow≠[]→s=[] := fun ho => by
      have := h.full ho
      exact eq_nil_of_length_eq_zero (by omega)
    refine ⟨⟨?_,?_,?_⟩,?_⟩
    · simp; omega
    · simp; omega
    · intro ho
      have hs := hov ho
      have := h.full ho
      simpa [hs] using this
    · by_cases ho : o.overflow=[]
      · simp [stream,ho]
      · simp [stream,hov ho]

theorem write_full (h : (o.write s).1=true) : (o.write s).2.overflow≠[] := by
  unfold Out.write at h ⊢
  split at h
  · simp at h
  · split at h
    · rename_i hlt
      simp [hlt]
    · simp at h

theorem write_nil (o : Out) : (o.write []).1=false := by
  unfold Out.write
  cases o.room <;> rfl

/-- Text that is kept back though a text fitted was kept back before it, and the text is empty. -/
theorem write_fitted (h : Fits size o) (hw : (o.write s).1=false)
    (ho : (o.write s).2.overflow≠[]) : o.overflow≠[] ∧ s=[] := by
  unfold Out.write at hw ho
  rw [h.room] at hw ho
  dsimp only at hw ho
  split at hw
  · simp at hw
  · rename_i hlt
    rw [if_neg hlt] at ho
    have hfull := h.full ho
    exact ⟨ho,eq_nil_of_length_eq_zero (by omega)⟩

end

/-- The buffer was given a text. If some of it is kept back and the program went on, the program did
not look whether it fits, or there was none and other text was kept back. -/
structure Given (size : ℕ) (o o' : Out) (text : Bytes) (careless : Prop) : Prop where
  fits : Fits size o'
  stream : stream o'=stream o++text
  kept : o'.overflow≠[]→careless ∨ (o.overflow≠[] ∧ text=[])

/-- A run against the buffer `o` next to the run against a buffer without an end. -/
inductive Tracks {α : Type} (size : ℕ) (o : Out) (careless : Prop) :
    EStateM.Result Err Vm α→EStateM.Result Err Vm α→Prop
  | ok {a : α} {w : Vm} {o' : Out} :
      Given size o o' w.out.sent careless→Tracks size o careless (.ok a (put o' w)) (.ok a w)
  | full {a : α} {w : Vm} {o' : Out} :
      Fits size o'→stream o'=stream o++w.out.sent → o'.overflow≠[]→
      Tracks size o careless (.error .fullBuffer (put o' w)) (.ok a w)
  | error {e : Err} {w : Vm} {o' : Out} :
      e≠.fullBuffer→Given size o o' w.out.sent careless→
      Tracks size o careless (.error e (put o' w)) (.error e w)

def Steady {α : Type} (m : Sed α) (v : Vm) (careless : Prop) : Prop :=
  ∀size o,Fits size o→Tracks size o careless (m (put o v)) (m (put {} v))

variable {size : ℕ} {o : Out} {c c' : Prop} {v : Vm} {careless : Prop}

theorem Given.mono {o' : Out} {text : Bytes} (h : c→c')
    (hg : Given size o o' text c) : Given size o o' text c' :=
  ⟨hg.fits,hg.stream,fun ho => (hg.kept ho).imp_left h⟩

theorem Tracks.mono {r r' : EStateM.Result Err Vm α} (h : Tracks size o c r r') (hc : c→c') :
    Tracks size o c' r r' := by
  cases h with
  | ok hg => exact .ok (hg.mono hc)
  | full hf hs ho => exact .full hf hs ho
  | error he hg => exact .error he (hg.mono hc)

theorem Steady.mono {m : Sed α} (h : Steady m v c) (hc : c→c') : Steady m v c' :=
  fun size o ho => (h size o ho).mono hc

theorem given_nil (h : Fits size o) : Given size o o [] careless :=
  ⟨h,(append_nil _).symm,fun ho => .inr ⟨ho,rfl⟩⟩

section
variable {β : Type} {m : Sed α} {f : α→Sed β} {careless : Prop}

theorem Silent.steady (hm : Silent m) : Steady m v careless := by
  intro size o ho
  rw [hm.blind o v,hm.blind {} v]
  cases hr : m v with
  | ok a w => exact Tracks.ok (w := put {} w) (given_nil ho)
  | error e w => exact Tracks.error (w := put {} w) (hm.throws v e w hr) (given_nil ho)

theorem Silent.steady_bind (hm : Silent m) (hf : ∀a w,m v=.ok a w→Steady (f a) w careless) :
    Steady (m >>= f) v careless := by
  intro size o ho
  rw [run_bind,run_bind,hm.blind o v,hm.blind {} v]
  cases hr : m v with
  | ok a w => exact hf a w hr size o ho
  | error e w => exact Tracks.error (w := put {} w) (hm.throws v e w hr) (given_nil ho)

theorem steady_get_bind {f : Vm→Sed β} (h : ∀o v,f (put o v)=f v)
    (hf : Steady (f v) v careless) : Steady (get >>= f) v careless := by
  intro size o ho
  rw [run_get_bind,run_get_bind,h o,h {}]
  exact hf size o ho

theorem run_pour (s : Bytes) (v : Vm) :
    pour s v=if (v.out.write s).1 then .error .fullBuffer (put (v.out.write s).2 v)
      else .ok () (put (v.out.write s).2 v) := by
  change (if (v.out.write s).1 then throw Err.fullBuffer else pure () : Sed Unit)
    (put (v.out.write s).2 v)=_
  split <;> rfl

theorem run_emit (a : Act) (s : Bytes) (v : Vm) :
    emit a s v=if (v.out.write s).1 then .error .fullBuffer (put (v.out.write s).2 (note a v))
      else .ok () (put (v.out.write s).2 (note a v)) :=
  run_pour s (note a v)

theorem steady_writeString (s : Bytes) : Steady (writeString s) v careless := by
  intro size o ho
  obtain ⟨hfits,hstream⟩ := fits_write ho s
  unfold writeString
  rw [run_emit]
  split_ifs with hw
  · exact Tracks.full (w := put { sent := s } (note (.wrote s) v)) hfits hstream (write_full hw)
  · refine Tracks.ok (w := put { sent := s } (note (.wrote s) v))
      ⟨hfits,hstream,fun hover => .inr ?_⟩
    exact write_fitted ho (Bool.eq_false_iff.mpr hw) hover

theorem run_writeLine (text : Bytes) (nl : Bool) (v : Vm) : writeLine text nl v =
      if nl then writeString [newline] (put (v.out.write text).2 (note (.wrote text) v))
      else .ok () (put (v.out.write text).2 (note (.wrote text) v)) := by
  have hfirst : (tryCatch (writeString text) fun _ => pure () : Sed Unit) v =
      .ok () (put (v.out.write text).2 (note (.wrote text) v)) := by
    rw [run_tryCatch,writeString,run_emit]
    cases (v.out.write text).1 <;> rfl
  unfold writeLine
  rw [run_bind_ok hfirst]
  split <;> rfl

theorem steady_writeLine (text : Bytes) (nl : Bool) :
    Steady (writeLine text nl) v (nl=false ∧ text≠[]) := by
  intro size o ho
  obtain ⟨hfits,hstream⟩ := fits_write ho text
  rw [run_writeLine]
  cases nl with
  | false =>
    refine Tracks.ok (w := put { sent := text } (note (.wrote text) v))
      ⟨hfits,hstream,fun hover => ?_⟩
    by_cases ht : text=[]
    · subst ht
      exact .inr (write_fitted ho (write_nil o) hover)
    · exact .inl ⟨rfl,ht⟩
  | true =>
    obtain ⟨hfits',hstream'⟩ := fits_write hfits [newline]
    rw [hstream,append_assoc] at hstream'
    simp only [if_true,writeString,run_emit]
    split_ifs with hw
    · exact Tracks.full (w := put { sent := text++[newline] }
        (note (.wrote [newline]) (note (.wrote text) v))) hfits' hstream' (write_full hw)
    · refine Tracks.ok (w := put { sent := text++[newline] }
        (note (.wrote [newline]) (note (.wrote text) v))) ⟨hfits',hstream',fun hover => ?_⟩
      exact absurd (write_fitted hfits (Bool.eq_false_iff.mpr hw) hover).2 (by simp)

/-- A program that is never ended by a full buffer can be followed by a silent one. -/
theorem Steady.bind_silent {m : Sed Unit} {f : Unit→Sed β} (hm : Steady m v careless)
    (hfull : ∀o,∃w,m (put o v)=.ok () w) (hf : Silent (f ())) : Steady (m >>= f) v careless := by
  intro size o ho
  obtain ⟨w₁,hr₁⟩ := hfull o
  obtain ⟨w,hr⟩ := hfull {}
  have htracks := hm size o ho
  rw [hr₁,hr] at htracks
  rw [run_bind_ok hr₁,run_bind_ok hr]
  cases htracks with
  | @ok _ _ o' hgiven =>
    rw [hf.blind o' w]
    have hown : f () w=mapState (put w.out) (f () w) := hf.blind w.out w
    cases hres : f () w with
    | ok b x =>
      rw [hres,mapState_ok,EStateM.Result.ok.injEq] at hown
      have hout : x.out=(put w.out x).out := congrArg Vm.out hown.2
      exact Tracks.ok (hout ▸ hgiven)
    | error e x =>
      rw [hres,mapState_error,EStateM.Result.error.injEq] at hown
      have hout : x.out=(put w.out x).out := congrArg Vm.out hown.2
      exact Tracks.error (hf.throws w e x hres) (hout ▸ hgiven)

end

theorem run_writeLine_loose (text : Bytes) (o : Out) (v : Vm) :
    ∃w,writeLine text false (put o v)=.ok () w :=
  ⟨_,run_writeLine text false _⟩

section
variable {k : Sed Unit} {text : Bytes}

theorem run_flush_none (h : v.appl=none) : flush v=.ok () v := by
  change flushText v.appl v=_
  rw [h]
  rfl

abbrev emptied (text : Bytes) (v : Vm) : Vm := { note (.flushed text) v with appl := none }

theorem run_flush_some (h : v.appl=some text) : flush v=if (v.out.write text).1
      then .error .fullBuffer (put (v.out.write text).2 (emptied text v))
      else .ok () (put (v.out.write text).2 (emptied text v)) := by
  change flushText v.appl v=_
  rw [h]
  dsimp only [flushText,withDefer]
  rw [run_emit]
  cases (v.out.write text).1 <;> rfl

theorem run_flush_free (h : v.appl=some text) :
    flush (put {} v)=.ok () (put { sent := text } (emptied text v)) :=
  run_flush_some (v := put {} v) h

/-- With nothing queued, the rest of the program runs. -/
theorem Silent.steady_flush (hk : Silent k) (h : v.appl=none) :
    Steady (flush >>= fun _ => k) v careless := by
  intro size o ho
  rw [run_bind_ok (run_flush_none (v := put o v) h),run_bind_ok (run_flush_none (v := put {} v) h)]
  exact hk.steady size o ho

/-- Against a buffer without an end, queued text is put out and the rest of the program runs. -/
theorem Silent.run_flush_bind (hk : Silent k) (h : v.appl=some text) :
    (flush >>= fun _ => k) (put {} v) =
      mapState (put { sent := text }) ((flush >>= fun _ => k) (put {} (emptied text v))) := by
  rw [run_bind_ok (run_flush_free h),run_bind_ok (run_flush_none rfl),hk.blind,hk.blind]
  cases k (emptied text v) <;> rfl

/-- Queued text that does not fit ends the program before its rest. -/
theorem Silent.flush_cases (hk : Silent k) (h : v.appl=some text) {size : ℕ} {o : Out}
    (ho : Fits size o) :
    Tracks size o False ((flush >>= fun _ => k) (put o v)) ((flush >>= fun _ => k) (put {} v)) ∨
      text≠[] ∧ ∃o',Fits size o' ∧ stream o'=stream o++text ∧ o'.overflow≠[] ∧
        (flush >>= fun _ => k) (put o v)=.error .fullBuffer (put o' (emptied text v)) := by
  obtain ⟨hfits,hstream⟩ := fits_write ho text
  have hflush := run_flush_some (v := put o v) h
  cases hw : (o.write text).1 with
  | true =>
    right
    refine ⟨?_,_,hfits,hstream,write_full hw,?_⟩
    · rintro rfl
      simp [write_nil] at hw
    · rw [run_bind_error (hflush.trans (if_pos hw))]
  | false =>
    left
    rw [run_bind_ok (hflush.trans (if_neg (by simp [hw]))),run_bind_ok (run_flush_free h)]
    have hgiven : Given size o (o.write text).2 text False :=
      ⟨hfits,hstream,fun hover => .inr (write_fitted ho hw hover)⟩
    change Tracks _ _ _ (k (put (o.write text).2 (emptied text v))) _
    rw [hk.blind,hk.blind]
    cases hr : k (emptied text v) with
    | ok a w => exact Tracks.ok (w := put { sent := text } w) hgiven
    | error e w => exact Tracks.error (w := put { sent := text } w) (hk.throws _ e w hr) hgiven

end

/-- What an instruction that takes a line does after the queued text is out. -/
def filling (pat : Bytes) : Instr→Option (Sed Unit)
  | .fillNext => some refill
  | .fillNextAppend =>
    some (refill >>= fun _ => modify fun v => { v with pat := pat++newline::v.pat })
  | _ => none

section
variable {k : Sed Unit} {text : Bytes}

theorem exec_filling (host : Host) (h : filling v.pat i=some k) :
    exec host i v=(flush >>= fun _ => k) v := by
  cases i with
  | fillNext =>
    cases h
    rfl
  | fillNextAppend =>
    cases h
    change (cmdFillNext >>= fun _ => modify fun w => { w with pat := v.pat++newline::w.pat }) v=_
    rw [cmdFillNext,bind_assoc]
  | _ => cases h

theorem silent_refill : Silent refill :=
  silent_get_bind (fun _ _ => rfl) fun _ => (silent_throw (by simp)).ite silent_fetch

theorem silent_filling {pat : Bytes} (h : filling pat i=some k) : Silent k := by
  cases i with
  | fillNext =>
    cases h
    exact silent_refill
  | fillNextAppend =>
    cases h
    exact silent_refill.bind fun _ => silent_modify fun _ _ => rfl
  | _ => cases h

theorem exec_flushed (host : Host) (h : filling v.pat i=some k) (hv : v.appl=some text) :
    exec host i (put {} v) =
      mapState (put { sent := text }) (exec host i (put {} (emptied text v))) := by
  have hflush := (silent_filling h).run_flush_bind hv
  rwa [←exec_filling host (v := put {} v) h,
    ← exec_filling host (v := put {} (emptied text v)) h] at hflush

end

/-- The instruction writes a text without a newline after it, and does not look whether it fits. -/
def Careless : Instr→Vm→Prop
  | .print,v => v.patNL=false ∧ v.pat≠[]
  | .printFirstLine,v => (newline∉v.pat ∧ v.patNL=false) ∧ v.pat≠[]
  | .substitute s,v => s.pflag=true ∧ v.patNL=false ∧
      ∃pat,s.replaced (resolveNullRE s.pattern s.null v) v.pat=.ok (some pat) ∧ pat≠[]
  | _,_ => False

/-- A full buffer would end the instruction with work left that is not resumed: the other lines of
an `l`, and the write to a file after the print of an `s`. -/
def Interruptible : Instr→Vm→Prop
  | .list,v => newline∈v.pat
  | .substitute s,v => s.pflag=true ∧ s.wfile≠[] ∧ v.patNL=true ∧
      ∃pat,s.replaced (resolveNullRE s.pattern s.null v) v.pat=.ok (some pat)
  | _,_ => False

theorem listLoop_eq_writeString (isPrint : ℕ→Bool) (fuel : ℕ) {s : Bytes} (b : Bytes)
    (h : newline∉s) : ∃text,listLoop isPrint fuel s b=writeString text := by
  induction fuel generalizing s b with
  | zero => exact ⟨_,rfl⟩
  | succ fuel ih =>
    cases s with
    | nil => exact ⟨_,rfl⟩
    | cons c s =>
      obtain ⟨hc,hs⟩ : newline≠c ∧ newline∉s := by simpa using h
      unfold listLoop
      dsimp only
      split
      · exact ih _ hs
      · rw [if_neg (Ne.symm hc)]
        exact ih _ fun hmem => h (mem_of_mem_drop hmem)

theorem steady_cmdList (h : newline∉v.pat) : Steady (cmdList host) v careless := by
  refine silent_advance.steady_bind fun _ w hw => steady_get_bind (fun _ _ => rfl) ?_
  cases hw
  obtain ⟨text,htext⟩ := listLoop_eq_writeString host.isPrint (v.pat.length+1) [] h
  rw [htext]
  exact steady_writeString text

theorem firstLine_eq_self {s : Bytes} (h : newline∉s) : firstLine s=s := by
  unfold firstLine
  induction s with
  | nil => rfl
  | cons c s ih =>
    obtain ⟨hc,hs⟩ : newline≠c ∧ newline∉s := by simpa using h
    simpa [Ne.symm hc] using ih hs

theorem steady_cmdSubstitute {s : Substitute} (h : ¬ Interruptible (.substitute s) v) :
    Steady (cmdSubstitute host s) v (Careless (.substitute s) v) := by
  refine steady_get_bind (fun _ _ => rfl) ((silent_orFail _).steady_bind fun r w hr => ?_)
  cases r with
  | none => exact (silent_modify fun _ _ => rfl).steady
  | some pat =>
    obtain ⟨hrep,rfl⟩ : s.replaced (resolveNullRE s.pattern s.null v) v.pat=.ok (some pat) ∧
        v=w := by
      cases hrep : s.replaced (resolveNullRE s.pattern s.null v) v.pat with
      | error e =>
        rw [hrep] at hr
        cases hr
      | ok a =>
        rw [hrep] at hr
        cases hr
        exact ⟨rfl,rfl⟩
    refine (silent_modify fun _ _ => rfl).steady_bind fun _ w hw => ?_
    have hfile : Silent (when (s.wfile≠[]) (writeFile host s.wfile pat)) :=
      (silent_writeFile host s.wfile pat).ite (silent_pure ())
    cases hp : s.pflag with
    | false => exact ((silent_pure ()).bind fun _ => hfile).steady
    | true =>
      cases hnl : v.patNL with
      | false =>
        refine Steady.bind_silent ?_ (fun o => run_writeLine_loose pat o w) hfile
        exact (steady_writeLine pat false).mono fun hc => ⟨hp,hnl,pat,hrep,hc.2⟩
      | true =>
        have hnone : s.wfile=[] := by
          by_contra hne
          exact h ⟨hp,hne,hnl,pat,hrep⟩
        rw [hnone]
        change Steady (writeLine pat true >>= fun _ => pure ()) _ _
        rw [bind_pure_unit]
        exact (steady_writeLine pat true).mono fun hc => absurd hc.1 (by simp)

theorem exec_steady (h : ¬ Interruptible i v)
    (hfill : filling v.pat i=none) : Steady (exec host i) v (Careless i v) := by
  cases i with
  | print =>
    refine silent_advance.steady_bind fun _ w hw => steady_get_bind (fun _ _ => rfl) ?_
    cases hw
    exact steady_writeLine v.pat v.patNL
  | printFirstLine =>
    refine silent_advance.steady_bind fun _ w hw => steady_get_bind (fun _ _ => rfl) ?_
    cases hw
    refine (steady_writeLine _ _).mono fun hc => ?_
    obtain ⟨hnl,htext⟩ : (newline∉v.pat ∧ v.patNL=false) ∧ firstLine v.pat≠[] := by simpa using hc
    exact ⟨hnl,firstLine_eq_self hnl.1 ▸ htext⟩
  | lineno =>
    exact silent_advance.steady_bind fun _ w _ =>
      steady_get_bind (fun _ _ => rfl) (steady_writeString _)
  | list => exact steady_cmdList host h
  | changer text guard =>
    refine (silent_jump 0).steady_bind fun _ w _ => steady_get_bind (fun _ _ => rfl) ?_
    split
    · exact steady_writeString text
    · exact (silent_pure ()).steady
  | inserter text => exact silent_advance.steady_bind fun _ w _ => steady_writeString text
  | substitute s => exact steady_cmdSubstitute host h
  | fillNext | fillNextAppend => cases hfill
  | _ => exact (silent_exec host id).steady

/-- What a buffer does to an instruction: nothing but to end it once its work is done, or between
putting out the queued text and taking a line. -/
theorem exec_cases (h : ¬ Interruptible i v) (ho : Fits size o) :
    Tracks size o (Careless i v) (exec host i (put o v)) (exec host i (put {} v)) ∨
      ∃k text,filling v.pat i=some k ∧ v.appl=some text ∧ text≠[] ∧
        ∃o',Fits size o' ∧ stream o'=stream o++text ∧ o'.overflow≠[] ∧
          exec host i (put o v)=.error .fullBuffer (put o' (emptied text v)) := by
  cases hfill : filling v.pat i with
  | none => exact .inl (exec_steady host h hfill size o ho)
  | some k =>
    have hk := silent_filling hfill
    rw [exec_filling host (v := put o v) hfill,exec_filling host (v := put {} v) hfill]
    cases hv : v.appl with
    | none => exact .inl (hk.steady_flush hv size o ho)
    | some text =>
      rcases hk.flush_cases hv ho with hc | ⟨hne,o',hc⟩
      · exact .inl (hc.mono False.elim)
      · exact .inr ⟨k,text,rfl,rfl,hne,o',hc⟩

end Coreutils.SedBuffers
