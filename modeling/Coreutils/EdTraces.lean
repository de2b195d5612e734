import Coreutils.EdSteps

/-!
# The steps of each command

What the functions of the engine leave alone, and the steps that a command takes when it succeeds.
-/

namespace Coreutils.EdTraces
open List GoText EdText EdEngine EdAddress EdExecute EdSteps LineRanges Programs

section
variable {W α : Type} {τ : Type} {part : Engine W→τ}

@[simp] theorem keeps_fail (text : String) : Keeps part (fail text : Ed W α) := keeps_throw _

@[simp] theorem keeps_raise (text : Bytes) : Keeps part (raise text : Ed W α) := keeps_throw _

@[simp] theorem keeps_orRaise (r : Except Bytes α) : Keeps part (orRaise r : Ed W α) := by
  unfold orRaise
  split <;> simp

@[simp] theorem keeps_refuse (c : Prop) [Decidable c] (text : String) :
    Keeps part (refuse c text : Ed W Unit) := by
  simp [refuse]

@[simp] theorem keeps_onlyIf (c : Prop) [Decidable c] {m : Ed W Unit} (h : Keeps part m) :
    Keeps part (onlyIf c m) := by
  simp [onlyIf,h]

@[simp] theorem keeps_oneAddress (addrs : List ℤ) (dflt : ℤ) (allowZero : Bool) :
    Keeps part (oneAddress addrs dflt allowZero : Ed W _) := by
  simp [oneAddress]

@[simp] theorem keeps_twoAddresses (addrs : List ℤ) (first last : ℤ) (allowZero : Bool) :
    Keeps part (twoAddresses addrs first last allowZero : Ed W _) := by
  simp [twoAddresses]

end

section
variable {W : Type} (host : Host W)

@[simp] theorem keeps_println (t : Bytes) : Keeps core (println t : Ed W Unit) :=
  keeps_modify fun _ => rfl

@[simp] theorem keeps_readCommandLine : Keeps core (readCommandLine : Ed W _) := by
  intro e
  simp only [readCommandLine,run_get_bind]
  cases e.list with
  | some text =>
    dsimp only
    split <;> rfl
  | none => cases e.reader <;> rfl

theorem keeps_readInputFrom (fuel : ℕ) (lines : List Bytes) :
    Keeps core (readInputFrom fuel lines : Ed W _) := by
  induction fuel generalizing lines with
  | zero => exact keeps_pure _
  | succ fuel ih =>
    refine keeps_readCommandLine.bind fun r => ?_
    dsimp only
    split
    · simp
    · simp
    · refine keeps_get.bind fun e => ?_
      refine Keeps.ite (keeps_pure _) ?_
      split <;> simp [ih]

@[simp] theorem keeps_readInput : Keeps core (readInput : Ed W _) := by
  simp [readInput,keeps_readInputFrom]

theorem keeps_readSubstituteFrom (fuel : ℕ) (arg : Bytes) :
    Keeps core (readSubstituteFrom fuel arg : Ed W _) := by
  induction fuel generalizing arg with
  | zero => exact keeps_pure _
  | succ fuel ih =>
    exact Keeps.ite (keeps_pure _) (keeps_readCommandLine.bind fun r =>
      (keeps_refuse _ _).bind fun _ => ih _)

variable (arg : Bytes)

@[simp] theorem keeps_readSubstituteArgument :
    Keeps core (readSubstituteArgument arg : Ed W _) := by
  exact keeps_get.bind fun e => keeps_readSubstituteFrom _ _

@[simp] theorem keeps_patternOrLast (pattern : Bytes) :
    Keeps core (patternOrLast pattern : Ed W _) := by
  simp [patternOrLast]

theorem keeps_searchFrom (re : Matcher) (forward : Bool) (left : ℕ) (step : ℤ) :
    Keeps core (searchFrom re forward left step : Ed W _) := by
  induction left generalizing step with
  | zero => simp [searchFrom]
  | succ left ih => simp [searchFrom,ih]

@[simp] theorem keeps_search (re : Matcher) (forward : Bool) :
    Keeps core (search re forward : Ed W _) := by
  simp [search,keeps_searchFrom]

@[simp] theorem keeps_parseBase (s : Bytes) : Keeps core (parseBase host s) := by
  unfold parseBase
  split
  · simp
  refine Keeps.ite ?_ ?_
  · split
    · refine Keeps.ite (keeps_get.bind fun e => ?_) (keeps_fail _)
      split <;> simp
    · simp
  · refine Keeps.ite (keeps_get.bind fun _ => keeps_pure _) ?_
    refine Keeps.ite (keeps_get.bind fun _ => keeps_pure _) ?_
    refine Keeps.ite ?_ (Keeps.ite (keeps_get.bind fun _ => keeps_pure _)
      (Keeps.ite (keeps_pure _) (keeps_pure _)))
    exact (keeps_patternOrLast _).bind fun pattern => (keeps_orRaise _).bind fun re =>
      keeps_modify_bind (fun _ => rfl) ((keeps_search re _).bind fun n => keeps_pure _)

@[simp] theorem keeps_parseAddress (s : Bytes) : Keeps core (parseAddress host s) := by
  refine (keeps_parseBase host _).bind fun r => ?_
  split
  · simp
  · exact keeps_get.bind fun e => Keeps.ite (keeps_fail _) (keeps_pure _)

theorem keeps_printFrom (style : Style) (left : ℕ) (n : ℤ) :
    Keeps core (printFrom host style left n) := by
  induction left generalizing n with
  | zero => simp [printFrom]
  | succ left ih => simp [printFrom,ih]

@[simp] theorem keeps_suffix : Keeps core (suffix arg : Ed W _) := by
  unfold suffix
  split <;> simp

@[simp] theorem keeps_fileDiagnostic {α : Type} (text : Bytes) :
    Keeps core (fileDiagnostic text : Ed W α) := by
  exact keeps_modify_bind (fun _ => rfl) (keeps_raise _)

@[simp] theorem keeps_hostRead (name : Bytes) : Keeps core (hostRead host name) := fun _ => rfl

@[simp] theorem keeps_hostShell (command input : Bytes) :
    Keeps core (hostShell host command input) := by
  unfold hostShell
  split
  · simp
  · exact fun _ => rfl

@[simp] theorem keeps_hostWrite (f : Bytes→Bytes→W→Option Bytes×W) (name data : Bytes) :
    Keeps core (hostWrite f name data : Ed W Unit) := by
  intro e
  simp only [hostWrite,run_get_bind]
  cases (f name data e.world).1 with
  | none | some => rfl

@[simp] theorem keeps_separated : Keeps core (separated arg : Ed W Unit) := by
  unfold separated
  split <;> simp

@[simp] theorem keeps_sendTo (sink : Sink) (name data : Bytes) :
    Keeps core (sendTo host sink name data) := by
  unfold sendTo
  split
  · refine (keeps_hostShell host _ _).bind fun r => ?_
    dsimp only
    split
    · simp
    · exact keeps_modify fun _ => rfl
  · split <;> simp
  · simp

@[simp] theorem keeps_shellOutput (command : Bytes) : Keeps core (shellOutput host command) := by
  refine (keeps_refuse _ _).bind fun _ => (keeps_refuse _ _).bind fun _ =>
    (keeps_hostShell host _ _).bind fun r => ?_
  dsimp only
  split <;> simp

@[simp] theorem keeps_fileData (name : Bytes) : Keeps core (fileData host name) := by
  refine (keeps_refuse _ _).bind fun _ => (keeps_hostRead host _).bind fun r => ?_
  split <;> simp

theorem keeps_readData (shellCommand : Bool) (name : Bytes) :
    Keeps core (readData host shellCommand name) := by
  simp [readData]

theorem keeps_writeRange (addrs : List ℤ) : Keeps core (writeRange addrs : Ed W _) := by
  simp [writeRange]

@[simp] theorem keeps_prepareShell (command : Bytes) :
    Keeps core (prepareShell command : Ed W _) := by
  refine (keeps_refuse _ _).bind fun _ => keeps_get.bind fun e => (keeps_refuse _ _).bind fun _ =>
    ?_
  split
  · simp
  · exact keeps_modify_bind (fun _ => rfl) (keeps_pure _)

@[simp] theorem keeps_shellEscape : Keeps core (shellEscape host arg) := by
  refine (keeps_refuse _ _).bind fun _ => (keeps_prepareShell _).bind fun r =>
    (keeps_onlyIf _ (keeps_println _)).bind fun _ => (keeps_hostShell host _ _).bind fun o =>
    keeps_modify_bind (fun _ => rfl) ?_
  split <;> simp

@[simp] theorem keeps_parseSubstitute : Keeps core (parseSubstitute host arg) := by
  refine (keeps_refuse _ _).bind fun _ => (keeps_refuse _ _).bind fun _ =>
    (keeps_refuse _ _).bind fun _ => (keeps_patternOrLast _).bind fun _ => keeps_get.bind fun _ =>
    (keeps_refuse _ _).bind fun _ => (keeps_orRaise _).bind fun _ => ?_
  split <;> simp

@[simp] theorem keeps_noteAttempt (success : Bool) :
    Keeps core (noteAttempt success : Ed W Unit) := by
  refine keeps_modify fun e => ?_
  split <;> rfl

@[simp] theorem keeps_addressAndSuffix : Keeps core (addressAndSuffix host arg) := by
  refine (keeps_parseAddress host _).bind fun r => ?_
  split
  · exact (keeps_suffix _).bind fun _ => keeps_pure _
  · exact keeps_get.bind fun _ => (keeps_suffix _).bind fun _ => keeps_pure _

@[simp] theorem keeps_warnModified : Keeps core (warnModified : Ed W Unit) := by
  intro e
  simp only [warnModified,run_get_bind]
  split <;> rfl

@[simp] theorem keeps_fileName : Keeps core (fileName arg : Ed W Unit) := by
  exact (keeps_separated _).bind fun _ => (keeps_refuse _ _).bind fun _ =>
    keeps_modify_bind (fun _ => rfl) (keeps_get.bind fun _ =>
    (keeps_refuse _ _).bind fun _ => keeps_println _)

@[simp] theorem keeps_countSubstitution (letter : UInt8) (n : ℕ) :
    Keeps core (countSubstitution letter n : Ed W Unit) := by
  refine keeps_modify fun e => ?_
  split <;> rfl

theorem keeps_readListFrom (fuel : ℕ) (command : Bytes) :
    Keeps core (readListFrom fuel command : Ed W _) := by
  induction fuel generalizing command with
  | zero => exact keeps_pure _
  | succ fuel ih =>
    exact Keeps.ite (keeps_pure _) (keeps_readCommandLine.bind fun r =>
      (keeps_refuse _ _).bind fun _ => ih _)

@[simp] theorem keeps_planGlobal (addrs : List ℤ) (arg : Bytes) (interactive : Bool) :
    Keeps core (planGlobal host addrs arg interactive) := by
  refine keeps_get.bind fun _ => (keeps_twoAddresses _ _ _ _).bind fun _ =>
    (keeps_refuse _ _).bind fun _ => (keeps_refuse _ _).bind fun _ =>
    (keeps_patternOrLast _).bind fun _ => (keeps_orRaise _).bind fun _ =>
    keeps_modify_bind (fun _ => rfl) ?_
  exact Keeps.ite ((keeps_suffix _).bind fun _ => keeps_pure _)
    (keeps_get.bind fun _ => (keeps_readListFrom _ _).bind fun _ => keeps_pure _)

end

/-- Steps of one kind from one core to another. -/
def Trace (P : Act→Prop) (c c' : Core) : Prop := ∃acts,(∀a∈acts,P a) ∧ Path Step c acts c'

def IsDot : Act→Prop
  | .dot _ => True
  | _ => False

def Editing : Act→Prop
  | .dot _ | .insert _ _ | .delete _ _ | .join _ _ | .move _ _ _ | .split _ _ | .touch _ | .count =>
    True
  | _ => False

section
variable {P : Act→Prop} {c c' c'' : Core}

theorem Trace.refl (c : Core) : Trace P c c := ⟨[],by simp,.nil c⟩

theorem Trace.of_eq (h : c'=c) : Trace P c c' := by
  rw [h]
  exact Trace.refl c

theorem Trace.one {a : Act} (ha : P a) (h : Step c a c') : Trace P c c' :=
  ⟨[a],by simpa using ha,.one h⟩

theorem Trace.trans (h : Trace P c c') (h' : Trace P c' c'') : Trace P c c'' := by
  obtain ⟨as,has,hp⟩ := h
  obtain ⟨bs,hbs,hp'⟩ := h'
  exact ⟨as++bs,forall_mem_append.mpr ⟨has,hbs⟩,hp.append hp'⟩

theorem Trace.mono {Q : Act→Prop} (h : Trace P c c') (hPQ : ∀a,P a→Q a) : Trace Q c c' := by
  obtain ⟨as,has,hp⟩ := h
  exact ⟨as,fun a ha => hPQ a (has a ha),hp⟩

theorem Trace.inRange (h : Trace P c c') (hc : InRange c) : InRange c' := by
  obtain ⟨as,_,hp⟩ := h
  exact hp.invariant hc fun _ _ _ _ hi hs => hs.inRange hi

theorem IsDot.editing {a : Act} (h : IsDot a) : Editing a := by cases a <;> trivial

/-- Steps that only move dot leave everything else. -/
theorem Trace.dots (h : Trace IsDot c c') :
    c'={ c with buffer := { c.buffer with current := c'.buffer.current } } := by
  obtain ⟨as,has,hp⟩ := h
  refine hp.invariant (I := fun d =>
    d={ c with buffer := { c.buffer with current := d.buffer.current } })
    rfl fun d a d' ha hd hs => ?_
  have := has a ha
  cases hs <;> first | exact this.elim | (rw [hd])

end

/-- The steps before a change: the undo state is saved, except inside a global command. -/
def saves (c : Core) : List Act := if c.inGlobal then [] else [.save]

def Counted (acts : List Act) : Prop := Act.count∈acts ∨ ∀a∈acts,IsDot a

/-- Only dot moved, or the undo state was saved and then lines may have changed. -/
def Edited (c c' : Core) : Prop :=
  Trace IsDot c c' ∨
    ∃acts,(∀a∈acts,Editing a) ∧ Counted acts ∧ Path Step c (saves c++acts) c'

theorem Edited.dots {c c' c'' : Core} (h : Edited c c') (h' : Trace IsDot c' c'') :
    Edited c c'' := by
  rcases h with h | ⟨acts,hacts,hcount,hp⟩
  · exact .inl (h.trans h')
  obtain ⟨ds,hds,hp'⟩ := h'
  refine .inr ⟨acts++ds,forall_mem_append.mpr ⟨hacts,fun a ha => (hds a ha).editing⟩,
    hcount.imp (mem_append_left _) fun h => forall_mem_append.mpr ⟨h,hds⟩,?_⟩
  rw [←append_assoc]
  exact hp.append hp'

theorem Edited.inRange {c c' : Core} (h : Edited c c') (hc : InRange c) : InRange c' := by
  rcases h with h | ⟨_,_,_,hp⟩
  · exact h.inRange hc
  · exact hp.invariant hc fun _ _ _ _ hi hs => hs.inRange hi

section
variable {W α : Type} {e e' : Engine W} {allowZero : Bool} {addrs : List ℤ} {dfltFirst dfltLast : ℤ}
  {f : ℤ×ℤ→Ed W α}

@[simp] theorem run_fail (text : String) :
    (fail text : Ed W α) e=.error (.message (ascii text)) e := rfl

theorem refuse_ok {p : Prop} [Decidable p] {text : String} {u : Unit} :
    (refuse p text : Ed W Unit) e=.ok u e' ↔ ¬ p ∧ e=e' := by
  unfold refuse
  split
  · simp_all
  · simp_all

theorem orRaise_ok {r : Except Bytes α} {a : α} :
    (orRaise r : Ed W α) e=.ok a e' ↔ r=.ok a ∧ e=e' := by
  cases r with
  | ok b => simp [orRaise]
  | error t => simp [orRaise,raise]

theorem oneAddress_ok {addrs : List ℤ} {dflt : ℤ} {a : ℤ} :
    (oneAddress addrs dflt allowZero : Ed W ℤ) e=.ok a e' ↔
      a=addrs.getLast?.getD dflt ∧ 0≤a ∧ a≤e.buffer.last ∧ (allowZero=false→a≠0) ∧ e=e' := by
  unfold oneAddress
  simp only [run_get_bind,bind_ok,refuse_ok,run_pure,EStateM.Result.ok.injEq,not_or,not_lt]
  constructor
  · rintro ⟨_,_,⟨⟨h₀,h₁,h₂⟩,rfl⟩,rfl,rfl⟩
    exact ⟨rfl,h₀,h₁,by simpa using h₂,rfl⟩
  · rintro ⟨rfl,h₀,h₁,h₂,rfl⟩
    exact ⟨⟨⟩,_,⟨⟨h₀,h₁,by simpa using h₂⟩,rfl⟩,rfl,rfl⟩

theorem twoAddresses_ok {addrs : List ℤ} {dfltFirst dfltLast : ℤ} {r : ℤ×ℤ} :
    (twoAddresses addrs dfltFirst dfltLast allowZero : Ed W (ℤ×ℤ)) e=.ok r e' ↔
      r=(addrs.dropLast.getLast?.getD (addrs.getLast?.getD dfltFirst),
        addrs.getLast?.getD dfltLast) ∧
      r.1≤r.2 ∧ 0≤r.1 ∧ r.2≤e.buffer.last ∧ (allowZero=false → r.1≠0) ∧ e=e' := by
  unfold twoAddresses
  simp only [run_get_bind,bind_ok,refuse_ok,run_pure,EStateM.Result.ok.injEq,not_or,not_lt]
  constructor
  · rintro ⟨_,_,⟨⟨h₀,h₁,h₂,h₃⟩,rfl⟩,rfl,rfl⟩
    exact ⟨rfl,h₀,h₁,h₂,by simpa using h₃,rfl⟩
  · rintro ⟨rfl,h₀,h₁,h₂,h₃,rfl⟩
    exact ⟨⟨⟩,_,⟨⟨h₀,h₁,h₂,by simpa using h₃⟩,rfl⟩,rfl,rfl⟩

theorem range_of_twoAddresses {r : ℤ×ℤ} {e₁ : Engine W}
    (h : (twoAddresses addrs dfltFirst dfltLast false : Ed W (ℤ×ℤ)) e=.ok r e₁) :
    e₁=e ∧ 1≤r.1 ∧ r.1≤r.2 ∧ r.2≤e.buffer.last := by
  obtain ⟨_,h₀,h₁,h₂,h₃,h₄⟩ := twoAddresses_ok.mp h
  have hne := h₃ rfl
  exact ⟨h₄.symm,by omega,h₀,h₂⟩

/-- After two addresses that may not be zero there is a range of lines. -/
theorem range_ok {a : α} (h : (twoAddresses addrs dfltFirst dfltLast false >>= f) e=.ok a e') :
    ∃first last,1≤first ∧ first≤last ∧ last≤e.buffer.last ∧ f (first,last) e=.ok a e' := by
  obtain ⟨r,e₁,hr,hf⟩ := bind_ok.mp h
  obtain ⟨rfl,h₀,h₁,h₂⟩ := range_of_twoAddresses hr
  exact ⟨r.1,r.2,h₀,h₁,h₂,hf⟩

theorem range_error {err : EdError}
    (h : (twoAddresses addrs dfltFirst dfltLast false >>= f) e=.error err e') : e'=e ∨
      ∃first last,1≤first ∧ first≤last ∧ last≤e.buffer.last ∧ f (first,last) e=.error err e' := by
  have hkeeps : Keeps id (twoAddresses addrs dfltFirst dfltLast false : Ed W _) :=
    keeps_twoAddresses _ _ _ _
  rcases hkeeps.bind_error h with heq | ⟨r,e₁,hr,rfl,hf⟩
  · exact .inl heq
  · exact .inr ⟨r.1,r.2,(range_of_twoAddresses hr).2.1,(range_of_twoAddresses hr).2.2.1,
      (range_of_twoAddresses hr).2.2.2,hf⟩

end
section
variable {W : Type} (host : Host W) {e e' : Engine W} {u : Unit} {r : List ℤ×Bytes}
  {addrs : List ℤ} {s : Bytes} {style : Style}

theorem last_of_lines (h : (core e').buffer.lines=(core e).buffer.lines) :
    e'.buffer.last=e.buffer.last :=
  congrArg (fun l : List Bytes => (l.length : ℤ)) h

theorem last_of_core (h : core e'=core e) : e'.buffer.last=e.buffer.last :=
  last_of_lines (congrArg (·.buffer.lines) h)

theorem setCurrent_trace {n : ℤ} (h₀ : 0≤n) (h₁ : n≤e.buffer.last)
    (h : setCurrent n e=.ok u e') : Trace IsDot (core e) (core e') := by
  cases h
  exact Trace.one (a := .dot n) trivial (Step.dot h₀ h₁)

theorem parseAddress_range {n : ℤ} {rest : Bytes}
    (h : parseAddress host s e=.ok (some (n,rest)) e') : 0≤n ∧ n≤e.buffer.last := by
  simp only [parseAddress,bind_ok] at h
  obtain ⟨r,e₁,hbase,h⟩ := h
  have hcore := (keeps_parseBase host _).ok hbase
  cases r with
  | none => simp at h
  | some r =>
    simp only [run_get_bind] at h
    split_ifs at h with hr
    · simp at h
    · obtain ⟨⟨rfl,_⟩,_⟩ := h
      rw [last_of_core hcore] at hr
      omega

theorem parseMore_trace (fuel : ℕ) {out : List ℤ}
    (hc : InRange (core e)) (hout : ∀a∈out.getLast?,0≤a ∧ a≤e.buffer.last)
    (h : parseMore host fuel out s e=.ok r e') : Trace IsDot (core e) (core e') := by
  induction fuel generalizing e out s with
  | zero =>
    cases h
    exact Trace.refl _
  | succ fuel ih =>
    rw [parseMore] at h
    cases hs : skipBlank s with
    | nil =>
      rw [hs] at h
      cases h
      exact Trace.refl _
    | cons sep t =>
      rw [hs] at h
      dsimp only at h
      split at h
      · simp only [run_get_bind,bind_ok] at h
        obtain ⟨_,e₁,hdot,r',e₂,haddr,h⟩ := h
        have hbefore : sep=59→
            0≤out.getLast?.getD (if sep=44 then 1 else e.buffer.current) ∧
            out.getLast?.getD (if sep=44 then 1 else e.buffer.current)≤e.buffer.last := by
          rintro rfl
          cases hl : out.getLast? with
          | none => exact hc.dot
          | some a => exact hout a hl
        have htr₁ : Trace IsDot (core e) (core e₁) := by
          unfold onlyIf at hdot
          split at hdot
          · rename_i hsep
            exact setCurrent_trace (hbefore hsep).1 (hbefore hsep).2 hdot
          · cases hdot
            exact Trace.refl _
        have hcore := (keeps_parseAddress host _).ok haddr
        have htr₂ : Trace IsDot (core e) (core e₂) := htr₁.trans (Trace.of_eq hcore)
        have hlast := last_of_lines (congrArg (·.buffer.lines) htr₂.dots)
        have hlast₁ := last_of_lines (congrArg (·.buffer.lines) htr₁.dots)
        cases r' with
        | some r' =>
          have hr := parseAddress_range host haddr
          refine htr₂.trans (ih (htr₂.inRange hc) (fun a ha => ?_) h)
          simp only [getLast?_append,getLast?_singleton,Option.some_or,
            Option.mem_def,Option.some.injEq] at ha
          rw [←ha,hlast,←hlast₁]
          exact hr
        | none =>
          refine htr₂.trans (ih (htr₂.inRange hc) (fun a ha => ?_) h)
          simp only [getLast?_append,getLast?_singleton,Option.some_or,
            Option.mem_def,Option.some.injEq] at ha
          rw [←ha,hlast]
          split
          · exact ⟨Int.natCast_nonneg _,le_rfl⟩
          · rename_i hne
            cases hl : out.getLast? with
            | none => exact absurd (getLast?_eq_none_iff.mp hl) hne
            | some b => exact hout b hl
      · cases h
        exact Trace.refl _

theorem parseAddresses_trace (hc : InRange (core e))
    (h : parseAddresses host s e=.ok r e') : Trace IsDot (core e) (core e') := by
  simp only [parseAddresses,bind_ok] at h
  obtain ⟨r',e₁,haddr,h⟩ := h
  have hcore := (keeps_parseAddress host _).ok haddr
  refine (Trace.of_eq hcore).trans ?_
  cases r' with
  | some r' =>
    refine parseMore_trace host _ (hcore ▸ hc) (fun a ha => ?_) h
    simp only [getLast?_singleton,Option.mem_def,Option.some.injEq] at ha
    rw [←ha,last_of_core hcore]
    exact parseAddress_range host haddr
  | none => exact parseMore_trace host _ (hcore ▸ hc) (by simp) h

theorem printLinesOf_trace {first last : ℤ} (h₀ : 0≤last)
    (h₁ : last≤e.buffer.last) (h : printLinesOf host first last style e=.ok u e') :
    Trace IsDot (core e) (core e') := by
  simp only [printLinesOf,bind_ok] at h
  obtain ⟨_,e₁,hprint,h⟩ := h
  have hcore := (keeps_printFrom host _ _ _).ok hprint
  exact (Trace.of_eq hcore).trans (setCurrent_trace h₀ (last_of_core hcore ▸ h₁) h)

theorem printOne_trace
    (h : printOne host addrs style e=.ok u e') : Trace IsDot (core e) (core e') := by
  simp only [printOne,run_get_bind,bind_ok,oneAddress_ok] at h
  obtain ⟨a,_,⟨_,h₀,h₁,_,rfl⟩,h⟩ := h
  exact printLinesOf_trace host h₀ h₁ h

theorem printRange_trace
    (h : printRange host addrs style e=.ok u e') : Trace IsDot (core e) (core e') := by
  simp only [printRange,run_get_bind,bind_ok,twoAddresses_ok] at h
  obtain ⟨r,_,⟨_,h₀,h₁,h₂,_,rfl⟩,h⟩ := h
  exact printLinesOf_trace host (h₁.trans h₀) h₂ h

theorem printStyle_trace {style : Option Style} (h : printStyle host style e=.ok u e') :
    Trace IsDot (core e) (core e') := by
  cases style with
  | none =>
    cases h
    exact Trace.refl _
  | some style =>
    exact printOne_trace host h

theorem onlyIf_trace {P : Act→Prop} {c : Prop} [Decidable c] {m : Ed W Unit}
    (hm : ∀u,m e=.ok u e'→Trace P (core e) (core e')) (h : onlyIf c m e=.ok u e') :
    Trace P (core e) (core e') := by
  unfold onlyIf at h
  split at h
  · exact hm _ h
  · cases h
    exact Trace.refl _

theorem printStyleIf_trace {style : Option Style}
    (h : printStyleIf host style e=.ok u e') : Trace IsDot (core e) (core e') := by
  exact onlyIf_trace (fun _ h => printStyle_trace host h) h

end

section
variable {W : Type} {e e' : Engine W} {u : Unit} {p : Prop} {after first last dest : ℤ}
  {lines : List Bytes}

def saved (e : Engine W) : Engine W := final ((saveUndo : Ed W Unit) e)

theorem saved_eq {e : Engine W} (hg : e.inGlobal=false) : saved e={ e with
    undoBuffer := e.buffer
    undoMarks := e.marks
    undoValid := true
    history := e.history++[.save] } := by
  simp [saved,saveUndo,hg]

theorem saveUndo_path (e : Engine W) : Path Step (core e) (saves (core e)) (core (saved e)) := by
  unfold saves saved saveUndo
  simp only [run_modify]
  by_cases h : e.inGlobal=true
  · rw [if_pos h,if_pos (show (core e).inGlobal=true from h)]
    exact .nil _
  · rw [if_neg h,if_neg (show ¬ (core e).inGlobal=true from h)]
    exact .one (Step.save (Bool.eq_false_of_not_eq_true h))

theorem saved_keeps (e : Engine W) : (saved e).buffer=e.buffer ∧ (saved e).marks=e.marks := by
  unfold saved saveUndo
  simp only [run_modify]
  split <;> exact ⟨rfl,rfl⟩

theorem saved_buffer (e : Engine W) : (saved e).buffer=e.buffer := (saved_keeps e).1

theorem saved_marks (e : Engine W) : (saved e).marks=e.marks := (saved_keeps e).2

theorem run_saveUndo (e : Engine W) : (saveUndo : Ed W Unit) e=.ok ⟨⟩ (saved e) := rfl

theorem edited_one {a : Act} {c : Core} (h : Step (core (saved e)) a c) (ha : Editing a)
    (hc : Step c .count (core e')) : Edited (core e) (core e') :=
  .inr ⟨[a,.count],by simpa [Editing] using ha,.inl (by simp),
    (saveUndo_path e).append (.cons h (.one hc))⟩

theorem Marks.insert_zero (m : Marks) (after : ℤ) : m.insert after 0=m := by
  funext k
  unfold Marks.insert
  cases m k with
  | none => rfl
  | some n => simp

def inserted (after : ℤ) (lines : List Bytes) (e : Engine W) : Engine W :=
  { e with
    buffer := ⟨withAfter e.buffer.lines after lines,after+lines.length,true⟩
    globalTargets := adjustGlobalInsert e.globalTargets after lines.length
    marks := e.marks.insert after lines.length }

theorem run_refuse [Decidable p] {text : String} (h : ¬ p) :
    (refuse p text : Ed W Unit) e=.ok ⟨⟩ e := by
  rw [refuse,if_neg h]
  rfl

theorem run_onlyIf [Decidable p] {m : Ed W Unit} (h : p) : onlyIf p m e=m e := by
  rw [onlyIf,if_pos h]

theorem run_onlyIf_not [Decidable p] {m : Ed W Unit} (h : ¬ p) : onlyIf p m e=.ok ⟨⟩ e := by
  rw [onlyIf,if_neg h]
  rfl

theorem le_saved {n : ℤ} (h : n≤e.buffer.last) : n≤(saved e).buffer.last := by rwa [saved_buffer]

theorem run_bufferAppend (h₀ : 0≤after)
    (h₁ : after≤e.buffer.last) : bufferAppend after lines e=.ok ⟨⟩ { e with
      buffer := if lines=[] then { e.buffer with current := after }
        else ⟨withAfter e.buffer.lines after lines,after+lines.length,true⟩ } := by
  have hr : ¬ (after<0 ∨ e.buffer.last<after) := by omega
  unfold bufferAppend
  simp only [run_get_bind,Buffer.append,if_neg hr]
  split <;> rfl

theorem run_appendLines (h₀ : 0≤after) (h₁ : after≤e.buffer.last) : appendLines after lines e =
      if lines=[] then .ok ⟨⟩ { e with buffer := { e.buffer with current := after } }
      else .ok ⟨⟩ { inserted after lines (saved e) with
        changeSeq := (saved e).changeSeq+1
        history := (saved e).history++[.insert after lines] } := by
  have hr : ¬ (after<0 ∨ e.buffer.last<after) := by omega
  unfold appendLines
  rw [run_get_bind,run_bind_ok (run_refuse hr)]
  by_cases hl : lines=[]
  · rw [run_bind_ok (run_onlyIf_not (not_not.mpr hl)),run_bind_ok (run_bufferAppend h₀ h₁),
      run_bind_ok (run_onlyIf_not (not_not.mpr hl)),hl]
    simp [Marks.insert_zero]
  rw [if_neg hl,run_bind_ok ((run_onlyIf hl).trans (run_saveUndo e)),
    run_bind_ok (run_bufferAppend h₀ (le_saved h₁)),if_neg hl]
  unfold onlyIf
  rw [if_pos hl]
  rfl

theorem appendLines_edited (h : appendLines after lines e=.ok u e') :
    Edited (core e) (core e') := by
  have hr : 0≤after ∧ after≤e.buffer.last := by
    unfold appendLines at h
    simp only [run_get_bind,bind_ok,refuse_ok] at h
    omega
  rw [run_appendLines hr.1 hr.2] at h
  split_ifs at h with hl
  · cases h
    exact .inl (Trace.one (a := .dot after) trivial (Step.dot hr.1 hr.2))
  · cases h
    exact edited_one (Step.insert hl hr.1 (le_saved hr.2)) trivial Step.count

theorem run_appendLinesNoUndo (h₀ : 0≤after) (h₁ : after≤e.buffer.last) (hl : lines≠[]) :
    appendLinesNoUndo after lines e=.ok ⟨⟩ (inserted after lines e) := by
  unfold appendLinesNoUndo
  rw [run_bind_ok (run_bufferAppend h₀ h₁),run_modify,if_neg hl,if_neg hl]
  rfl

def deleted (first last : ℤ) (e : Engine W) : Engine W :=
  { e with
    buffer := ⟨without e.buffer.lines first last,
      dotAfter (without e.buffer.lines first last) first,true⟩
    globalTargets := adjustGlobalDelete e.globalTargets first last
    marks := e.marks.delete first last }

def joined (first last : ℤ) (e : Engine W) : Engine W :=
  let e₁ := inserted (first-1) [(e.lineRange first last).flatten] (deleted first last e)
  { e₁ with
    marks := e₁.marks.replace e.marks first last fun _ => first
    changeSeq := e.changeSeq+1
    history := e.history++[.join first last] }

def moved (first last dest : ℤ) (e : Engine W) : Engine W :=
  let e₁ := inserted (moveTo first last dest) (e.lineRange first last) (deleted first last e)
  { e₁ with
    marks := e₁.marks.replace e.marks first last fun n => moveTo first last dest+1+(n-first)
    changeSeq := e.changeSeq+1
    history := e.history++[.move first last dest] }

section
variable (h₀ : 1≤first) (h₁ : first≤last) (h₂ : last≤e.buffer.last)
include h₀ h₁ h₂

theorem run_bufferDelete : bufferDelete first last e=.ok ⟨⟩ { e with
      buffer := ⟨without e.buffer.lines first last,
        dotAfter (without e.buffer.lines first last) first,true⟩ } := by
  have hr : ¬ (first<1 ∨ last<first ∨ e.buffer.last<last) := by omega
  unfold bufferDelete
  simp only [run_get_bind,Buffer.delete,if_neg hr]
  rfl

theorem run_deleteLines : deleteLines first last e = .ok ⟨⟩ { deleted first last (saved e) with
        changeSeq := (saved e).changeSeq+1
        history := (saved e).history++[.delete first last] } := by
  unfold deleteLines
  rw [run_bind_ok (run_saveUndo e),run_bind_ok (run_bufferDelete h₀ h₁ (le_saved h₂))]
  rfl

theorem deleteLines_edited (h : deleteLines first last e=.ok u e') : Edited (core e) (core e') := by
  rw [run_deleteLines h₀ h₁ h₂] at h
  cases h
  exact edited_one (Step.delete h₀ h₁ (le_saved h₂)) trivial Step.count

theorem run_deleteLinesNoUndo : deleteLinesNoUndo first last e=.ok ⟨⟩ (deleted first last e) := by
  unfold deleteLinesNoUndo
  rw [run_bind_ok (run_bufferDelete h₀ h₁ h₂)]
  rfl

theorem deleted_last : (deleted first last e).buffer.last=e.buffer.last-(last-first+1) :=
  length_without h₀ h₁ h₂

theorem run_join :
    join first last e=.ok ⟨⟩ (if first=last then e else joined first last (saved e)) := by
  have hr : ¬ (first<1 ∨ last<first ∨ e.buffer.last<last) := by omega
  unfold join
  rw [run_get_bind,run_bind_ok (run_refuse hr)]
  by_cases hne : first=last
  · rw [run_onlyIf_not (not_not.mpr hne),if_pos hne]
  have hlast := le_saved h₂
  have hdel := @deleted_last _ (saved e) first last h₀ h₁ hlast
  rw [run_onlyIf hne,run_bind_ok (run_saveUndo e),run_get_bind,
    run_bind_ok (run_deleteLinesNoUndo h₀ h₁ hlast),run_bind_ok (run_appendLinesNoUndo (by omega)
      (show first-1≤(deleted first last (saved e)).buffer.last by omega) (by simp)),if_neg hne]
  rfl

theorem lineRange_ne_nil : e.lineRange first last≠[] := by
  intro hnil
  have hlen : ((e.lineRange first last).length : ℤ)=last-first+1 := length_range h₀ h₁ h₂
  rw [hnil] at hlen
  simp at hlen
  omega

theorem run_move (h₃ : 0≤dest) (h₄ : dest≤e.buffer.last) (h₅ : dest<first-1 ∨ last<dest) :
    move first last dest e=.ok ⟨⟩ (moved first last dest (saved e)) := by
  have hlast := le_saved h₂
  have hdest := le_saved h₄
  have hto := moveTo_range h₀ h₃ hdest h₅ hlast
  have hdel := @deleted_last _ (saved e) _ _ h₀ h₁ hlast
  have hafter : moveTo first last dest≤(deleted first last (saved e)).buffer.last := by omega
  unfold move
  rw [run_get_bind,run_bind_ok (run_refuse (by omega)),if_neg (by omega),
    run_bind_ok (run_refuse (by omega)),run_bind_ok (run_saveUndo e),run_get_bind,
    run_bind_ok (run_deleteLinesNoUndo h₀ h₁ hlast)]
  exact run_bind_ok (run_appendLinesNoUndo hto.1 hafter (lineRange_ne_nil h₀ h₁ hlast))

theorem move_edited (h : move first last dest e=.ok u e') : Edited (core e) (core e') := by
  have hrun := h
  unfold move at h
  simp only [run_get_bind,bind_ok,refuse_ok] at h
  obtain ⟨_,_,⟨hr,rfl⟩,h⟩ := h
  by_cases hsame : dest=last ∨ dest=first-1
  · rw [if_pos hsame] at h
    exact .inl (setCurrent_trace (by omega) h₂ h)
  rw [if_neg hsame,bind_ok] at h
  obtain ⟨_,_,hin,_⟩ := h
  obtain ⟨hin,_⟩ := refuse_ok.mp hin
  have hlast := le_saved h₂
  have hdest : dest≤(saved e).buffer.last := le_saved (by omega)
  have hlen : ((range (saved e).buffer.lines first last).length : ℤ)=last-first+1 :=
    length_range h₀ h₁ hlast
  have hstep := @Step.move (core (saved e)) first last dest h₀ h₁ hlast (by omega) hdest
    (by omega)
  rw [←hlen] at hstep
  rw [run_move h₀ h₁ h₂ (by omega) (by omega) (by omega)] at hrun
  cases hrun
  exact edited_one hstep trivial Step.count

end

def noted (c : Change) (e : Engine W) : Engine W := { e with history := e.history++[c] }

theorem run_note (c : Change) (e : Engine W) : note c e=.ok ⟨⟩ (noted c e) := rfl

/-- `changeLines` on a range of the buffer, or on the first line of an empty one. -/
theorem run_changeLines (h₀ : 1≤first) (h₁ : first≤last)
    (h₂ : last ≤ max e.buffer.last 1) : changeLines first last lines e=.ok ⟨⟩ (
      if e.buffer.last=0 then
        if lines=[] then { saved e with buffer := { e.buffer with current := 0 } }
        else { inserted 0 lines (saved e) with
          changeSeq := (saved e).changeSeq+1
          history := (saved e).history++[.insert 0 lines] }
      else
        let e₁ := noted (.delete first last) (deleted first last (saved e))
        if lines=[] then { e₁ with changeSeq := e₁.changeSeq+1 }
        else { inserted (first-1) lines e₁ with
          changeSeq := e₁.changeSeq+1
          history := e₁.history++[.insert (first-1) lines] }) := by
  have hnn : 0≤(saved e).buffer.last := Int.natCast_nonneg _
  have hbuf := saved_buffer e
  unfold changeLines
  rw [run_bind_ok (run_saveUndo e),run_get_bind]
  by_cases hz : e.buffer.last=0
  · have hz' : (saved e).buffer.last=0 ∧ (first=0 ∨ first=1) ∧ (last=0 ∨ last=1) := by
      rw [hbuf]
      omega
    rw [if_pos hz',if_pos hz]
    by_cases hl : lines=[]
    · unfold appendLinesNoUndo
      rw [bind_assoc,run_bind_ok (run_bufferAppend le_rfl hnn)]
      simp [hl,onlyIf,Marks.insert_zero,hbuf]
    · rw [run_bind_ok (run_appendLinesNoUndo le_rfl hnn hl),run_onlyIf hl,if_neg hl]
      rfl
  · have hz' : ¬ ((saved e).buffer.last=0 ∧ (first=0 ∨ first=1) ∧ (last=0 ∨ last=1)) := by
      rw [hbuf]
      exact fun h => hz h.1
    have hlast : last≤(saved e).buffer.last := by
      rw [hbuf] at hnn ⊢
      omega
    have hdel := @deleted_last _ (saved e) _ _ h₀ h₁ hlast
    rw [if_neg hz',if_neg hz,run_bind_ok (run_deleteLinesNoUndo h₀ h₁ hlast),
      run_bind_ok (run_note _ _)]
    by_cases hl : lines=[]
    · simp only [if_pos hl]
      rfl
    have hafter : first-1≤(noted (.delete first last)
        (deleted first last (saved e))).buffer.last := by
      change first-1≤(deleted first last (saved e)).buffer.last
      omega
    rw [if_neg hl,run_bind_ok (run_appendLinesNoUndo (by omega) hafter hl)]
    simp only [if_neg hl]
    rfl

theorem changeLines_edited (h₀ : 1≤first) (h₁ : first≤last)
    (h₂ : last ≤ max e.buffer.last 1) (h : changeLines first last lines e=.ok u e') :
    Edited (core e) (core e') := by
  have hnn : 0≤(saved e).buffer.last := Int.natCast_nonneg _
  have hbuf := saved_buffer e
  rw [run_changeLines h₀ h₁ h₂] at h
  cases h
  split
  · split_ifs with hl
    · refine .inr ⟨[.dot 0],by simp [Editing],.inr (by simp [IsDot]),
        (saveUndo_path e).append (.one ?_)⟩
      have hstep := @Step.dot (core (saved e)) 0 le_rfl hnn
      rw [←hbuf]
      exact hstep
    · exact edited_one (Step.insert hl le_rfl hnn) trivial Step.count
  · have hlast : last≤(saved e).buffer.last := by
      rw [hbuf] at hnn ⊢
      omega
    have hdel := @deleted_last _ (saved e) _ _ h₀ h₁ hlast
    split_ifs with hl
    · exact edited_one (Step.delete h₀ h₁ hlast) trivial Step.count
    refine .inr ⟨[.delete first last,.insert (first-1) lines,.count],by simp [Editing],
      .inl (by simp),(saveUndo_path e).append (.cons (Step.delete h₀ h₁ hlast) ?_)⟩
    refine .cons (Step.insert hl (by omega) ?_) (.one Step.count)
    change first-1≤(deleted first last (saved e)).buffer.last
    omega

theorem join_range (h : join first last e=.ok u e') : 1≤first ∧ first≤last ∧
    last≤e.buffer.last := by
  unfold join at h
  simp only [run_get_bind,bind_ok,refuse_ok] at h
  omega

theorem join_edited (h : join first last e=.ok u e') : Edited (core e) (core e') := by
  obtain ⟨h₀,h₁,h₂⟩ := join_range h
  rw [run_join h₀ h₁ h₂] at h
  cases h
  split
  · exact .inl (Trace.refl _)
  · exact edited_one (Step.join h₀ (by omega) (le_saved h₂)) trivial Step.count

theorem copy_edited (h : copy first last dest e=.ok u e') : Edited (core e) (core e') := by
  unfold copy at h
  simp only [run_get_bind,bind_ok,refuse_ok] at h
  obtain ⟨_,_,⟨_,rfl⟩,h⟩ := h
  exact appendLines_edited h

end

section
variable {W : Type} (host : Host W) {e e' : Engine W} {u : Unit} {flags : SubFlags}
  {replacement : Bytes}

theorem rewriteLine_ne_nil {re : Matcher} {line : Bytes}
    {pieces : List Bytes} (h : rewriteLine re flags replacement line=.ok (some pieces)) :
    pieces≠[] := by
  unfold rewriteLine at h
  cases hf : re.findAll line with
  | error t =>
    rw [hf] at h
    cases h
  | ok ms =>
    simp only [hf,bind,Except.bind] at h
    split at h
    · cases h
    · cases h
      exact splitOnP_ne_nil _ _

/-- The steps of a substitution on a range: its lines are split one by one. -/
def IsSplit : Act→Prop
  | .split _ _ => True
  | _ => False

def touched (m : ℤ) (c : Core) : Core :=
  { c with buffer := { c.buffer with current := m,dirty := true } }

/-- The loop does not look at dot and the flag, so its steps may follow those that set them. -/
theorem substituteFrom_path {re : Matcher} (left : ℕ) {n : ℤ}
    {r r' : Bool×ℤ} (h₀ : 1≤n) (h₁ : n+left≤e.buffer.last+1)
    (hr : r.1=true→1≤r.2 ∧ r.2≤e.buffer.last)
    (h : substituteFrom re flags replacement left n r e=.ok r' e') : ∃acts,(∀a∈acts,IsSplit a) ∧
      (∀m,Path Step (touched m (core e)) acts (touched m (core e'))) ∧
      (r'.1=true→1≤r'.2 ∧ r'.2≤e'.buffer.last) ∧ (r'.1=false → r.1=false ∧ core e'=core e) := by
  induction left generalizing e n r with
  | zero =>
    cases h
    exact ⟨[],by simp,fun _ => .nil _,hr,fun h => ⟨h,rfl⟩⟩
  | succ left ih =>
    rw [substituteFrom,run_get_bind,bind_ok] at h
    obtain ⟨o,e₁,ho,h⟩ := h
    obtain ⟨hline,rfl⟩ := orRaise_ok.mp ho
    cases o with
    | none => exact ih (by omega) (by omega) hr h
    | some pieces =>
      have hne := rewriteLine_ne_nil hline
      have hpos : 0<pieces.length := length_pos_iff.mpr hne
      have hstep m := @Step.split (touched m (core e)) n pieces hne h₀
        (show n≤e.buffer.last by omega) rfl
      obtain ⟨_,e₁,hsplit,h⟩ := bind_ok.mp h
      cases hsplit
      have hlen := @length_split e.buffer.lines pieces n h₀ (show n≤e.buffer.last by omega)
      obtain ⟨acts,hacts,hp,hr',hnil⟩ := ih (by omega)
        (by simp only [Buffer.last] at h₁ ⊢; omega)
        (fun _ => by simp only [Buffer.last] at h₁ ⊢; omega) h
      refine ⟨.split n pieces::acts,by simpa [IsSplit] using hacts,
        fun m => .cons (hstep m) (hp m),hr',?_⟩
      intro hfalse
      simpa using (hnil hfalse).1

theorem substitute_edited {first last : ℤ} {arg : Bytes} (h₀ : 1≤first) (h₁ : first≤last)
    (h₂ : last≤e.buffer.last) (h : substitute host first last arg e=.ok u e') :
    Edited (core e) (core e') := by
  rw [substitute,bind_ok] at h
  obtain ⟨sub,e₁,hsub,h⟩ := h
  have hcore₁ := (keeps_parseSubstitute host _).ok hsub
  rw [substituteLines,run_modify_bind,run_get_bind] at h
  generalize he₂ : ({ e₁ with
    lastRE := sub.pattern
    lastReplacement := sub.replacement
    hasReplacement := true } : Engine W)=e₂ at h
  have hcore₂ : core e₂=core e := by
    rw [←hcore₁,←he₂]
    rfl
  have hlast := last_of_core hcore₂
  rw [←hcore₂]
  rw [run_bind_ok (run_saveUndo e₂),bind_ok] at h
  obtain ⟨r,e₃,hloop,h⟩ := h
  obtain ⟨acts,hacts,hp,hrange,hnil⟩ := substituteFrom_path _ h₀
    (by rw [saved_buffer]; omega) (by simp) hloop
  obtain ⟨changedAny,lastChanged⟩ := r
  cases changedAny with
  | false =>
    obtain ⟨_,hcore₃⟩ := hnil rfl
    simp only [Bool.not_false,if_true] at h
    rw [substituteMissed,run_get_bind] at h
    split_ifs at h with hglobal
    · have hcore := (keeps_noteAttempt false).ok h
      -- inside a global command nothing was saved
      have hin : (core e₂).inGlobal=true := by
        have h₃ := congrArg Core.inGlobal hcore₃
        have h₂ : (saved e₂).inGlobal=e₂.inGlobal := by
          unfold saved saveUndo
          simp only [run_modify]
          split <;> rfl
        exact (h₃.trans h₂).symm.trans hglobal
      have hsave := saveUndo_path e₂
      rw [saves,if_pos hin] at hsave
      exact .inl (Trace.of_eq ((hcore.trans hcore₃).trans hsave.eq_of_nil))
    · simp at h
  | true =>
    simp only [Bool.not_true,Bool.false_eq_true,if_false] at h
    obtain ⟨hr₀,hr₁⟩ := hrange rfl
    rw [run_modify_bind,bind_ok] at h
    obtain ⟨_,e₄,hnote,h⟩ := h
    have hcore₄ := (keeps_noteAttempt true).ok hnote
    have hdots : Trace IsDot (core e₄) (core e') := by
      cases hstyle : sub.flags.style with
      | none =>
        rw [hstyle] at h
        cases h
        exact Trace.refl _
      | some style =>
        rw [hstyle] at h
        exact printOne_trace host h
    refine Edited.dots (.inr ⟨Act.touch first::(acts++[Act.dot lastChanged,Act.count]),?_,
      .inl (by simp),?_⟩) hdots
    · refine forall_mem_cons.mpr ⟨trivial,forall_mem_append.mpr ⟨fun a ha => ?_,by simp [Editing]⟩⟩
      have := hacts a ha
      cases a <;> trivial
    rw [hcore₄]
    have htouch : Step (core (saved e₂)) (.touch first) (touched first (core (saved e₂))) :=
      Step.touch h₀ (show first≤(saved e₂).buffer.last by rw [saved_buffer]; omega)
    exact (saveUndo_path e₂).append (.cons htouch ((hp first).append
      (.cons (Step.dot (by omega) hr₁) (.one Step.count))))

end

end Coreutils.EdTraces
