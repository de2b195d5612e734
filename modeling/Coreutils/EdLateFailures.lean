import Coreutils.EdFailures

/-!
# Failures after a change

`s`, `c`, `k` and `E` can fail after they changed something. For each the condition is given under
which it does not show.
-/

namespace Coreutils.EdLateFailures
open List GoText EdText EdEngine EdAddress EdExecute EdSteps EdTraces EdCommands EdUndo EdFailures
  LineRanges Programs

section
variable {W : Type} (host : Host W) {e e' e₁ e₀ : Engine W} {err : EdError}

def Snapshotted (e : Engine W) : Prop :=
  e.undoValid=true ∧ e.undoBuffer=e.buffer ∧ e.undoMarks=e.marks

def changeArgs (addrs : List ℤ) (arg : Bytes) : Ed W (Option Style×List Bytes×ℤ×ℤ) := do
  let style ← suffix arg
  let text ← readInput
  let e ← get
  let (first,last) ← twoAddresses addrs e.buffer.current e.buffer.current true
  return (style,text,first,last)

def markArgs (addrs : List ℤ) (arg : Bytes) : Ed W (ℤ×UInt8×Option Style) := do
  let e ← get
  let a ← oneAddress addrs e.buffer.current false
  match trimRightBlank arg with
  | [] => fail "invalid mark"
  | k::rest => do
    refuse (1<rest.length ∨ k<97 ∨ 122<k) "invalid mark"
    let style ← suffix rest
    return (a,k,style)

def substituteArgs (addrs : List ℤ) (arg : Bytes) : Ed W (Substitution×ℤ×ℤ) := do
  let e ← get
  let (first,last) ← twoAddresses addrs e.buffer.current e.buffer.current false
  let arg ← readSubstituteArgument arg
  let sub ← parseSubstitute host arg
  return (sub,first,last)

def reloadName (addrs : List ℤ) (arg : Bytes) : Ed W Bytes := do
  refuse (addrs≠[]) "unexpected address"
  separated arg
  let e ← get
  let name := if trimBlank arg=[] then e.filename else trimBlank arg
  refuse (name=[]) "no current filename"
  return name

/-- The lines before the first one on which the expression fails, and what they become. -/
def rewrittenBefore (sub : Substitution) : List Bytes→Option (List Bytes×List Bytes)
  | [] => none
  | line::lines =>
    match rewriteLine sub.re sub.flags sub.replacement line with
    | .error _ => some ([],[])
    | .ok pieces =>
      (rewrittenBefore sub lines).map fun r => (line::r.1,pieces.getD [line]++r.2)

/-- A failure leaves no trace, in the state in which the addresses were evaluated. -/
def Traceless (cmd : Command) (addrs : List ℤ) (arg : Bytes) (e : Engine W) : Prop :=
  match cmd with
  -- the lines before the one that cannot be matched stay as they are, and the undo state is no news
  | .s => ∀sub first last e' old new,substituteArgs host addrs arg e=.ok (sub,first,last) e'→
      rewrittenBefore sub (e.lineRange first last)=some (old,new)→new=old ∧ Snapshotted e
  -- no line is left to print after all were changed to nothing
  | .c => ∀style first last e',changeArgs addrs arg e=.ok (some style,[],first,last) e'→
      first≤1→e.buffer.last ≤ max last 1→e.buffer.lines=[] ∧ Snapshotted e
  -- there is no current line to print after the mark was set
  | .k => ∀a k style e',markArgs addrs arg e=.ok (a,k,some style) e'→
      e.buffer.current=0→e.marks k=some a
  -- a file that cannot be read empties the buffer
  | .E => ∀name e' text,reloadName addrs arg e=.ok name e'→name.head?≠some 33→
      (host.read name e'.world).1=.error text→
      e.buffer.lines=[] ∧ e.buffer.dirty=false ∧ (∀k,e.marks k=none) ∧ e.undoValid=false
  | _ => True

/-- What the deferred part of `execute` makes of a failure. -/
theorem untouched_settle_iff : Untouched e (settle e (.error err e₁)) ↔
    e₁.buffer.lines=e.buffer.lines ∧ e₁.buffer.dirty=e.buffer.dirty ∧ e₁.marks=e.marks ∧
      (e₁.changeSeq=e.changeSeq ∨ e₁.buffer.current=e.buffer.current) ∧ e₁.undoValid=e.undoValid ∧
      (e.undoValid=true→e₁.undoBuffer=e.undoBuffer ∧ e₁.undoMarks=e.undoMarks) := by
  have hcur : (settle e (.error err e₁)).buffer.current=e.buffer.current ↔
      e₁.changeSeq=e.changeSeq ∨ e₁.buffer.current=e.buffer.current := by
    simp only [settle,failed,final_error]
    by_cases hseq : e₁.changeSeq=e.changeSeq <;> simp [hseq]
  constructor
  · intro h
    exact ⟨h.lines,h.dirty,h.marks,hcur.mp h.current,h.undoValid,h.undo⟩
  · rintro ⟨h₁,h₂,h₃,h₄,h₅,h₆⟩
    exact ⟨h₁,h₂,h₃,hcur.mpr h₄,h₅,h₆⟩

/-- After a snapshot alone `u` would restore the same exactly if the undo state was current. -/
theorem untouched_snapshot_iff (h₀ : still e=still e₀) (h₁ : still e₁ =
    { still e with undoBuffer := e.buffer,undoMarks := e.marks,undoValid := true }) :
    Untouched e₀ (settle e₀ (.error err e₁)) ↔ Snapshotted e := by
  simp only [still,Core.still,core,Still.mk.injEq] at h₀ h₁
  rw [untouched_settle_iff,Snapshotted]
  grind

def marked (k : UInt8) (a : ℤ) (e : Engine W) : Engine W :=
  { e with
    marks := fun j => if j=k then some a else e.marks j
    history := e.history++[.mark k a] }

def markStill (k : UInt8) (a : ℤ) (s : Still) : Still :=
  { s with marks := fun j => if j=k then some a else s.marks j }

theorem untouched_mark_iff {k : UInt8} {a : ℤ} (h : still e₁=markStill k a (still e)) :
    Untouched e (settle e (.error err e₁)) ↔ e.marks k=some a := by
  have hmarks : e₁.marks=fun j => if j=k then some a else e.marks j := congrArg Still.marks h
  rw [untouched_settle_iff,hmarks]
  constructor
  · rintro ⟨_,_,hm,_⟩
    simpa using (congrFun hm k).symm
  intro hk
  refine ⟨congrArg Still.lines h,congrArg Still.dirty h,?_,.inl (congrArg Still.changeSeq h),
    congrArg Still.undoValid h,fun _ => ⟨congrArg Still.undoBuffer h,congrArg Still.undoMarks h⟩⟩
  funext j
  split_ifs with hj
  · rw [hj,hk]
  · rfl

variable (addrs : List ℤ) (arg : Bytes) {first last n : ℤ} {lines A R : List Bytes}
  {sub : Substitution} {line : Bytes} {old new : List Bytes}

theorem markCommand_eq : markCommand host addrs arg =
    (markArgs addrs arg >>= fun r => modify (marked r.2.1 r.1) >>= fun _ =>
      printStyle host r.2.2) := by
  unfold markCommand markArgs
  cases trimRightBlank arg with
  | nil =>
    simp only [bind_assoc]
    rfl
  | cons k rest =>
    simp only [bind_assoc,pure_bind]
    rfl

theorem changeCommand_eq : input host .c addrs arg=(changeArgs addrs arg >>= fun r =>
      tryCatch (changeLines (if r.2.2.1=0 then 1 else r.2.2.1) (if r.2.2.2=0 then 1 else r.2.2.2)
        r.2.1) (fun _ => pure ()) >>= fun _ => printStyle host r.1) := by
  unfold input changeArgs inputChange
  simp

theorem changeArgs_range {addrs : List ℤ} {arg : Bytes} {style : Option Style} {text : List Bytes}
    (h : changeArgs addrs arg e=.ok (style,text,first,last) e') :
    0≤first ∧ first≤last ∧ last≤e.buffer.last := by
  simp only [changeArgs,bind_ok,run_get_bind] at h
  obtain ⟨_,e₁,hstyle,_,e₂,htext,⟨first',last'⟩,_,ha,h⟩ := h
  have hcore : core e₂=core e := (keeps_readInput.ok htext).trans ((keeps_suffix _).ok hstyle)
  have hlast : e₂.buffer.last=e.buffer.last := core_last hcore
  obtain ⟨_,h₀,h₁,h₂,_,_⟩ := twoAddresses_ok.mp ha
  cases h
  rw [←hlast]
  exact ⟨h₁,h₀,h₂⟩

theorem without_eq_nil (h₀ : 1≤first) (h₁ : first≤last)
    (h₂ : last≤lines.length) (h : without lines first last=[]) : first=1 ∧ last=lines.length := by
  have hlen := length_without h₀ h₁ h₂
  rw [h,length_nil] at hlen
  omega

/-- A change that leaves no current line had no text, and no line is left. -/
theorem changeLines_stuck {u : Unit} (h₀ : 1≤first)
    (h₁ : first≤last) (h₂ : last ≤ max e.buffer.last 1) (hg : e.inGlobal=false)
    (h : changeLines first last lines e=.ok u e') (hz : e'.buffer.current=0) :
    lines=[] ∧ (e.buffer.lines=[] ∧ still e' =
        { still e with undoBuffer := e.buffer,undoMarks := e.marks,undoValid := true } ∨
      e.buffer.lines≠[] ∧ e'.buffer.lines=[] ∧ first=1 ∧ last=e.buffer.last) := by
  have hlen : lines≠[]→(1 : ℤ)≤lines.length := fun hne => by
    have := length_pos_iff.mpr hne
    omega
  rw [run_changeLines h₀ h₁ h₂,saved_eq hg] at h
  cases h
  by_cases hempty : e.buffer.last=0
  · have hnil : e.buffer.lines=[] := length_eq_zero_iff.mp (by simpa [Buffer.last] using hempty)
    rw [if_pos hempty] at hz ⊢
    by_cases hl : lines=[]
    · rw [if_pos hl]
      exact ⟨hl,.inl ⟨hnil,rfl⟩⟩
    · rw [if_neg hl] at hz
      have hz' : (0 : ℤ)+lines.length=0 := hz
      have := hlen hl
      omega
  · have hne : e.buffer.lines≠[] := fun hnil => hempty (by simp [Buffer.last,hnil])
    rw [if_neg hempty] at hz ⊢
    by_cases hl : lines=[]
    · rw [if_pos hl] at hz ⊢
      have hgone : without e.buffer.lines first last=[] := by
        by_contra hleft
        have := dotAfter_pos hleft h₀
        have hz' : dotAfter (without e.buffer.lines first last) first=0 := hz
        omega
      exact ⟨hl,.inr ⟨hne,hgone,without_eq_nil h₀ h₁ (by simp only [Buffer.last] at *; omega)
        hgone⟩⟩
    · rw [if_neg hl] at hz
      have hz' : first-1+(lines.length : ℤ)=0 := hz
      have := hlen hl
      omega

theorem reload_eq : withoutAddress addrs "unexpected address" (edit host arg false) =
      (reloadName addrs arg >>= reload host) := by
  unfold withoutAddress edit reloadName
  simp only [bind_assoc,pure_bind,onlyIf]
  rfl

/-- A failed `reload` is of a shell command that failed, or of a file that cannot be read. -/
theorem reload_error {name : Bytes} (h : reload host name e=.error err e') :
    (name.head?=some 33 ∧ still e'=still e) ∨
      name.head?≠some 33 ∧ ∃text,(host.read name e.world).1=.error text ∧
        e'.buffer=Buffer.reset [] false ∧ (e'.marks=fun _ => none) ∧ e'.undoValid=false ∧
        e'.changeSeq=e.changeSeq+1 := by
  unfold reload at h
  split_ifs at h with hbang
  · refine .inl ⟨hbang,?_⟩
    rw [bind_error] at h
    rcases h with h | ⟨data,e₁,_,h⟩
    · exact (still_of_core (keeps_shellOutput host _)).error h
    · rw [run_modify_bind,reloaded,run_modify_bind,onlyIf] at h
      split at h <;> cases h
  · refine .inr ⟨hbang,?_⟩
    rw [bind_error] at h
    rcases h with h | ⟨n,e₁,_,h⟩
    · have hread : hostRead host name e =
          .ok (host.read name e.world).1 { e with world := (host.read name e.world).2 } := rfl
      rw [run_tryCatch,load,run_bind_ok hread] at h
      cases hr : (host.read name e.world).1 with
      | error text =>
        rw [hr] at h
        cases h
        exact ⟨text,rfl,rfl,rfl,rfl,rfl⟩
      | ok data =>
        rw [hr] at h
        cases h
    · rw [reloaded,run_modify_bind,onlyIf] at h
      split at h <;> cases h

/-! ### Substitution -/

theorem rewrittenBefore_take
    (h : rewrittenBefore sub lines=some (old,new)) : lines.take old.length=old := by
  induction lines generalizing old new with
  | nil => cases h
  | cons line lines ih =>
    rw [rewrittenBefore] at h
    cases hr : rewriteLine sub.re sub.flags sub.replacement line with
    | error t =>
      rw [hr] at h
      cases h
      rfl
    | ok pieces =>
      rw [hr] at h
      obtain ⟨⟨old',new'⟩,hrest,heq⟩ := Option.map_eq_some_iff.mp h
      cases heq
      simp [ih hrest]

theorem line_of_append
    (hlines : e.buffer.lines=A++line::R) (hn : n=A.length+1) : e.line n=line := by
  simp [Engine.line,hlines,hn]

theorem lines_split {pieces : List Bytes} (hlines : lines=A++line::R) (hn : n=A.length+1) :
    lines.take (n-1).toNat++pieces++lines.drop n.toNat=(A++pieces)++R := by
  have h₁ : (n-1).toNat=A.length := by omega
  have h₂ : n.toNat=A.length+1 := by omega
  rw [h₁,h₂,hlines,take_left,drop_append]
  simp

/-- The loop fails at the first line the expression fails on; those before are rewritten. -/
theorem substituteFrom_rewrites (left : ℕ) {r : Bool×ℤ}
    {out : EStateM.Result EdError (Engine W) (Bool×ℤ)} (hlines : e.buffer.lines=A++R)
    (hn : n=A.length+1) (hleft : left≤R.length)
    (h : substituteFrom sub.re sub.flags sub.replacement left n r e=out) : match out with
    | .ok _ _ => rewrittenBefore sub (R.take left)=none
    | .error _ e' => ∃old new,rewrittenBefore sub (R.take left)=some (old,new) ∧
      old.length≤new.length ∧ (new.length=old.length→e'.marks=e.marks) ∧
      still e'={ still e with lines := A++new++R.drop old.length,marks := e'.marks } := by
  induction left generalizing e n r A R with
  | zero =>
    cases h
    rfl
  | succ left ih =>
    obtain ⟨line,R,rfl⟩ := exists_cons_of_length_pos (show 0<R.length by omega)
    simp only [length_cons,add_le_add_iff_right] at hleft
    rw [substituteFrom,run_get_bind,line_of_append hlines hn] at h
    rw [take_succ_cons,rewrittenBefore]
    cases hr : rewriteLine sub.re sub.flags sub.replacement line with
    | error t =>
      rw [hr] at h
      cases h
      refine ⟨[],[],rfl,le_rfl,fun _ => rfl,?_⟩
      simp [still,Core.still,core,hlines]
    | ok o =>
      rw [run_bind_ok (orRaise_ok.mpr ⟨hr,rfl⟩)] at h
      cases o with
      | none =>
        have hrest := ih (A := A++[line]) (by simp [hlines]) (by simp [hn]) hleft h
        cases out with
        | ok => simp [hrest]
        | error =>
          obtain ⟨old,new,hrest,hlen,hmarks,hstill⟩ := hrest
          refine ⟨line::old,line::new,?_,by simpa using hlen,fun heq => hmarks (by simpa using heq),
            ?_⟩
          · rw [hrest]
            rfl
          · rw [hstill]
            simp
      | some pieces =>
        have hpos : 0<pieces.length := length_pos_iff.mpr (rewriteLine_ne_nil hr)
        have hn' : n+(pieces.length : ℤ)=((A++pieces).length : ℤ)+1 := by
          rw [hn,length_append]
          push_cast
          ring
        have hrest := ih (A := A++pieces) (lines_split hlines hn) hn' hleft h
        cases out with
        | ok => simp [hrest]
        | error =>
          obtain ⟨old,new,hrest,hlen,hmarks,hstill⟩ := hrest
          refine ⟨line::old,pieces++new,?_,by simp; omega,fun heq => ?_,?_⟩
          · rw [hrest]
            rfl
          · simp only [length_append,length_cons] at heq
            have hone : (pieces.length : ℤ)-1=0 := by omega
            rw [hmarks (by omega)]
            funext k
            simp [hone]
          · rw [hstill]
            simp [still,Core.still,core]

/-- After the snapshot and a part of the lines, nothing shows when those lines are as they were and
the undo state was the present one. -/
theorem untouched_rewritten_iff (h₀ : still e=still e₀)
    (hlines : e.buffer.lines=A++R) (hold : R.take old.length=old) (hstill : still e₁={ still e with
      lines := A++new++R.drop old.length
      marks := e₁.marks
      undoBuffer := e.buffer
      undoMarks := e.marks
      undoValid := true }) (hmarks : new.length=old.length→e₁.marks=e.marks) :
    Untouched e₀ (settle e₀ (.error err e₁)) ↔ new=old ∧ Snapshotted e := by
  have hR : R=old++R.drop old.length := by conv_lhs => rw [←take_append_drop old.length R,hold]
  have hsame : new=old→(Untouched e₀ (settle e₀ (.error err e₁)) ↔ Snapshotted e) := by
    rintro rfl
    refine untouched_snapshot_iff h₀ ?_
    rw [hstill,hmarks rfl,append_assoc,←hR,←hlines]
    rfl
  constructor
  · intro hu
    have hl : A++(new++R.drop old.length)=A++R := by
      rw [←hlines,←append_assoc,show e.buffer.lines=e₀.buffer.lines from congrArg Still.lines h₀]
      exact (congrArg Still.lines hstill).symm.trans hu.lines
    have hnew : new=old := append_cancel_right ((append_cancel_left hl).trans hR)
    exact ⟨hnew,(hsame hnew).mp hu⟩
  · rintro ⟨hnew,hsnap⟩
    exact (hsame hnew).mpr hsnap

theorem substituteLines_error (h₀ : 1≤first) (h₁ : first≤last)
    (h₂ : last≤e.buffer.last) (hg : e.inGlobal=false)
    (h : substituteLines host sub first last e=.error err e') :
    rewrittenBefore sub (e.lineRange first last)=none ∧ still e'=still e ∨
      ∃old new,rewrittenBefore sub (e.lineRange first last)=some (old,new) ∧ still e'={ still e with
          lines := e.buffer.lines.take (first-1).toNat++new ++
            (e.buffer.lines.drop (first-1).toNat).drop old.length
          marks := e'.marks
          undoBuffer := e.buffer
          undoMarks := e.marks
          undoValid := true } ∧ (new.length=old.length→e'.marks=e.marks) := by
  have hrange : e.lineRange first last =
      (e.buffer.lines.drop (first-1).toNat).take (last+1-first).toNat := by
    rw [Engine.lineRange,drop_take]
    congr 1
    omega
  simp only [Buffer.last] at h₂
  have hn : first=((e.buffer.lines.take (first-1).toNat).length : ℤ)+1 := by
    rw [length_take]
    omega
  have hleft : (last+1-first).toNat≤(e.buffer.lines.drop (first-1).toNat).length := by
    rw [length_drop]
    omega
  have hlines := (take_append_drop (first-1).toNat e.buffer.lines).symm
  rw [hrange]
  rw [substituteLines,run_modify_bind,run_get_bind] at h
  generalize he₂ : ({ e with
    lastRE := sub.pattern
    lastReplacement := sub.replacement
    hasReplacement := true } : Engine W)=e₂ at h
  have hcore : core e₂=core e := by
    rw [←he₂]
    rfl
  have hg₂ : e₂.inGlobal=false := (congrArg Core.inGlobal hcore).trans hg
  have hbuf : e₂.buffer=e.buffer := congrArg Core.buffer hcore
  have hlines₂ : (saved e₂).buffer.lines=_ :=
    (congrArg Buffer.lines ((saved_buffer e₂).trans hbuf)).trans hlines
  rw [run_bind_ok (run_saveUndo e₂),bind_error] at h
  rcases h with h | ⟨⟨changedAny,lastChanged⟩,e₃,hloop,h⟩
  · obtain ⟨old,new,hbefore,_,hmarks,hstill⟩ := substituteFrom_rewrites _ hlines₂ hn hleft h
    refine .inr ⟨old,new,hbefore,?_,?_⟩
    · rw [hstill,saved_eq hg₂,←he₂]
      rfl
    · rw [saved_marks,show e₂.marks=e.marks from congrArg Core.marks hcore] at hmarks
      exact hmarks
  · refine .inl ⟨substituteFrom_rewrites _ hlines₂ hn hleft hloop,?_⟩
    obtain ⟨_,_,_,hr,hnil⟩ := substituteFrom_path _ h₀ (by
      rw [saved_buffer,hbuf,Buffer.last]
      omega) (by simp) hloop
    cases changedAny with
    | false =>
      obtain ⟨_,hcore₃⟩ := hnil rfl
      have hg₃ : e₃.inGlobal=false := by
        rw [show e₃.inGlobal=(saved e₂).inGlobal from congrArg Core.inGlobal hcore₃,saved_eq hg₂]
        exact hg₂
      simp only [Bool.not_false,if_true] at h
      rw [substituteMissed,run_get_bind,if_neg (by simp [hg₃]),run_set_bind] at h
      cases h
      have hstill₃ : still e₃=still (saved e₂) := congrArg Core.still hcore₃
      change { still e₃ with
        undoBuffer := e₂.undoBuffer
        undoMarks := e₂.undoMarks
        undoValid := e₂.undoValid }=still e
      rw [hstill₃,saved_eq hg₂,←(show still e₂=still e from congrArg Core.still hcore)]
      rfl
    | true =>
      -- the last changed line is there to be printed
      obtain ⟨hr₀,hr₁⟩ := hr rfl
      simp only [Bool.not_true,Bool.false_eq_true,if_false] at h
      rw [run_modify_bind,bind_error] at h
      rcases h with h | ⟨_,e₄,hnote,h⟩
      · cases h
      have hlast₄ := core_last ((keeps_noteAttempt true).ok hnote)
      cases hstyle : sub.flags.style with
      | none =>
        rw [hstyle] at h
        cases h
      | some style =>
        rw [hstyle] at h
        obtain ⟨e₅,he₅⟩ := @printOne_ok _ host e₄ lastChanged style hr₀ (by
          rw [hlast₄]
          exact hr₁)
        dsimp only at h
        rw [he₅] at h
        cases h

theorem substituteCommand_eq : substituteCommand host addrs arg =
    (substituteArgs host addrs arg >>= fun r => substituteLines host r.1 r.2.1 r.2.2) := by
  unfold substituteCommand substituteArgs substitute
  simp

theorem substituteArgs_range {addrs : List ℤ} {arg : Bytes}
    (h : substituteArgs host addrs arg e=.ok (sub,first,last) e') :
    1≤first ∧ first≤last ∧ last≤e.buffer.last := by
  rw [substituteArgs,run_get_bind] at h
  obtain ⟨_,_,h₀,h₁,h₂,h⟩ := range_ok h
  simp only [bind_ok] at h
  obtain ⟨_,_,_,_,_,_,h⟩ := h
  cases h
  exact ⟨h₀,h₁,h₂⟩

section
variable (h₀ : still e=still e₀) (hc : InRange (core e))
include h₀ hc

theorem mark_untouched_iff {addrs : List ℤ} {arg : Bytes}
    (h : markCommand host addrs arg e=.error err e') :
    Untouched e₀ (settle e₀ (.error err e')) ↔ Traceless host .k addrs arg e := by
  have hkeeps : Keeps core (markArgs addrs arg : Ed W _) := by
    refine keeps_get.bind fun e => (keeps_oneAddress _ _ _).bind fun a => ?_
    cases trimRightBlank arg <;> simp
  rw [markCommand_eq,bind_error] at h
  rcases h with h | ⟨⟨a,k,style⟩,e₁,hargs,h⟩
  · exact iff_of_true (untouched_settle (((still_of_core hkeeps).error h).trans h₀))
      (by simp [Traceless,h])
  have hcore := hkeeps.ok hargs
  rw [run_modify_bind] at h
  have ha : 1≤a ∧ a≤e.buffer.last := by
    rw [markArgs,run_get_bind,bind_ok] at hargs
    obtain ⟨a',_,ha,hargs⟩ := hargs
    obtain ⟨_,ha₀,ha₁,ha₂,rfl⟩ := oneAddress_ok.mp ha
    have hne := ha₂ rfl
    cases htrim : trimRightBlank arg <;> rw [htrim] at hargs
    · cases hargs
    · simp only [bind_ok] at hargs
      obtain ⟨_,_,_,_,_,_,hargs⟩ := hargs
      cases hargs
      omega
  have hrange : InRange (core (marked k a e₁)) :=
    (Step.mark ha.1 (core_last hcore ▸ ha.2)).inRange (hcore ▸ hc)
  obtain ⟨hzero,hsome⟩ := printStyle_error host hrange h
  obtain ⟨style,rfl⟩ := Option.isSome_iff_exists.mp hsome
  have hcur : e.buffer.current=0 :=
    (congrArg (fun c : Core => c.buffer.current) hcore).symm.trans hzero
  have hstill : still e'=markStill k a (still e₀) := by
    rw [(still_printStyle host _).error h,←h₀,
      ← (show still e₁=still e from congrArg Core.still hcore)]
    rfl
  have hmarks : e₀.marks=e.marks := (congrArg Still.marks h₀).symm
  rw [untouched_mark_iff hstill,hmarks]
  simp only [Traceless,hargs,hcur]
  grind

theorem change_untouched_iff {addrs : List ℤ} {arg : Bytes} (hg : e.inGlobal=false)
    (h : input host .c addrs arg e=.error err e') :
    Untouched e₀ (settle e₀ (.error err e')) ↔ Traceless host .c addrs arg e := by
  have hkeeps : Keeps core (changeArgs addrs arg : Ed W _) :=
    (keeps_suffix _).bind fun _ => keeps_readInput.bind fun _ => by simp
  rw [changeCommand_eq,bind_error] at h
  rcases h with h | ⟨⟨style,text,first,last⟩,e₁,hargs,h⟩
  · exact iff_of_true (untouched_settle (((still_of_core hkeeps).error h).trans h₀))
      (by simp [Traceless,h])
  have hcore := hkeeps.ok hargs
  have hstill : still e₁=still e := congrArg Core.still hcore
  have hbuf : e₁.buffer=e.buffer := congrArg Core.buffer hcore
  obtain ⟨hfirst,hle,hlast⟩ : 0≤first ∧ first≤last ∧ last≤e.buffer.last := changeArgs_range hargs
  generalize hf : (if first=0 then 1 else first)=first' at h
  generalize hl : (if last=0 then 1 else last)=last' at h
  have hr : 1≤first' ∧ first'≤last' ∧ last' ≤ max e₁.buffer.last 1 := by
    rw [hbuf]
    split at hf <;> split at hl <;> omega
  obtain ⟨e₂,hrun⟩ : ∃e₂,changeLines first' last' text e₁=.ok ⟨⟩ e₂ :=
    ⟨_,run_changeLines hr.1 hr.2.1 hr.2.2⟩
  have hrange := (changeLines_edited hr.1 hr.2.1 hr.2.2 hrun).inRange (hcore ▸ hc)
  rw [run_bind_ok (tryCatch_of_ok hrun)] at h
  obtain ⟨hzero,hsome⟩ := printStyle_error host hrange h
  obtain ⟨style,rfl⟩ := Option.isSome_iff_exists.mp hsome
  have hfinal := (still_printStyle host _).error h
  have hg₁ : e₁.inGlobal=false := (congrArg Core.inGlobal hcore).trans hg
  obtain ⟨rfl,hends⟩ := changeLines_stuck hr.1 hr.2.1 hr.2.2 hg₁ hrun hzero
  have hlast₁ : e₁.buffer.last=e.buffer.last := by rw [hbuf]
  rcases hends with ⟨hempty,hsaved⟩ | ⟨hne,hgone,hone,hall⟩
  · rw [hbuf] at hempty
    have hlen : e.buffer.last=0 := by simp [Buffer.last,hempty]
    have hmarks : e₁.marks=e.marks := congrArg Core.marks hcore
    rw [hsaved,hstill,hbuf,hmarks] at hfinal
    rw [untouched_snapshot_iff h₀ hfinal]
    have hall : first≤1 ∧ e.buffer.last ≤ max last 1 := by omega
    simp only [Traceless,hargs,hempty]
    grind
  · refine iff_of_false (fun hu => ?_) (fun htrace => ?_)
    · have hl₀ : e'.buffer.lines=e₀.buffer.lines := hu.lines
      have hl₁ : e'.buffer.lines=[] := (congrArg Still.lines hfinal).trans hgone
      have hl₂ : e.buffer.lines=e₀.buffer.lines := congrArg Still.lines h₀
      rw [hbuf] at hne
      exact hne (hl₂.trans (hl₀.symm.trans hl₁))
    · rw [hbuf] at hne
      refine hne (htrace style first last e₁ hargs ?_ ?_).1
      · split at hf <;> omega
      · split at hl <;> omega

omit hc in
theorem reload_untouched_iff {addrs : List ℤ} {arg : Bytes} (hc₀ : InRange (core e₀))
    (h : withoutAddress addrs "unexpected address" (edit host arg false) e=.error err e') :
    Untouched e₀ (settle e₀ (.error err e')) ↔ Traceless host .E addrs arg e := by
  have hkeeps : Keeps core (reloadName addrs arg : Ed W _) :=
    (keeps_refuse _ _).bind fun _ => (keeps_separated _).bind fun _ => by simp
  rw [reload_eq,bind_error] at h
  rcases h with h | ⟨name,e₁,hargs,h⟩
  · exact iff_of_true (untouched_settle (((still_of_core hkeeps).error h).trans h₀))
      (by simp [Traceless,h])
  have hcore := hkeeps.ok hargs
  have hstill : still e₁=still e₀ := (congrArg Core.still hcore).trans h₀
  rcases reload_error host h with ⟨hbang,hsame⟩ | ⟨hbang,text,hread,hbuf,hmarks,hvalid,hseq⟩
  · exact iff_of_true (untouched_settle (hsame.trans hstill)) (by
      simp only [Traceless,hargs]
      grind)
  simp only [still,Core.still,core,Still.mk.injEq] at h₀
  obtain ⟨hlines₀,hdirty₀,hmarks₀,-,-,hvalid₀,-⟩ := h₀
  rw [untouched_settle_iff,hbuf,hmarks,hvalid,←hlines₀,←hdirty₀,←hmarks₀,←hvalid₀]
  constructor
  · rintro ⟨hl,hd,hm,_,hv,_⟩ name' e₂ text' hargs' _ _
    exact ⟨hl.symm,hd.symm,fun k => congrFun hm.symm k,hv.symm⟩
  intro htrace
  obtain ⟨hl,hd,hm,hv⟩ := htrace name e₁ text hargs hbang hread
  have hdot : e₀.buffer.current=0 := by
    have h₁ : 0≤e₀.buffer.current ∧ e₀.buffer.current≤e₀.buffer.last := hc₀.dot
    simp only [Buffer.last,←hlines₀,hl,length_nil] at h₁
    omega
  exact ⟨hl.symm,hd.symm,(funext hm).symm,.inr hdot.symm,hv.symm,by simp [hv]⟩

omit hc in
theorem substitute_untouched_iff {addrs : List ℤ} {arg : Bytes} (hg : e.inGlobal=false)
    (h : substituteCommand host addrs arg e=.error err e') :
    Untouched e₀ (settle e₀ (.error err e')) ↔ Traceless host .s addrs arg e := by
  have hkeeps : Keeps core (substituteArgs host addrs arg) :=
    keeps_get.bind fun _ => (keeps_twoAddresses _ _ _ _).bind fun _ => by simp
  rw [substituteCommand_eq,bind_error] at h
  rcases h with h | ⟨⟨sub,first,last⟩,e₁,hargs,h⟩
  · exact iff_of_true (untouched_settle (((still_of_core hkeeps).error h).trans h₀))
      (by simp [Traceless,h])
  have hcore := hkeeps.ok hargs
  have hstill : still e₁=still e := congrArg Core.still hcore
  have hbuf : e₁.buffer=e.buffer := congrArg Core.buffer hcore
  have hmarks₁ : e₁.marks=e.marks := congrArg Core.marks hcore
  obtain ⟨hfirst,hle,hlast⟩ := substituteArgs_range host hargs
  have hlines : e₁.lineRange first last=e.lineRange first last := by simp [Engine.lineRange,hbuf]
  have hargs_iff : Traceless host .s addrs arg e ↔ ∀old new,
      rewrittenBefore sub (e.lineRange first last)=some (old,new)→new=old ∧ Snapshotted e := by
    simp only [Traceless,hargs]
    grind
  rw [hargs_iff]
  rcases substituteLines_error host hfirst hle (core_last hcore ▸ hlast)
    ((congrArg Core.inGlobal hcore).trans hg) h with ⟨hnone,hsame⟩ | ⟨old,new,hbefore,hfinal,hmarks⟩
  · refine iff_of_true (untouched_settle (hsame.trans (hstill.trans h₀))) fun old new hbefore => ?_
    rw [←hlines,hnone] at hbefore
    cases hbefore
  rw [hlines] at hbefore
  rw [hstill,hbuf,hmarks₁] at hfinal
  rw [hmarks₁] at hmarks
  have hold : (e.buffer.lines.drop (first-1).toNat).take old.length=old := by
    have htake := rewrittenBefore_take hbefore
    rw [Engine.lineRange,drop_take,take_take] at htake
    have hlen := congrArg length htake
    rw [length_take] at hlen
    rwa [min_eq_left (by omega)] at htake
  rw [untouched_rewritten_iff h₀ (take_append_drop (first-1).toNat e.buffer.lines).symm hold
    hfinal hmarks]
  simp [hbefore]

end

def isCompound : Command→Bool
  | .e | .g | .v | .G | .V => true
  | _ => false

theorem andStay_error {m : Ed W Unit} (h : andStay m e=.error err e') : m e=.error err e' := by
  rw [andStay,bind_error] at h
  rcases h with h | ⟨_,_,_,h⟩
  · exact h
  · cases h

theorem withoutAddress_error {addrs : List ℤ} {text : String} {m : Ed W Unit} (hm : Keeps still m)
    (h : withoutAddress addrs text m e=.error err e') : still e'=still e := by
  have hkeeps : Keeps still (withoutAddress addrs text m) := (keeps_refuse _ _).bind fun _ => hm
  exact hkeeps.error h

theorem still_promptCommand (arg : Bytes) : Keeps still (promptCommand host arg) :=
  (still_of_core (keeps_suffix _)).bind fun _ => keeps_modify_bind (fun _ => rfl)
    (still_printStyleIf host _)

theorem still_helpCommand (toggle : Bool) (arg : Bytes) :
    Keeps still (helpCommand host toggle arg) :=
  (still_of_core (keeps_suffix _)).bind fun _ => keeps_modify_bind (fun _ => rfl)
    (keeps_get.bind fun _ => (still_of_core keeps_printIf).bind fun _ => still_printStyleIf host _)

theorem still_lineNumber : Keeps still (lineNumber host addrs arg) :=
  keeps_get.bind fun _ => (still_of_core (keeps_suffix _)).bind fun _ =>
    (still_of_core (keeps_oneAddress _ _ _)).bind fun _ =>
      (still_of_core (keeps_println _)).bind fun _ => still_printStyleIf host _

theorem still_printCommand (style : Style) (addrs : List ℤ) (arg : Bytes) :
    Keeps still (printCommand host style addrs arg) :=
  (still_of_core (keeps_suffix _)).bind fun _ => still_printRange host _ _

theorem writeCommand_error {addrs : List ℤ} {arg : Bytes}
    (h : writeCommand host addrs arg e=.error err e') : still e'=still e := by
  unfold writeCommand at h
  split at h
  all_goals
    rw [bind_error] at h
    rcases h with h | ⟨_,_,_,h⟩
    · exact write_error host h
    · cases h

theorem dispatch_untouched_iff {global : List ℤ→Bytes→Bool→Bool→Ed W Bool}
    {addrs : List ℤ} {letter : UInt8} {arg : Bytes} (h₀ : still e=still e₀)
    (hc₀ : InRange (core e₀)) (hc : InRange (core e)) (hg : e.inGlobal=false)
    (hcmd : isCompound (Command.ofByte letter)=false)
    (h : dispatch host global addrs (letter::arg) e=.error err e') :
    Untouched e₀ (settle e₀ (.error err e')) ↔
      Traceless host (Command.ofByte letter) addrs arg e := by
  have hstill : still e'=still e→(Untouched e₀ (settle e₀ (.error err e')) ↔ True) :=
    fun hs => iff_of_true (untouched_settle (hs.trans h₀)) trivial
  unfold dispatch at h
  cases hletter : Command.ofByte letter <;> simp only [hletter] at h hcmd
  case a => exact hstill (input_error host (.inl rfl) hc (andStay_error h))
  case i => exact hstill (input_error host (.inr rfl) hc (andStay_error h))
  case c => exact change_untouched_iff host h₀ hc hg (andStay_error h)
  case d => exact hstill (deleteCommand_error host hc (andStay_error h))
  case j => exact hstill (joinCommand_error host hc (andStay_error h))
  case k => exact mark_untouched_iff host h₀ hc (andStay_error h)
  case m | t => exact hstill (moveCommand_error host hc (andStay_error h))
  case p | n | l => exact hstill ((still_printCommand host _ _ _).error (andStay_error h))
  case equals => exact hstill ((still_lineNumber host _ _).error (andStay_error h))
  case s => exact substitute_untouched_iff host h₀ hg (andStay_error h)
  case w => exact hstill (writeCommand_error host h)
  case W => exact hstill (write_error host (andStay_error h))
  case r => exact hstill (readCommand_error host (andStay_error h))
  case u => exact hstill (undoCommand_error host hc (andStay_error h))
  case g | v | G | V | e => simp [isCompound] at hcmd
  case P => exact hstill (withoutAddress_error (still_promptCommand host _) (andStay_error h))
  case bang =>
    exact hstill (withoutAddress_error (still_of_core (keeps_shellEscape host _)) (andStay_error h))
  case E => exact reload_untouched_iff host h₀ hc₀ (andStay_error h)
  case q | Q =>
    refine hstill ?_
    rw [bind_error] at h
    rcases h with h | ⟨_,_,_,h⟩
    · exact (still_of_core keeps_quitCommand).error h
    · cases h
  case f =>
    exact hstill (withoutAddress_error (still_of_core (keeps_fileName _)) (andStay_error h))
  case h | H =>
    exact hstill (withoutAddress_error (still_helpCommand host _ _) (andStay_error h))
  case unknown =>
    cases h
    exact hstill rfl

/-- The condition under which a failing line leaves no trace. -/
def Harmless (line : Bytes) (e : Engine W) : Prop :=
  ∀addrs rest e₁ letter arg,parseAddresses host line e=.ok (addrs,rest) e₁→
    skipBlank rest=letter::arg→Traceless host (Command.ofByte letter) addrs arg e₁

def Simple (line : Bytes) (e : Engine W) : Prop :=
  ∀addrs rest e₁ letter arg,parseAddresses host line e=.ok (addrs,rest) e₁→
    skipBlank rest=letter::arg→isCompound (Command.ofByte letter)=false

/-- A failing command changes nothing exactly under the condition above. -/
theorem failure_untouched_iff (hc : InRange (core e)) (hg : e.inGlobal=false)
    (hsimple : Simple host line e) (h : execute host line e=.error err e') :
    Untouched e e' ↔ Harmless host line e := by
  rw [execute,executeWith,withDefer_error] at h
  obtain ⟨e₂,h,rfl⟩ := h
  rw [bind_error] at h
  rcases h with h | ⟨⟨addrs,rest⟩,e₁,hparse,h⟩
  · exact iff_of_true (untouched_settle ((still_parseAddresses host _).error h))
      (by simp [Harmless,h])
  dsimp only at h
  have hstill : still e₁=still e := (still_parseAddresses host _).ok hparse
  have hdots := parseAddresses_trace host hc hparse
  have hg₁ : e₁.inGlobal=false := (congrArg Core.inGlobal hdots.dots).trans hg
  cases hrest : skipBlank rest with
  | nil =>
    rw [hrest] at h
    have hprint := andStay_error h
    rw [run_get_bind] at hprint
    exact iff_of_true (untouched_settle (((still_printOne host _ _).error hprint).trans hstill))
      (by
        simp only [Harmless,hparse]
        grind)
  | cons letter arg =>
    rw [hrest] at h
    rw [dispatch_untouched_iff host hstill hc (hdots.inRange hc) hg₁
      (hsimple addrs rest e₁ letter arg hparse hrest) h]
    simp only [Harmless,hparse]
    grind

end

/-- An unknown suffix is refused before the lines are deleted. -/
theorem failure_untouched_suffix :
    ∃err e',execute bareHost (ascii "2dq") threeLines=.error err e' ∧ Untouched threeLines e' := by
  have hrun : execute bareHost (ascii "2dq") threeLines =
      .error (.message (ascii "unexpected command suffix"))
        (final (execute bareHost (ascii "2dq") threeLines)) := rfl
  refine ⟨_,_,hrun,(failure_untouched_iff bareHost threeLines_inRange rfl ?_ hrun).mpr ?_⟩
  · intro addrs rest e₁ letter arg hparse hrest
    cases hparse
    cases hrest
    rfl
  · intro addrs rest e₁ letter arg hparse hrest
    cases hparse
    cases hrest
    trivial

/-- A host whose expressions match the line `one` and give up on every other line. -/
def weakHost : Host Unit where
  compileRE _ := .ok ⟨fun line => .ok (line=ascii "one"),
    fun line => if line=ascii "one" then .ok [⟨0,3,[]⟩] else .error (ascii "match budget exceeded")⟩
  read _ w := (.error (ascii "no such file"),w)
  write _ _ w := (none,w)
  append := none
  shell := none

/-- The first line is rewritten before the match on the second one gives up. -/
theorem not_failure_untouched_budget :
    failed (execute weakHost (ascii "1,2s/one/1/") threeLines)=true ∧
      (final (execute weakHost (ascii "1,2s/one/1/") threeLines)).buffer.lines =
        [ascii "1",ascii "two",ascii "three"] ∧
      ¬ Untouched threeLines (final (execute weakHost (ascii "1,2s/one/1/") threeLines)) := by
  have hlines : (final (execute weakHost (ascii "1,2s/one/1/") threeLines)).buffer.lines =
      [ascii "1",ascii "two",ascii "three"] := by decide +kernel
  refine ⟨by decide +kernel,hlines,fun h => ?_⟩
  have hsame := h.lines
  rw [hlines] at hsame
  exact absurd hsame (by decide)

end Coreutils.EdLateFailures
