import Coreutils.MakeEngine

/-!
# The steps of an update

In a call of `update` a target is entered, found to exist, given up or decided upon. `Step` says
what each step needs and does; `update_returns` shows that every call is made of steps, so an
invariant of the steps holds wherever an update can get. With more fuel than rules no call runs out
of it.
-/

namespace Coreutils.MakeEngine
open Function List GoText

section
variable (s : State) (e : Event) (t : Bytes)

@[simp] theorem State.emit_visiting : (s.emit e).visiting=s.visiting := rfl
@[simp] theorem State.emit_done : (s.emit e).done=s.done := rfl
@[simp] theorem State.emit_log : (s.emit e).log=s.log++[e] := rfl

variable (r : Except Failure Bool)

@[simp] theorem State.leave_visiting :
    (s.leave t r).visiting=Function.update s.visiting t false := by
  cases r <;> rfl

@[simp] theorem State.leave_done : (s.leave t r).done=s.done := by cases r <;> rfl

@[simp] theorem State.leave_made : (s.leave t r).made=s.made := by cases r <;> rfl

@[simp] theorem State.leave_time : (s.leave t r).time=s.time := by cases r <;> rfl

@[simp] theorem State.leave_ok_log (b : Bool) : (s.leave t (.ok b)).log=s.log := rfl

@[simp] theorem State.leave_error_log (f : Failure) :
    (s.leave t (.error f)).log=s.log++[.fail t f] := rfl

end

theorem unique_nodup (items : List Bytes) : (unique items).Nodup := by
  suffices h : ∀out : List Bytes,out.Nodup→
      (items.foldl (fun out item => if item∈out then out else out++[item]) out).Nodup from
    h [] nodup_nil
  induction items with
  | nil => exact fun _ h => h
  | cons item items ih =>
    intro out hout
    rw [foldl_cons]
    apply ih
    split_ifs with hnew
    · exact hout
    · exact (perm_append_singleton item out).nodup_iff.mpr (nodup_cons.mpr ⟨hnew,hout⟩)

def Moment.forces (now : Moment) (t d : Bytes) : Bool := now.newerThan t d || now.made d

/-- The loop over the prerequisites: one that forces an update is listed once, in its turn. -/
theorem examine_eq (now : Moment) (t : Bytes) {deps newer : List Bytes} (b : Bool)
    (hnodup : deps.Nodup) (hnew : ∀d∈deps,d∉newer) : examine now t deps b newer =
      (b || deps.any (now.forces t),newer++deps.filter (now.forces t)) := by
  induction deps generalizing b newer with
  | nil => simp [examine]
  | cons dep deps ih =>
    obtain ⟨hdep,hdeps⟩ := nodup_cons.mp hnodup
    have hdn : dep∉newer := hnew dep (by simp)
    have hskip : ∀d∈deps,d∉newer := fun d hd => hnew d (by simp [hd])
    have hput := @ih (newer++[dep]) true hdeps fun d hd => not_mem_append (hskip d hd) fun hmem =>
      hdep (mem_singleton.mp hmem ▸ hd)
    rcases Bool.eq_false_or_eq_true (now.newerThan t dep) with hn | hn <;>
      rcases Bool.eq_false_or_eq_true (now.made dep) with hm | hm
    · simp [examine,Moment.forces,hn,hput]
    · simp [examine,Moment.forces,hn,hput]
    · simp [examine,Moment.forces,hn,hm,hdn,hput]
    · simp [examine,Moment.forces,hn,hm,ih b hdeps hskip]

theorem examine_deps (m : Makefile) (now : Moment) (t : Bytes) (b : Bool) :
    examine now t (m.deps t) b [] =
      (b || (m.deps t).any (now.forces t),(m.deps t).filter (now.forces t)) := by
  have hnodup : (m.deps t).Nodup := unique_nodup _
  rw [examine_eq now t b hnodup (by simp),nil_append]

def Event.LineOf (t : Bytes) : Event→Prop
  | start u _ | touch u => u=t
  | out _ => True
  | _ => False

/-- Recipe lines and touches of a target set no mark and no other target's time. -/
structure Lines (t : Bytes) (s s' : State) : Prop where
  visiting : s'.visiting=s.visiting
  failed : s'.failed=s.failed
  done : s'.done=s.done
  made : s'.made=s.made
  time : ∀u,u≠t→s'.time u=s.time u
  log : ∃body,s'.log=s.log++body ∧ ∀e∈body,e.LineOf t

namespace Lines
variable {t : Bytes} {s s₁ s₂ : State}

theorem refl (t : Bytes) (s : State) : Lines t s s where
  visiting := rfl
  failed := rfl
  done := rfl
  made := rfl
  time _ _ := rfl
  log := ⟨[],by simp,by simp⟩

theorem trans (h₁ : Lines t s s₁) (h₂ : Lines t s₁ s₂) : Lines t s s₂ where
  visiting := h₂.visiting.trans h₁.visiting
  failed := h₂.failed.trans h₁.failed
  done := h₂.done.trans h₁.done
  made := h₂.made.trans h₁.made
  time u hu := (h₂.time u hu).trans (h₁.time u hu)
  log := by
    obtain ⟨b₁,e₁,w₁⟩ := h₁.log
    obtain ⟨b₂,e₂,w₂⟩ := h₂.log
    exact ⟨b₁++b₂,by rw [e₂,e₁,append_assoc],forall_mem_append.mpr ⟨w₁,w₂⟩⟩

theorem emit {e : Event} (he : e.LineOf t) : Lines t s (s.emit e) :=
  { refl t s with log := ⟨[e],rfl,by simpa using he⟩ }

theorem setTime (time : ℕ) : Lines t s (s.setTime t time) :=
  { refl t s with time := fun _ hu => update_of_ne hu _ _ }

theorem action : Lines t s { s with action := true } := { refl t s with }

end Lines

structure Works (t : Bytes) (s s' : State) : Prop where
  visiting : s'.visiting=s.visiting
  done : ∀u,u≠t→s'.done u=s.done u
  made : ∀u,u≠t→s'.made u=s.made u
  time : ∀u,u≠t→s'.time u=s.time u
  log : ∃body,s'.log=s.log++body ∧ ∀e∈body,e=.recipe t ∨ e.LineOf t

theorem Works.trans {t : Bytes} {s s₁ s₂ : State} (h₁ : Works t s s₁) (h₂ : Works t s₁ s₂) :
    Works t s s₂ where
  visiting := h₂.visiting.trans h₁.visiting
  done u hu := (h₂.done u hu).trans (h₁.done u hu)
  made u hu := (h₂.made u hu).trans (h₁.made u hu)
  time u hu := (h₂.time u hu).trans (h₁.time u hu)
  log := by
    obtain ⟨b₁,e₁,w₁⟩ := h₁.log
    obtain ⟨b₂,e₂,w₂⟩ := h₂.log
    exact ⟨b₁++b₂,by rw [e₂,e₁,append_assoc],forall_mem_append.mpr ⟨w₁,w₂⟩⟩

theorem Lines.works {t : Bytes} {s s' : State} (h : Lines t s s') : Works t s s' where
  visiting := h.visiting
  done u _ := congrFun h.done u
  made u _ := congrFun h.made u
  time := h.time
  log := by
    obtain ⟨body,hlog,hbody⟩ := h.log
    exact ⟨body,hlog,fun e he => .inr (hbody e he)⟩

theorem works_recipe (t : Bytes) (s : State) : Works t s (s.emit (.recipe t)) :=
  { (Lines.refl t s).works with log := ⟨[.recipe t],rfl,by simp⟩ }

theorem works_current (t : Bytes) (s : State) : Works t s (s.current t) :=
  { (Lines.refl t s).works with done := fun _ hu => update_of_ne hu _ _ }

theorem works_remade (t : Bytes) (s : State) : Works t s (s.remade t) :=
  { (Lines.refl t s).works with
    done := fun _ hu => update_of_ne hu _ _
    made := fun _ hu => update_of_ne hu _ _ }

def Failure.Own (o : Options) (t : Bytes) : Failure→Prop
  | noRule u | recipe u _ => u=t
  | touch _ => o.touch=true
  | outOfDate => o.question=true
  | _ => False

section
variable (m : Makefile) (o : Options) (host : Host)

variable (t : Bytes) {e : Failure}

theorem runCommand_lines (args : List Bytes) (s : State) :
    Lines t s (runCommand host t args s).2 := by
  have hs : Lines t s { s.emit (.start t args) with action := true } :=
    @Lines.trans t s (s.emit (.start t args)) _ (Lines.emit (by rfl)) Lines.action
  simp only [runCommand]
  cases (host.shell s.log t args).time with
  | none => exact hs
  | some time => exact hs.trans (Lines.setTime time)

theorem recipe_lines (t line : Bytes) (special : Bool) (s : State) :
    Lines t s (recipe m o host t line special s).2 ∧
      ∀e,(recipe m o host t line special s).1=some e→e.Own o t := by
  simp only [recipe]
  obtain ⟨silent,ignore,force,line'⟩ :=
    prefixes (o.silent || m.silent [] || m.silent t) (o.ignore || m.ignore [] || m.ignore t)
      false line
  have hs : Lines t s (if !silent || o.dry then s.emit (.out line') else s) := by
    split
    · exact Lines.emit trivial
    · exact Lines.refl t s
  revert hs
  generalize (if !silent || o.dry then s.emit (.out line') else s)=s₁
  intro hs
  by_cases hf : ((o.dry || special) && !force)=true
  · rw [if_pos hf]
    exact ⟨hs.trans Lines.action,by simp⟩
  rw [if_neg hf]
  have hr := runCommand_lines host t (shellArgs ignore line') s₁
  revert hr
  rcases runCommand host t (shellArgs ignore line') s₁ with ⟨_ | err,s₂⟩
  · intro hr
    exact ⟨hs.trans hr,by simp⟩
  intro hr
  refine ⟨hs.trans hr,?_⟩
  intro e he
  cases ignore with
  | true => simp at he
  | false =>
    simp only [Bool.false_eq_true,↓reduceIte,Option.some.injEq] at he
    subst he
    rfl

theorem recipeLines_lines (a : Automatic) (special : Bool) (lines : List Bytes) (s : State) :
    Lines t s (recipeLines m o host t a special lines s).2 ∧
      ∀e,(recipeLines m o host t a special lines s).1=some e→e.Own o t := by
  induction lines generalizing s with
  | nil => exact ⟨Lines.refl t s,by simp [recipeLines]⟩
  | cons line lines ih =>
    have hr := recipe_lines m o host t (m.expand line a) special s
    simp only [recipeLines]
    rcases hrec : recipe m o host t (m.expand line a) special s with ⟨_ | e,s₁⟩
    · rw [hrec] at hr
      exact ⟨hr.1.trans (ih s₁).1,(ih s₁).2⟩
    · rw [hrec] at hr
      exact hr

theorem touchFile_lines (ht : o.touch=true) (t : Bytes) (s : State) :
    Lines t s (touchFile host t s).2 ∧ ∀e,(touchFile host t s).1=some e→e.Own o t := by
  simp only [touchFile]
  cases host.touch s.log t with
  | ok time => exact ⟨(Lines.emit (by rfl)).trans (Lines.setTime time),by simp⟩
  | error err =>
    refine ⟨Lines.emit rfl,?_⟩
    rintro e ⟨⟩
    exact ht

/-- How the work on a target ends: it is marked, or it has failed by itself. -/
structure Ends (o : Options) (t : Bytes) (s : State) (r : Except Failure Bool) (s' : State) :
    Prop where
  works : Works t s s'
  done : ∀b,r=.ok b→s'.done t=true
  failed : ∀e,r=.error e→s'.done=s.done ∧ s'.made=s.made ∧ e.Own o t

namespace Ends
variable {o : Options} {t : Bytes} {s s₁ s' : State} {r : Except Failure Bool}

theorem after (h : Lines t s s₁) (h' : Ends o t s₁ r s') : Ends o t s r s' where
  works := h.works.trans h'.works
  done := h'.done
  failed e he := by
    obtain ⟨hd,hm,ho⟩ := h'.failed e he
    exact ⟨hd.trans h.done,hm.trans h.made,ho⟩

theorem afterRecipe (h : Ends o t (s.emit (.recipe t)) r s') : Ends o t s r s' where
  works := (works_recipe t s).trans h.works
  done := h.done
  failed := h.failed

theorem error (h : Lines t s s') (he : e.Own o t) : Ends o t s (.error e) s' where
  works := h.works
  done b hb := by cases hb
  failed e' he' := by
    cases he'
    exact ⟨h.done,h.made,he⟩

theorem ok {b : Bool} (h : Works t s s') (hd : s'.done t=true) : Ends o t s (.ok b) s' where
  works := h
  done _ _ := hd
  failed e he := by cases he

end Ends

theorem remake_ends (newer : List Bytes) (s : State) :
    Ends o t s (remake m o host t newer s).1 (remake m o host t newer s).2 := by
  have hplus := recipeLines_lines m o host t (automatic m t newer) true
    ((m.recipes t).filter hasPlusPrefix) s
  have hremade : ∀s₁ : State,Ends o t s₁ (.ok true) (s₁.remade t) := fun s₁ =>
    Ends.ok (works_remade t s₁) (by simp [State.remade])
  simp only [remake]
  generalize recipeLines m o host t (automatic m t newer) true
    ((m.recipes t).filter hasPlusPrefix) s=plus at hplus ⊢
  by_cases hq : o.question=true
  · rw [if_pos hq]
    rcases plus with ⟨_ | e,s₁⟩
    · exact Ends.error hplus.1 hq
    · exact Ends.error hplus.1 (hplus.2 e rfl)
  rw [if_neg hq]
  by_cases ht : o.touch=true
  · rw [if_pos ht]
    rcases plus with ⟨_ | e,s₁⟩
    · simp only
      by_cases hr : m.recipes t=[]
      · rw [if_pos hr]
        exact (hremade s₁).after hplus.1
      rw [if_neg hr]
      have htouch := touchFile_lines o host ht t s₁
      generalize touchFile host t s₁=touched at htouch ⊢
      rcases touched with ⟨_ | e,s₂⟩
      · simp only
        refine Ends.after (hplus.1.trans htouch.1) ?_
        have hs₂ : Works t s₂ { s₂.remade t with action := true } :=
          (works_remade t s₂).trans Lines.action.works
        split
        · exact Ends.ok (hs₂.trans (Lines.emit (by trivial)).works) (by simp [State.remade])
        · exact Ends.ok hs₂ (by simp [State.remade])
      · exact Ends.error (hplus.1.trans htouch.1) (htouch.2 e rfl)
    · exact Ends.error hplus.1 (hplus.2 e rfl)
  rw [if_neg ht]
  by_cases hr : m.recipes t=[]
  · rw [if_pos hr]
    exact hremade s
  rw [if_neg hr]
  apply Ends.afterRecipe
  have hlines := recipeLines_lines m o host t (automatic m t newer) false (m.recipes t)
    (s.emit (.recipe t))
  generalize recipeLines m o host t _ false (m.recipes t) _=ran at hlines ⊢
  rcases ran with ⟨_ | e,s₁⟩
  · refine Ends.after hlines.1 (Ends.ok ((works_remade t s₁).trans Lines.action.works) ?_)
    simp [State.remade]
  · exact Ends.error hlines.1 (hlines.2 e rfl)

theorem decideTarget_ends (changed : Bool) (s : State) :
    Ends o t (s.emit (.settle t s.now)) (decideTarget m o host t changed s).1
      (decideTarget m o host t changed s).2 := by
  simp only [decideTarget]
  rcases examine (s.emit (.settle t s.now)).now t (m.deps t) (s.time t).isNone []
    with ⟨needed,newer⟩
  split
  · exact remake_ends m o host t newer _
  · exact Ends.ok (works_current t _) (by simp [State.current])

def Makefile.Needs (t d : Bytes) : Prop := d∈m.deps t

def Failed (log : List Event) (t : Bytes) : Prop := ∃e,.fail t e∈log

def Refused (log : List Event) (t : Bytes) : Prop := Failed log t ∨ .cycle t∈log

/-- The target has been handled, or is being visited. -/
def State.Seen (s : State) (t : Bytes) : Prop :=
  s.done t=true ∨ Failed s.log t ∨ s.visiting t=true

inductive Step : State→State→Prop
  | skip (s t) (hd : s.done t=true) : Step s (s.emit (.enter t))
  | cycle (s t) (hv : s.visiting t=true) (hc : Relation.TransGen m.Needs t t) :
      Step s ((s.emit (.enter t)).emit (.cycle t))
  | call (s t) (hd : s.done t=false) (hv : s.visiting t=false) :
      Step s ((s.emit (.enter t)).visit t)
  | found (s t) (hv : s.visiting t=true) (hr : m.rulesOf t=[]) :
      Step s ((s.current t).leave t (.ok false))
  | giveUp (s t e) (hv : s.visiting t=true)
      (why : e=.noRule t ∨ ∃d,m.Needs t d ∧ Refused s.log d)
      (hk : o.keep=true→∀d,m.Needs t d→s.Seen d) : Step s (s.leave t (.error e))
  | report (s line) : Step s { s.emit (.err line) with failed := true }
  | decide (s t changed) (hv : s.visiting t=true) (hd : ∀d,m.Needs t d→s.done d=true) :
      Step s ((decideTarget m o host t changed s).2.leave t (decideTarget m o host t changed s).1)

abbrev Steps : State→State→Prop := Relation.ReflTransGen (Step m o host)

variable {m o host} {s s' : State}

theorem Step.grows (h : Step m o host s s') :
    (∀t,s.done t=true→s'.done t=true) ∧ ∃new,s'.log=s.log++new := by
  have hupdate : ∀(done : Bytes→Bool) (u t : Bytes),done t=true→
      Function.update done u true t=true := by
    intro done u t ht
    by_cases htu : t=u
    · rw [htu,update_self]
    · rw [update_of_ne htu,ht]
  cases h with
  | skip | call | report => exact ⟨fun _ h => h,_,rfl⟩
  | cycle t hv hc => exact ⟨fun _ h => h,_,append_assoc _ _ _⟩
  | found t hv hr => exact ⟨hupdate s.done t,[],by simp [State.current]⟩
  | giveUp t e hv why hk => exact ⟨fun _ h => by simpa using h,_,rfl⟩
  | decide t changed hv hd =>
    have hends := decideTarget_ends m o host t changed s
    obtain ⟨body,hlog,-⟩ := hends.works.log
    constructor
    · intro u hu
      rw [State.leave_done]
      by_cases hut : u=t
      · subst hut
        cases hr : (decideTarget m o host u changed s).1 with
        | ok b => exact hends.done b hr
        | error e => rw [(hends.failed e hr).1,State.emit_done,hu]
      · rw [hends.works.done u hut,State.emit_done,hu]
    · cases (decideTarget m o host t changed s).1 with
      | ok b => exact ⟨.settle t s.now::body,by rw [State.leave_ok_log,hlog]; simp⟩
      | error e =>
        exact ⟨.settle t s.now::body++[.fail t e],by rw [State.leave_error_log,hlog]; simp⟩

section
variable (h : Steps m o host s s')
include h

theorem Steps.grows : (∀t,s.done t=true→s'.done t=true) ∧ ∃new,s'.log=s.log++new := by
  induction h with
  | refl => exact ⟨fun _ h => h,[],by simp⟩
  | tail _ hstep ih =>
    obtain ⟨hd,new,hn⟩ := hstep.grows
    obtain ⟨ihd,new',ihn⟩ := ih
    exact ⟨fun t ht => hd t (ihd t ht),new'++new,by rw [hn,ihn,append_assoc]⟩

theorem Steps.mem_log {e : Event} (he : e∈s.log) : e∈s'.log := by
  obtain ⟨new,hn⟩ := h.grows.2
  rw [hn]
  exact mem_append_left _ he

theorem Steps.failed {t : Bytes} (ht : Failed s.log t) : Failed s'.log t := by
  obtain ⟨e,he⟩ := ht
  exact ⟨e,h.mem_log he⟩

theorem Steps.refused {t : Bytes} (ht : Refused s.log t) : Refused s'.log t :=
  ht.imp h.failed h.mem_log

theorem Steps.seen (hv : s'.visiting=s.visiting) {t : Bytes} (ht : s.Seen t) : s'.Seen t := by
  rcases ht with ht | ht | ht
  · exact .inl (h.grows.1 t ht)
  · exact .inr (.inl (h.failed ht))
  · exact .inr (.inr (by rw [hv,ht]))

end

variable (m o host)

/-- How a call of `update` ends. A cycle that it meets is a failure of the target it leads back to,
now or once that visit ends. -/
structure Returns (s : State) (t : Bytes) (r : Except Failure Bool) (s' : State) : Prop where
  steps : Steps m o host s s'
  visiting : s'.visiting=s.visiting
  done : ∀b,r=.ok b→s'.done t=true
  error : ∀e,r=.error e→Failed s'.log t ∨ (.cycle t∈s'.log ∧ s'.visiting t=true)
  cycle : ∀v,.cycle v∈s'.log→
    .cycle v∈s.log ∨ Failed s'.log v ∨ s.visiting v=true ∧ ∃e,r=.error e

/-- How the loop over the prerequisites `deps` ends; `hadFailed` is the flag it was entered with. -/
structure DepsReturn (s : State) (deps : List Bytes) (hadFailed : Bool)
    (r : Except Failure (Bool×Bool)) (s' : State) : Prop where
  steps : Steps m o host s s'
  visiting : s'.visiting=s.visiting
  done : ∀c,r=.ok (c,false)→∀d∈deps,s'.done d=true
  failed : ∀c,r=.ok (c,true)→hadFailed=true ∨ ∃d∈deps,Refused s'.log d
  seen : ∀c,r=.ok c→∀d∈deps,s'.Seen d
  error : ∀e,r=.error e → o.keep=false ∧ ∃d∈deps,Refused s'.log d
  cycle : ∀v,.cycle v∈s'.log→
    .cycle v∈s.log ∨ Failed s'.log v ∨ s.visiting v=true ∧ ∀c,r≠.ok (c,false)

variable {m o host} {r : Except Failure Bool}
  {upd : Bytes→State→Option (Except Failure Bool×State)} {deps goals : List Bytes}
  {changed hadFailed : Bool} {s₁ : State} {dep : Bytes} {fuel : ℕ}

theorem Returns.refused {t : Bytes} (h : Returns m o host s t (.error e) s') : Refused s'.log t :=
  (h.error e rfl).imp_right And.left

theorem Returns.seen {t : Bytes} (h : Returns m o host s t r s') : s'.Seen t := by
  cases r with
  | ok b => exact .inl (h.done b rfl)
  | error e => exact .inr ((h.error e rfl).imp_right And.right)

theorem updateDeps_failed {c failed : Bool}
    (h : updateDeps o upd deps changed true s=some (.ok (c,failed),s')) : failed=true := by
  induction deps generalizing changed s with
  | nil =>
    simp only [updateDeps,Option.some.injEq,Prod.mk.injEq,Except.ok.injEq] at h
    exact h.1.2.symm
  | cons dep deps ih =>
    simp only [updateDeps] at h
    split at h
    · cases h
    · exact ih h
    · split at h
      · exact ih h
      · simp at h

section
variable {r : Except Failure (Bool×Bool)}

/-- The loop goes on after a prerequisite that has been updated. -/
theorem DepsReturn.cons_ok {c : Bool} (hret : Returns m o host s dep (.ok c) s₁)
    (hrest : DepsReturn m o host s₁ deps hadFailed r s') :
    DepsReturn m o host s (dep::deps) hadFailed r s' where
  steps := hret.steps.trans hrest.steps
  visiting := hrest.visiting.trans hret.visiting
  done c' hc := forall_mem_cons.mpr
    ⟨hrest.steps.grows.1 dep (hret.done c rfl),hrest.done c' hc⟩
  failed c' hc := (hrest.failed c' hc).imp_right fun ⟨d,hd,hr⟩ => ⟨d,by simp [hd],hr⟩
  seen c' hc := forall_mem_cons.mpr
    ⟨hrest.steps.seen hrest.visiting hret.seen,hrest.seen c' hc⟩
  error e he := by
    obtain ⟨hk,d,hd,hr⟩ := hrest.error e he
    exact ⟨hk,d,by simp [hd],hr⟩
  cycle v hv := by
    rcases hrest.cycle v hv with hv | hv | ⟨hv,hr⟩
    · rcases hret.cycle v hv with hv | hv | ⟨-,e,he⟩
      · exact .inl hv
      · exact .inr (.inl (hrest.steps.failed hv))
      · cases he
    · exact .inr (.inl hv)
    · exact .inr (.inr ⟨by rw [←hret.visiting,hv],hr⟩)

/-- The loop goes on, with the flag set, after a prerequisite that has failed. -/
theorem DepsReturn.cons_error {line : Bytes} (hkeep : o.keep=true)
    (hret : Returns m o host s dep (.error e) s₁)
    (hrest : DepsReturn m o host { s₁.emit (.err line) with failed := true } deps true r s')
    (hflag : ∀c,r≠.ok (c,false)) : DepsReturn m o host s (dep::deps) hadFailed r s' := by
  have hsteps : Steps m o host s₁ s' := .head (Step.report s₁ line) hrest.steps
  have hv : s'.visiting=s₁.visiting := hrest.visiting
  refine ⟨hret.steps.trans hsteps,hv.trans hret.visiting,?_,?_,?_,?_,?_⟩
  · intro c hc
    exact absurd hc (hflag c)
  · exact fun c _ => .inr ⟨dep,by simp,hsteps.refused hret.refused⟩
  · exact fun c hc => forall_mem_cons.mpr ⟨hsteps.seen hv hret.seen,hrest.seen c hc⟩
  · intro e' he'
    rw [(hrest.error e' he').1] at hkeep
    cases hkeep
  · intro v hcv
    rcases hrest.cycle v hcv with hcv | hcv | ⟨hcv,hr⟩
    · have hcv : .cycle v∈s₁.log := by simpa using hcv
      rcases hret.cycle v hcv with hcv | hcv | ⟨hcv,-⟩
      · exact .inl hcv
      · exact .inr (.inl (hsteps.failed hcv))
      · exact .inr (.inr ⟨hcv,hflag⟩)
    · exact .inr (.inl hcv)
    · exact .inr (.inr ⟨by rw [←hret.visiting]; exact hcv,hr⟩)

theorem updateDeps_returns
    (hupd : ∀dep∈deps,∀s₁ r₁ s₂,s₁.visiting=s.visiting→upd dep s₁=some (r₁,s₂)→
      Returns m o host s₁ dep r₁ s₂) (h : updateDeps o upd deps changed hadFailed s=some (r,s')) :
    DepsReturn m o host s deps hadFailed r s' := by
  induction deps generalizing changed hadFailed s with
  | nil =>
    obtain ⟨rfl,rfl⟩ := h
    refine ⟨.refl,rfl,by simp,?_,by simp,by simp,fun _ hv => .inl hv⟩
    intro c hc
    simp only [Except.ok.injEq,Prod.mk.injEq] at hc
    exact .inl hc.2
  | cons dep deps ih =>
    have hupd' : ∀s₀ : State,s₀.visiting=s.visiting→∀d∈deps,∀s₁ r₁ s₂,
        s₁.visiting=s₀.visiting→upd d s₁=some (r₁,s₂)→Returns m o host s₁ d r₁ s₂ :=
      fun s₀ hs₀ d hd s₁ r₁ s₂ hs₁ hu => hupd d (by simp [hd]) s₁ r₁ s₂ (hs₁.trans hs₀) hu
    simp only [updateDeps] at h
    rcases hdep : upd dep s with _ | ⟨e | c,s₁⟩
    · rw [hdep] at h
      cases h
    · have hret := hupd dep (by simp) s _ s₁ rfl hdep
      rw [hdep] at h
      simp only at h
      by_cases hkeep : o.keep=true
      · rw [if_pos hkeep] at h
        refine DepsReturn.cons_error hkeep hret (ih (hupd' _ hret.visiting) h) ?_
        rintro c rfl
        cases updateDeps_failed h
      · rw [if_neg hkeep] at h
        obtain ⟨rfl,rfl⟩ := h
        refine ⟨hret.steps,hret.visiting,by simp,by simp,by simp,?_,?_⟩
        · intro e' _
          exact ⟨by simpa using hkeep,dep,by simp,hret.refused⟩
        · intro v hv
          exact (hret.cycle v hv).imp_right (Or.imp_right fun h => ⟨h.1,by simp⟩)
    · have hret := hupd dep (by simp) s _ s₁ rfl hdep
      rw [hdep] at h
      exact DepsReturn.cons_ok hret (ih (hupd' _ hret.visiting) h)

end

theorem visit_leave_visiting {t : Bytes}
    (hv : s.visiting t=false) (h : s'.visiting=(s.visit t).visiting) :
    (s'.leave t r).visiting=s.visiting := by
  rw [State.leave_visiting,h]
  funext u
  by_cases hu : u=t
  · rw [hu,update_self,hv]
  · simp [State.visit,update_of_ne hu]

theorem decideTarget_cycle {t v : Bytes}
    (h : .cycle v∈(decideTarget m o host t changed s).2.log) : .cycle v∈s.log := by
  obtain ⟨body,hlog,hbody⟩ := (decideTarget_ends m o host t changed s).works.log
  rw [hlog] at h
  rcases mem_append.mp h with h | h
  · simpa using h
  · rcases hbody _ h with h | h <;> cases h

/-- How the body of `update` ends, before the visit does. -/
structure BodyReturns (m : Makefile) (o : Options) (host : Host) (s : State) (t : Bytes)
    (r : Except Failure Bool) (s' : State) : Prop where
  steps : Steps m o host s (s'.leave t r)
  visiting : s'.visiting=s.visiting
  done : ∀b,r=.ok b→s'.done t=true
  cycle : ∀v,.cycle v∈s'.log→
    .cycle v∈s.log ∨ Failed s'.log v ∨ s.visiting v=true ∧ ∃e,r=.error e

theorem updateBody_returns {t : Bytes} (hv : s.visiting t=true)
    (hupd : ∀dep,m.Needs t dep→∀s₁ r₁ s₂,s₁.visiting=s.visiting→
      upd dep s₁=some (r₁,s₂)→Returns m o host s₁ dep r₁ s₂)
    (h : updateBody m o host upd t s=some (r,s')) : BodyReturns m o host s t r s' := by
  simp only [updateBody] at h
  by_cases hrules : m.rulesOf t=[]
  · rw [if_pos hrules] at h
    by_cases htime : (s.time t).isSome=true
    · rw [if_pos htime] at h
      obtain ⟨rfl,rfl⟩ := h
      exact ⟨.single (.found s t hv hrules),rfl,by simp [State.current],fun _ hv => .inl hv⟩
    rw [if_neg htime] at h
    obtain ⟨rfl,rfl⟩ := h
    refine ⟨.single (.giveUp s t _ hv (.inl rfl) ?_),rfl,by simp,fun _ hv => .inl hv⟩
    intro _ d hd
    simp [Makefile.Needs,Makefile.deps,hrules,unique] at hd
  rw [if_neg hrules] at h
  rcases hdeps : updateDeps o upd (m.deps t) false false s with _ | ⟨e | ⟨changed,failed⟩,s₁⟩
  · rw [hdeps] at h
    cases h
  · have hret := updateDeps_returns hupd hdeps
    rw [hdeps] at h
    simp only [Option.some.injEq,Prod.mk.injEq] at h
    obtain ⟨rfl,rfl⟩ := h
    obtain ⟨hkeep,d,hd,href⟩ := hret.error e rfl
    refine ⟨hret.steps.tail (.giveUp s₁ t e (by rw [hret.visiting,hv]) (.inr ⟨d,hd,href⟩) ?_),
      hret.visiting,by simp,?_⟩
    · intro hk
      rw [hkeep] at hk
      cases hk
    · intro v hv
      exact (hret.cycle v hv).imp_right (Or.imp_right fun h => ⟨h.1,e,rfl⟩)
  · have hret := updateDeps_returns hupd hdeps
    have hv₁ : s₁.visiting t=true := by rw [hret.visiting,hv]
    rw [hdeps] at h
    cases failed with
    | true =>
      simp only [↓reduceIte,Option.some.injEq,Prod.mk.injEq] at h
      obtain ⟨rfl,rfl⟩ := h
      have href : ∃d∈m.deps t,Refused s₁.log d := by simpa using hret.failed changed rfl
      refine ⟨hret.steps.tail (.giveUp s₁ t _ hv₁ (.inr href) fun _ => hret.seen _ rfl),
        hret.visiting,by simp,?_⟩
      intro v hv
      exact (hret.cycle v hv).imp_right (Or.imp_right fun h => ⟨h.1,_,rfl⟩)
    | false =>
      simp only [Bool.false_eq_true,↓reduceIte,Option.some.injEq] at h
      have hends := decideTarget_ends m o host t changed s₁
      have hcycle : ∀v,.cycle v∈(decideTarget m o host t changed s₁).2.log → .cycle v∈s₁.log :=
        fun v => decideTarget_cycle
      have hstep := @Step.decide m o host s₁ t changed hv₁ (hret.done changed rfl)
      rw [h] at hends hcycle hstep
      refine ⟨hret.steps.tail hstep,hends.works.visiting.trans hret.visiting,hends.done,?_⟩
      intro v hv
      rcases hret.cycle v (hcycle v hv) with hc | ⟨e,he⟩ | ⟨-,hno⟩
      · exact .inl hc
      · obtain ⟨body,hlog,-⟩ := hends.works.log
        exact .inr (.inl ⟨e,by rw [hlog]; simp [he]⟩)
      · exact absurd rfl (hno changed)

theorem update_succ (fuel : ℕ) (t : Bytes) (s : State) : update m o host (fuel+1) t s =
      if s.done t then some (.ok (s.made t),s.emit (.enter t))
      else if s.visiting t then some (.error (.cycle t),(s.emit (.enter t)).emit (.cycle t)) else
        match updateBody m o host (update m o host fuel) t ((s.emit (.enter t)).visit t) with
        | none => none
        | some (r,s) => some (r,s.leave t r) := rfl

/-- Every target on the way to `t` needs the prerequisites of `t`. -/
theorem visiting_needs {t : Bytes} {e : Event}
    (hpath : ∀v,s.visiting v=true→Relation.TransGen m.Needs v t) (hdep : m.Needs t dep) :
    ∀v,((s.emit e).visit t).visiting v=true→Relation.TransGen m.Needs v dep := by
  intro v hv
  by_cases hvt : v=t
  · subst hvt
    exact .single hdep
  · simp only [State.visit,update_of_ne hvt] at hv
    exact (hpath v hv).tail hdep

theorem BodyReturns.leave {t : Bytes} (hd : s.done t=false) (hv : s.visiting t=false)
    (h : BodyReturns m o host ((s.emit (.enter t)).visit t) t r s') :
    Returns m o host s t r (s'.leave t r) := by
  have hfailed : ∀e,r=.error e→Failed (s'.leave t r).log t := by
    rintro e rfl
    exact ⟨e,by simp⟩
  refine ⟨.head (.call s t hd hv) h.steps,?_,?_,fun e he => .inl (hfailed e he),?_⟩
  · exact visit_leave_visiting hv h.visiting
  · intro b hb
    rw [State.leave_done]
    exact h.done b hb
  intro v hcv
  have hcv : .cycle v∈s'.log := by cases r <;> simpa using hcv
  rcases h.cycle v hcv with hcv | ⟨e,he⟩ | ⟨hvv,e,he⟩
  · exact .inl (by simpa [State.visit] using hcv)
  · refine .inr (.inl ⟨e,?_⟩)
    cases r with
    | ok b => simpa using he
    | error e => simp [he]
  · by_cases hvt : v=t
    · subst hvt
      exact .inr (.inl (hfailed e he))
    · simp only [State.visit,update_of_ne hvt] at hvv
      exact .inr (.inr ⟨hvv,e,he⟩)

/-- Every call of `update` is made of steps. -/
theorem update_returns {t : Bytes} (hpath : ∀v,s.visiting v=true→Relation.TransGen m.Needs v t)
    (h : update m o host fuel t s=some (r,s')) : Returns m o host s t r s' := by
  induction fuel generalizing t s s' r with
  | zero => simp [update] at h
  | succ fuel ih =>
    rw [update_succ] at h
    by_cases hd : s.done t=true
    · rw [if_pos hd] at h
      obtain ⟨rfl,rfl⟩ := h
      exact ⟨.single (.skip s t hd),rfl,fun _ _ => hd,by simp,fun v hv => .inl (by simpa using hv)⟩
    rw [if_neg hd] at h
    by_cases hv : s.visiting t=true
    · rw [if_pos hv] at h
      obtain ⟨rfl,rfl⟩ := h
      refine ⟨.single (.cycle s t hv (hpath t hv)),rfl,by simp,fun _ _ => .inr ⟨by simp,hv⟩,?_⟩
      intro v hcv
      rcases mem_append.mp hcv with hcv | hcv
      · exact .inl (by simpa using hcv)
      · simp only [mem_singleton,Event.cycle.injEq] at hcv
        subst hcv
        exact .inr (.inr ⟨hv,_,rfl⟩)
    rw [if_neg hv] at h
    simp only [Bool.not_eq_true] at hd hv
    rcases hbody : updateBody m o host (update m o host fuel) t ((s.emit (.enter t)).visit t)
      with _ | ⟨r₁,s₁⟩
    · rw [hbody] at h
      cases h
    rw [hbody] at h
    obtain ⟨rfl,rfl⟩ := h
    refine BodyReturns.leave hd hv (updateBody_returns (by simp [State.visit]) ?_ hbody)
    intro dep hdep s₂ r₂ s₃ hs₂ hu
    exact ih (by rw [hs₂]; exact visiting_needs hpath hdep) hu

def Makefile.unvisited (m : Makefile) (s : State) : ℕ :=
  m.rules.countP fun r => !s.visiting r.1

theorem unvisited_visit {m : Makefile} {t : Bytes} (hr : m.rulesOf t≠[])
    (hv : s.visiting t=false) : m.unvisited (s.visit t) < m.unvisited s := by
  obtain ⟨r,hr⟩ := exists_mem_of_ne_nil _ hr
  obtain ⟨p,hp,-⟩ := mem_map.mp hr
  obtain ⟨hp,hpt⟩ := mem_filter.mp hp
  simp only [decide_eq_true_eq] at hpt
  have hle : ∀q : Bytes×Rule,(!(s.visit t).visiting q.1)=true→(!s.visiting q.1)=true := by
    intro q hq
    by_cases hqt : q.1=t
    · rw [hqt,hv]
      rfl
    · simpa [State.visit,update_of_ne hqt] using hq
  -- the rule `p` of `t` is counted before and not after
  obtain ⟨l₁,l₂,hl⟩ := append_of_mem hp
  have h₁ := countP_mono_left (l := l₁) fun q _ => hle q
  have h₂ := countP_mono_left (l := l₂) fun q _ => hle q
  have hbefore : (!s.visiting p.1)=true := by rw [hpt,hv]; rfl
  have hafter : ¬ (!(s.visit t).visiting p.1)=true := by rw [hpt]; simp [State.visit]
  simp only [Makefile.unvisited,hl,countP_append,countP_cons,hbefore,hafter,if_true]
  simp only [Bool.false_eq_true,if_false]
  omega

theorem unvisited_congr {m : Makefile} (h : s'.visiting=s.visiting) :
    m.unvisited s'=m.unvisited s := by
  simp [Makefile.unvisited,h]

/-- The loop over the prerequisites gets through if each of them does. -/
theorem updateDeps_total {failed : Bool} (hupd : ∀dep∈deps,∀s₁,s₁.visiting=s.visiting→
      ∃r s₂,upd dep s₁=some (r,s₂) ∧ s₂.visiting=s₁.visiting) :
    ∃r s',updateDeps o upd deps changed failed s=some (r,s') := by
  induction deps generalizing changed failed s with
  | nil => exact ⟨_,s,rfl⟩
  | cons dep deps ih =>
    obtain ⟨r,s₁,hr,hv⟩ := hupd dep (by simp) s rfl
    simp only [updateDeps,hr]
    have hrest : ∀s₂ : State,s₂.visiting=s₁.visiting→∀dep∈deps,∀s₃ : State,
        s₃.visiting=s₂.visiting→∃r s₄,upd dep s₃=some (r,s₄) ∧ s₄.visiting=s₃.visiting :=
      fun s₂ hs₂ d hd s₃ hs₃ => hupd d (by simp [hd]) s₃ (hs₃.trans (hs₂.trans hv))
    cases r with
    | ok c => exact ih (hrest s₁ rfl)
    | error e =>
      simp only
      split
      · exact ih (hrest _ rfl)
      · exact ⟨_,s₁,rfl⟩

/-- With more fuel than rules that are not being visited, `update` returns. -/
theorem update_total {t : Bytes} (hpath : ∀v,s.visiting v=true→Relation.TransGen m.Needs v t)
    (hfuel : m.unvisited s<fuel) : ∃r s',update m o host fuel t s=some (r,s') := by
  induction fuel generalizing t s with
  | zero => omega
  | succ fuel ih =>
    rw [update_succ]
    by_cases hd : s.done t=true
    · exact ⟨_,_,if_pos hd⟩
    rw [if_neg hd]
    by_cases hv : s.visiting t=true
    · exact ⟨_,_,if_pos hv⟩
    rw [if_neg hv]
    suffices h : ∃r s',updateBody m o host (update m o host fuel) t ((s.emit (.enter t)).visit t) =
        some (r,s') by
      obtain ⟨r,s',h⟩ := h
      exact ⟨r,_,by rw [h]⟩
    simp only [updateBody]
    by_cases hr : m.rulesOf t=[]
    · rw [if_pos hr]
      split <;> exact ⟨_,_,rfl⟩
    rw [if_neg hr]
    have hless : m.unvisited ((s.emit (.enter t)).visit t)<fuel := by
      have h := unvisited_visit (s := s.emit (.enter t)) hr (by simpa using hv)
      have hs : m.unvisited (s.emit (.enter t))=m.unvisited s := rfl
      omega
    have hdeps : ∀dep∈m.deps t,∀s₁ : State,s₁.visiting=((s.emit (.enter t)).visit t).visiting→
        ∃r s₂,update m o host fuel dep s₁=some (r,s₂) ∧ s₂.visiting=s₁.visiting := by
      intro dep hdep s₁ hs₁
      have hpath₁ : ∀v,s₁.visiting v=true→Relation.TransGen m.Needs v dep := by
        rw [hs₁]
        exact visiting_needs hpath hdep
      obtain ⟨r,s₂,hr⟩ := ih hpath₁ (by rw [unvisited_congr hs₁]; exact hless)
      exact ⟨r,s₂,hr,(update_returns hpath₁ hr).visiting⟩
    obtain ⟨r,s₁,hr⟩ : ∃r s₁,updateDeps o (update m o host fuel) (m.deps t) false false
        ((s.emit (.enter t)).visit t)=some (r,s₁) := updateDeps_total hdeps
    rw [hr]
    rcases r with e | ⟨changed,_ | _⟩ <;> exact ⟨_,_,rfl⟩

structure GoalsReturn (m : Makefile) (o : Options) (host : Host) (s : State) (goals : List Bytes)
    (s' : State) : Prop where
  steps : Steps m o host s s'
  visiting : s'.visiting=s.visiting
  seen : o.keep=true→∀g∈goals,s'.Seen g
  cycle : ∀v,.cycle v∈s'.log → .cycle v∈s.log ∨ Failed s'.log v

theorem GoalsReturn.refl (s : State) : GoalsReturn m o host s [] s :=
  ⟨.refl,rfl,by simp,fun _ hv => .inl hv⟩

/-- The loop goes on after a goal, with or without a message. -/
theorem GoalsReturn.cons {s₂ : State} {goal : Bytes} (hidle : ∀t,s.visiting t=false)
    (hret : Returns m o host s goal r s₁) (hsteps : Steps m o host s₁ s₂)
    (hv : s₂.visiting=s₁.visiting) (hc : ∀v,.cycle v∈s₂.log → .cycle v∈s₁.log)
    (hrest : GoalsReturn m o host s₂ goals s') : GoalsReturn m o host s (goal::goals) s' where
  steps := hret.steps.trans (hsteps.trans hrest.steps)
  visiting := hrest.visiting.trans (hv.trans hret.visiting)
  seen hk := forall_mem_cons.mpr
    ⟨hrest.steps.seen hrest.visiting (hsteps.seen hv hret.seen),hrest.seen hk⟩
  cycle v hcv := by
    rcases hrest.cycle v hcv with hcv | hcv
    · rcases hret.cycle v (hc v hcv) with hcv | hcv | ⟨hvv,-⟩
      · exact .inl hcv
      · exact .inr (hrest.steps.failed (hsteps.failed hcv))
      · rw [hidle v] at hvv
        cases hvv
    · exact .inr hcv

theorem updateGoals_returns {outdated stopped outdated' : Bool} (hidle : ∀t,s.visiting t=false)
    (h : updateGoals m o host fuel goals outdated s=some (stopped,outdated',s')) :
    GoalsReturn m o host s goals s' := by
  induction goals generalizing outdated s with
  | nil =>
    simp only [updateGoals,Option.some.injEq,Prod.mk.injEq] at h
    obtain ⟨-,-,rfl⟩ := h
    exact GoalsReturn.refl s
  | cons goal goals ih =>
    simp only [updateGoals] at h
    rcases hupd : update m o host fuel goal s with _ | ⟨r,s₁⟩
    · rw [hupd] at h
      cases h
    have hret := update_returns (by simp [hidle]) hupd
    have hidle₁ : ∀t,s₁.visiting t=false := by
      rw [hret.visiting]
      exact hidle
    have hcons : ∀{b},updateGoals m o host fuel goals b s₁=some (stopped,outdated',s')→
        GoalsReturn m o host s (goal::goals) s' := fun h =>
      GoalsReturn.cons hidle hret .refl rfl (fun _ hv => hv) (ih hidle₁ h)
    -- a failure other than "out of date" is reported
    have hreport : ∀line : Bytes,(if o.keep then
        updateGoals m o host fuel goals outdated { s₁.emit (.err line) with failed := true }
        else some (true,outdated,{ s₁.emit (.err line) with failed := true })) =
          some (stopped,outdated',s')→GoalsReturn m o host s (goal::goals) s' := by
      intro line h
      have hstep : Steps m o host s₁ { s₁.emit (.err line) with failed := true } :=
        .single (.report s₁ line)
      have hc : ∀v,.cycle v∈(s₁.emit (.err line)).log → .cycle v∈s₁.log := by
        intro v hv
        simpa using hv
      by_cases hk : o.keep=true
      · rw [if_pos hk] at h
        exact GoalsReturn.cons hidle hret hstep rfl hc (ih hidle₁ h)
      · rw [if_neg hk] at h
        obtain ⟨-,-,rfl⟩ := h
        have hnil := GoalsReturn.cons hidle hret hstep rfl hc (GoalsReturn.refl _)
        exact ⟨hnil.steps,hnil.visiting,fun h => absurd h hk,hnil.cycle⟩
    rw [hupd] at h
    cases r with
    | ok b => exact hcons h
    | error e =>
      cases e with
      | outOfDate => exact hcons h
      | cycle | noRule | notRemade | recipe | touch => exact hreport _ h

theorem updateGoals_total (hfuel : m.rules.length<fuel)
    {outdated : Bool} (hidle : ∀t,s.visiting t=false) :
    ∃r,updateGoals m o host fuel goals outdated s=some r := by
  induction goals generalizing outdated s with
  | nil => exact ⟨_,rfl⟩
  | cons goal goals ih =>
    have hpath : ∀v,s.visiting v=true→Relation.TransGen m.Needs v goal := by simp [hidle]
    have hle : m.unvisited s ≤ m.rules.length := countP_le_length
    obtain ⟨r,s₁,hr⟩ : ∃r s₁,update m o host fuel goal s=some (r,s₁) :=
      update_total hpath (by omega)
    have hidle₁ : ∀t,s₁.visiting t=false := by
      rw [(update_returns hpath hr).visiting]
      exact hidle
    simp only [updateGoals,hr]
    split <;> rename_i h <;> cases h
    · exact ih hidle₁
    · exact ih hidle₁
    · split
      · exact ih hidle₁
      · exact ⟨_,rfl⟩

end

end Coreutils.MakeEngine
