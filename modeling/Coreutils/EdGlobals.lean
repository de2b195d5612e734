import Coreutils.EdCommands

/-!
# The steps of global commands and of whole command lines

A global command saves the undo state, selects lines and visits them, with the steps of its list in
between.
-/

namespace Coreutils.EdGlobals
open List GoText EdText EdEngine EdAddress EdExecute EdSteps EdTraces EdCommands LineRanges Programs

/-- The change count never falls, and lines change only when it rises. -/
def Tallied (c c' : Core) : Prop :=
  c.changeSeq≤c'.changeSeq ∧ (c'.changeSeq=c.changeSeq→c'.buffer.lines=c.buffer.lines)

theorem Tallied.refl (c : Core) : Tallied c c := ⟨le_rfl,fun _ => rfl⟩

variable {c c' c'' : Core}

theorem Tallied.trans (h : Tallied c c') (h' : Tallied c' c'') : Tallied c c'' := by
  refine ⟨h.1.trans h'.1,fun heq => ?_⟩
  have h₁ := h.1
  have h₂ := h'.1
  rw [h'.2 (by omega),h.2 (by omega)]

def SameLines : Act→Prop
  | .dot _ | .save | .touch _ | .count | .mark _ _ | .clean | .enter _ | .visit _ _ | .leave => True
  | _ => False

section
variable {a : Act} {acts : List Act}

theorem changeSeq_step (h : Step c a c') : c.changeSeq≤c'.changeSeq := by
  cases h <;> first | exact le_rfl | exact Nat.le_succ _

theorem changeSeq_path (h : Path Step c acts c') : c.changeSeq≤c'.changeSeq :=
  h.invariant (I := fun d => c.changeSeq≤d.changeSeq) le_rfl fun _ _ _ _ hi hs =>
    hi.trans (changeSeq_step hs)

theorem changeSeq_path_lt (h : Path Step c acts c') (hcount : Act.count∈acts) :
    c.changeSeq<c'.changeSeq := by
  induction h with
  | nil => simp at hcount
  | cons hs hp ih =>
    rcases mem_cons.mp hcount with rfl | hcount
    · cases hs
      exact Nat.lt_of_lt_of_le (Nat.lt_succ_self _) (changeSeq_path hp)
    · exact lt_of_le_of_lt (changeSeq_step hs) (ih hcount)

theorem lines_step (ha : SameLines a) (h : Step c a c') : c'.buffer.lines=c.buffer.lines := by
  cases h <;> first | rfl | exact ha.elim

theorem lines_path (hacts : ∀a∈acts,SameLines a) (h : Path Step c acts c') :
    c'.buffer.lines=c.buffer.lines :=
  h.invariant (I := fun d => d.buffer.lines=c.buffer.lines) rfl
    fun _ a _ ha hi hs => (lines_step (hacts a ha) hs).trans hi

theorem tallied_path (h : Path Step c acts c')
    (hacts : Act.count∈acts ∨ ∀a∈acts,SameLines a) : Tallied c c' := by
  refine ⟨changeSeq_path h,fun heq => ?_⟩
  rcases hacts with hcount | hsame
  · have := changeSeq_path_lt h hcount
    omega
  · exact lines_path hsame h

theorem tallied_trace {P : Act→Prop} (hP : ∀a,P a→SameLines a) (h : Trace P c c') :
    Tallied c c' := by
  obtain ⟨acts,hacts,hp⟩ := h
  exact tallied_path hp (.inr fun a ha => hP a (hacts a ha))

theorem sameLines_of_isDot (h : IsDot a) : SameLines a := by cases a <;> trivial

theorem sameLines_of_marginal (h : Marginal a) : SameLines a := by cases a <;> trivial

theorem sameLines_saves (h : a∈saves c) : SameLines a := by
  unfold saves at h
  split at h
  · simp at h
  · rw [mem_singleton.mp h]
    trivial

theorem tallied_edited (h : Edited c c') : Tallied c c' := by
  rcases h with h | ⟨acts,_,hcount,hp⟩
  · exact tallied_trace (fun _ => sameLines_of_isDot) h
  · exact tallied_path hp (hcount.imp (fun h => by simp [h]) fun h =>
      forall_mem_append.mpr ⟨fun _ => sameLines_saves,fun a ha => sameLines_of_isDot (h a ha)⟩)

end

def Enclosed : Act→Prop
  | .save | .enter _ | .leave => False
  | _ => True

/-- The steps of the commands of a list. -/
def Inward : Act→Prop
  | .save | .enter _ | .visit _ _ | .leave => False
  | _ => True

section
variable {a : Act}

theorem enclosed_of_inward (h : Inward a) : Enclosed a := by cases a <;> trivial

theorem inward_of_editing (h : Editing a) : Inward a := by cases a <;> trivial

theorem inward_of_marginal (h : Marginal a) : Inward a := by cases a <;> trivial

theorem inGlobal_enclosed (h : Trace Enclosed c c') : c'.inGlobal=c.inGlobal := by
  obtain ⟨acts,hacts,hp⟩ := h
  refine hp.invariant (I := fun d => d.inGlobal=c.inGlobal) rfl fun d a d' ha hi hs => ?_
  have := hacts a ha
  cases hs <;> first | exact hi | exact this.elim

theorem inward_edited (h : Edited c c') (hc : c.inGlobal=true) : Trace Inward c c' := by
  rcases h with h | ⟨acts,hacts,_,hp⟩
  · exact h.mono fun _ hd => inward_of_editing hd.editing
  · rw [saves,if_pos hc] at hp
    exact ⟨acts,fun a ha => inward_of_editing (hacts a ha),hp⟩

end

/-- What happens inside a global command: inner steps, with every change counted. -/
def Within (c c' : Core) : Prop := Trace Enclosed c c' ∧ Tallied c c'

theorem Within.refl (c : Core) : Within c c := ⟨Trace.refl c,Tallied.refl c⟩

theorem Within.trans (h : Within c c') (h' : Within c' c'') : Within c c'' :=
  ⟨h.1.trans h'.1,h.2.trans h'.2⟩

theorem Within.inGlobal (h : Within c c') : c'.inGlobal=c.inGlobal :=
  inGlobal_enclosed h.1

theorem Within.inRange (h : Within c c') (hc : InRange c) : InRange c' :=
  h.1.inRange hc

/-- What the commands of a list do. -/
def Inside (c c' : Core) : Prop := Trace Inward c c' ∧ Tallied c c'

theorem Inside.within (h : Inside c c') : Within c c' :=
  ⟨h.1.mono fun _ => enclosed_of_inward,h.2⟩

theorem Inside.inGlobal (h : Inside c c') : c'.inGlobal=c.inGlobal := h.within.inGlobal

theorem Inside.refl (c : Core) : Inside c c := ⟨Trace.refl c,Tallied.refl c⟩

theorem Inside.trans (h : Inside c c') (h' : Inside c' c'') : Inside c c'' :=
  ⟨h.1.trans h'.1,h.2.trans h'.2⟩

theorem inside_marginal (h : Trace Marginal c c') : Inside c c' :=
  ⟨h.mono fun _ => inward_of_marginal,tallied_trace (fun _ => sameLines_of_marginal) h⟩

theorem inside_dots (h : Trace IsDot c c') : Inside c c' :=
  inside_marginal (h.mono fun _ => marginal_of_isDot)

theorem inside_counted {c₁ : Core} {a : Act} (ha : Inward a) (h : Step c a c₁)
    (h' : Step c₁ .count c') : Inside c c' :=
  ⟨(Trace.one ha h).trans (Trace.one (a := .count) trivial h'),
    tallied_path (.cons h (.one h')) (.inl (by simp))⟩

section
variable {W : Type} (host : Host W) {e e' : Engine W} {wanted interactive : Bool}
  {targets addrs : List ℤ} {arg : Bytes} {plan : GlobalPlan} {u : Unit}

theorem core_settle_ok {q : Bool} : core (settle e (.ok q e'))=core e' := by
  simp [settle,failed,core]

/-- A successful line: its addresses, its command, and nothing at the end. -/
theorem executeWith_ok {global : List ℤ→Bytes→Bool→Bool→Ed W Bool} {line : Bytes} {q : Bool}
    (h : executeWith host global line e=.ok q e') :
    ∃addrs rest e₁ e₂,parseAddresses host line e=.ok (addrs,rest) e₁ ∧
      Did global addrs (skipBlank rest) q e₁ e₂ ∧ core e'=core e₂ := by
  rw [executeWith,withDefer_ok] at h
  obtain ⟨e₂,h,rfl⟩ := h
  obtain ⟨⟨addrs,rest⟩,e₁,hparse,h⟩ := bind_ok.mp h
  exact ⟨addrs,rest,e₁,e₂,hparse,dispatch_did host h,core_settle_ok⟩

def Nests (execute : Bytes→Ed W Bool) : Prop :=
  ∀line (e e' : Engine W) q,InRange (core e)→e.inGlobal=true→execute line e=.ok q e'→
    Inside (core e) (core e')

theorem executeNested_nests : Nests (executeNested host) := by
  intro line e e' q hc hg h
  obtain ⟨addrs,rest,e₁,e₂,hparse,hdid,hcore⟩ := executeWith_ok host h
  have hdots := inside_dots (parseAddresses_trace host hc hparse)
  have hg₁ : (core e₁).inGlobal=true := hdots.inGlobal.trans hg
  rw [hcore]
  refine hdots.trans ?_
  cases hdid with
  | edited hed => exact ⟨inward_edited hed hg₁,tallied_edited hed⟩
  | marginal hm => exact inside_marginal hm
  | undone _ _ h₁ h₂ h₃ => exact (inside_counted (a := .undo) trivial h₁ h₂).trans (inside_dots h₃)
  | loaded _ _ hl =>
    obtain ⟨texts,c₁,h₁,h₂⟩ := hl
    exact inside_counted (a := .load texts) trivial h₁ h₂
  | ran _ _ hrun => simp at hrun

section
variable {execute : Bytes→Ed W Bool} {q : Bool} (hnests : Nests execute)
include hnests

theorem executeListFrom_inside (fuel subCommand : ℕ) (hc : InRange (core e))
    (hg : e.inGlobal=true) (h : executeListFrom host execute fuel subCommand e=.ok q e') :
    Inside (core e) (core e') := by
  induction fuel generalizing e subCommand with
  | zero =>
    cases h
    exact Inside.refl _
  | succ fuel ih =>
    obtain ⟨⟨text,err⟩,e₁,_,hcore₁,h⟩ := keeps_readCommandLine.bind_ok h
    dsimp only at h
    split at h
    · cases h
      rw [hcore₁]
      exact Inside.refl _
    · simp at h
    rw [bind_ok] at h
    obtain ⟨⟨addrs,rest⟩,e₂,hparse,h⟩ := h
    obtain ⟨_,_,href,h⟩ := bind_ok.mp h
    obtain ⟨_,rfl⟩ := refuse_ok.mp href
    obtain ⟨_,e₃,_,hcore₃,h⟩ := (keeps_countSubstitution _ _).bind_ok h
    rw [run_get_bind,bind_ok] at h
    obtain ⟨quit,e₄,hexec,h⟩ := h
    have hdots := inside_dots (parseAddresses_trace host (hcore₁ ▸ hc) hparse)
    rw [hcore₁,←hcore₃] at hdots
    have hw := hdots.within
    have hrun := hdots.trans (hnests _ _ _ _ (hw.inRange hc) (hw.inGlobal.trans hg) hexec)
    split at h
    · cases h
      exact hrun
    · have hw := hrun.within
      exact hrun.trans (ih _ (hw.inRange hc) (hw.inGlobal.trans hg) h)

theorem executeGlobalList_inside {commands : Bytes} (hc : InRange (core e))
    (hg : e.inGlobal=true) (h : executeGlobalList host execute commands e=.ok q e') :
    Inside (core e) (core e') := by
  rw [executeGlobalList,withDefer_ok] at h
  obtain ⟨e₁,h,rfl⟩ := h
  have hlist : Inside (core e) (core e₁) :=
    executeListFrom_inside (e := { e with list := some (commands++[newline]) }) host hnests _ _
      hc hg h
  exact hlist

omit hnests in
theorem readInteractive_within {n : ℤ} {previous : Bytes} {r : Option (Bytes×Bytes)}
    (hc : InRange (core e)) (h : readInteractive host n previous e=.ok r e') :
    Within (core e) (core e') := by
  rw [readInteractive,run_get_bind,bind_ok] at h
  obtain ⟨_,e₁,hprint,h⟩ := h
  obtain ⟨⟨text,err⟩,e₂,hread,h⟩ := bind_ok.mp h
  have hcore : core e₂=core e :=
    (keeps_readCommandLine.ok hread).trans ((keeps_println _).ok hprint)
  rw [←hcore] at hc ⊢
  dsimp only at h
  split at h
  · simp at h
  split at h
  · cases h
    exact Within.refl _
  rw [bind_ok] at h
  obtain ⟨_,_,href,h⟩ := h
  obtain ⟨_,rfl⟩ := refuse_ok.mp href
  obtain ⟨⟨addrs,rest⟩,e₃,hparse,h⟩ := bind_ok.mp h
  obtain ⟨_,_,href,h⟩ := bind_ok.mp h
  obtain ⟨_,rfl⟩ := refuse_ok.mp href
  cases h
  exact (inside_dots (parseAddresses_trace host hc hparse)).within

omit hnests in
theorem visit_within {index : ℕ} {n : ℤ} (hn : (e.globalTargets[index]?).getD 0=n) (h0 : n≠0) :
    Within (core e) (core { e with
      globalTargets := e.globalTargets.set index 0
      buffer := { e.buffer with current := n } }) := by
  have hget : (core e).globalTargets[index]?=some n := by
    change e.globalTargets[index]?=some n
    cases ht : e.globalTargets[index]? with
    | none => simp [ht,h0.symm] at hn
    | some m => simpa [ht] using hn
  have hstep : Step (core e) (.visit index n) _ := Step.visit hget
  exact ⟨Trace.one (a := .visit index n) trivial hstep,
    tallied_path (.one hstep) (.inr fun a ha => by rw [mem_singleton.mp ha]; trivial)⟩

theorem visitTargets_within (command : Option Bytes) (left index : ℕ) (previous : Bytes)
    (hc : InRange (core e)) (hg : e.inGlobal=true)
    (h : visitTargets host execute command left index previous e=.ok q e') :
    Within (core e) (core e') := by
  induction left generalizing e index previous with
  | zero =>
    cases h
    exact Within.refl _
  | succ left ih =>
    rw [visitTargets,run_get_bind] at h
    generalize hn : (e.globalTargets[index]?).getD 0=n at h
    split_ifs at h with h0
    · exact ih _ _ hc hg h
    have hvisit := visit_within hn h0
    rw [run_set_bind] at h
    -- the rest of the loop, after a list of commands that did not quit
    have hrest : ∀{e₁ e₂ : Engine W} {quit : Bool} {prev : Bytes},Within (core e) (core e₁)→
        Within (core e₁) (core e₂)→
        ((if quit then pure true
          else visitTargets host execute command left (index+1) prev : Ed W Bool) e₂=.ok q e')→
        Within (core e) (core e') := by
      intro e₁ e₂ quit prev h₁ h₂ hrun
      have h₁₂ := h₁.trans h₂
      split at hrun
      · cases hrun
        exact h₁₂
      · exact h₁₂.trans (ih _ _ (h₁₂.inRange hc) (h₁₂.inGlobal.trans hg) hrun)
    cases command with
    | some command =>
      obtain ⟨quit,e₁,hlist,h⟩ := bind_ok.mp h
      exact hrest hvisit (executeGlobalList_inside host hnests (hvisit.inRange hc)
        (hvisit.inGlobal.trans hg) hlist).within h
    | none =>
      obtain ⟨r,e₁,hread,h⟩ := bind_ok.mp h
      have hasked := hvisit.trans (readInteractive_within host (hvisit.inRange hc) hread)
      cases r with
      | none => exact hasked.trans (ih _ _ (hasked.inRange hc) (hasked.inGlobal.trans hg) h)
      | some r =>
        obtain ⟨quit,e₂,hlist,h⟩ := bind_ok.mp h
        exact hrest hasked (executeGlobalList_inside host hnests (hasked.inRange hc)
          (hasked.inGlobal.trans hg) hlist).within h

theorem runGlobal_within {count : ℕ} (hc : InRange (core e))
    (hg : e.inGlobal=true) (h : runGlobal host execute plan count e=.ok u e') :
    Within (core e) (core e') := by
  rw [runGlobal,bind_ok] at h
  obtain ⟨quit,e₁,hvisit,h⟩ := h
  refine (visitTargets_within host hnests _ _ _ _ hc hg hvisit).trans ?_
  split at h
  · cases h
    exact Within.refl _
  · rw [run_get_bind,bind_ok] at h
    obtain ⟨_,_,href,h⟩ := h
    obtain ⟨_,rfl⟩ := refuse_ok.mp href
    exact (inside_dots (printStyleIf_trace host h)).within

end

theorem selectLines_spec {re : Matcher} (n : ℤ) (lines : List Bytes)
    (h : selectLines re wanted n lines=.ok targets) : targets.Pairwise (·<·) ∧
      ∀t,t∈targets ↔ ∃line,At lines (t-n+1) line ∧ re.matchString line=.ok wanted := by
  induction lines generalizing n targets with
  | nil =>
    cases h
    simp [At]
  | cons line lines ih =>
    simp only [selectLines] at h
    cases hm : re.matchString line with
    | error err => simp [hm,bind,Except.bind] at h
    | ok ok =>
      cases hr : selectLines re wanted (n+1) lines with
      | error err => simp [hm,hr,bind,Except.bind] at h
      | ok rest =>
        simp only [hm,hr,bind,Except.bind,pure,Except.pure,Except.ok.injEq] at h
        obtain ⟨hsorted,hrest⟩ := ih (n+1) hr
        have hlt : ∀t∈rest,n<t := fun t ht => by
          obtain ⟨_,hat,_⟩ := (hrest t).mp ht
          have := hat.1
          omega
        have hmem : ∀t,(∃x,At (line::lines) (t-n+1) x ∧ re.matchString x=.ok wanted) ↔
            t=n ∧ ok=wanted ∨ t∈rest := fun t => by
          have hone : t-n+1=1 ↔ t=n := by omega
          simp only [at_cons,hrest t,hone,show t-n+1-1=t-(n+1)+1 by omega]
          constructor
          · rintro ⟨x,⟨rfl,rfl⟩ | hat,hx⟩
            · rw [hm] at hx
              exact .inl ⟨rfl,by simpa using hx⟩
            · exact .inr ⟨x,hat,hx⟩
          · rintro (⟨rfl,rfl⟩ | ⟨x,hat,hx⟩)
            · exact ⟨line,.inl ⟨rfl,rfl⟩,hm⟩
            · exact ⟨x,.inr hat,hx⟩
        simp only [←h]
        split
        · exact ⟨pairwise_cons.mpr ⟨hlt,hsorted⟩,fun t => by simp [*]⟩
        · exact ⟨hsorted,fun t => by simp [*]⟩

theorem planGlobal_spec (h : planGlobal host addrs arg interactive e=.ok plan e') :
    1≤plan.first ∧ plan.first≤plan.last ∧
      (interactive=false→plan.command≠none ∧ plan.style=none) := by
  rw [planGlobal,run_get_bind,bind_ok] at h
  obtain ⟨⟨first,last⟩,_,ha,h⟩ := h
  obtain ⟨_,_,h₁,_,h₃,_⟩ := twoAddresses_ok.mp ha
  have hne := h₃ rfl
  have hplan : plan.first=first ∧ plan.last=last ∧
      (interactive=false→plan.command≠none ∧ plan.style=none) := by
    obtain ⟨_,_,_,h⟩ := bind_ok.mp h
    obtain ⟨_,_,_,h⟩ := bind_ok.mp h
    obtain ⟨_,_,_,h⟩ := bind_ok.mp h
    obtain ⟨_,_,_,h⟩ := bind_ok.mp h
    rw [run_modify_bind] at h
    split at h
    · rename_i hi
      obtain ⟨_,_,_,h⟩ := bind_ok.mp h
      cases h
      exact ⟨rfl,rfl,fun hf => by simp [hf] at hi⟩
    · rw [run_get_bind,bind_ok] at h
      obtain ⟨_,_,_,h⟩ := h
      cases h
      exact ⟨rfl,rfl,fun _ => ⟨by simp,rfl⟩⟩
  exact ⟨by omega,by omega,hplan.2.2⟩

theorem targets_iff {re : Matcher} {first last : ℤ} (hfirst : 1≤first)
    (hlast : first≤last) (h : selectLines re wanted first (e.lineRange first last)=.ok targets)
    (t : ℤ) : t∈targets ↔ first≤t ∧ t≤last ∧
      ∃line,At e.buffer.lines t line ∧ re.matchString line=.ok wanted := by
  rw [(selectLines_spec _ _ h).2 t]
  have hat : ∀line,At (e.lineRange first last) (t-first+1) line ↔
      first≤t ∧ t≤last ∧ At e.buffer.lines t line := fun line => by
    rw [show e.lineRange first last=range e.buffer.lines first last from rfl,
      at_range hfirst hlast,show t-first+1+first-1=t by omega]
    constructor
    · exact fun ⟨h₀,h₁,h₂⟩ => ⟨by omega,by omega,h₂⟩
    · exact fun ⟨h₀,h₁,h₂⟩ => ⟨by omega,by omega,h₂⟩
  simp [hat,and_assoc]

/-- What a global command did: it saved the undo state, went over its targets and left; if it
changed nothing it saves the undo state again. -/
def Visited (c c' : Core) : Prop :=
  ∃targets c₁ c₂ c₃ c₄,Step c .save c₁ ∧ Step c₁ (.enter targets) c₂ ∧ Within c₂ c₃ ∧
    Step c₃ .leave c₄ ∧
    (c₄.changeSeq≠c.changeSeq ∧ c'=c₄ ∨
      c₄.changeSeq=c.changeSeq ∧ Path Step c₄ [.save,.count] c')

def entered (e : Engine W) (interactive : Bool) (targets : List ℤ) : Engine W :=
  { saved e with
    inGlobal := true
    interactiveGlobal := interactive
    globalTargets := targets
    globalSubCommand := -1
    globalSubAttempt := []
    globalSubChanged := [] }

variable {execute : Bytes→Ed W Bool}

theorem global_ok (h : global host execute addrs arg wanted interactive e=.ok u e') :
    ∃plan e₁ targets e₂,planGlobal host addrs arg interactive e=.ok plan e₁ ∧
      selectLines plan.re wanted plan.first (e₁.lineRange plan.first plan.last)=.ok targets ∧
      runGlobal host execute plan targets.length (entered e₁ interactive targets)=.ok u e₂ ∧
      e'=finishGlobal e₁ (.ok u e₂) := by
  rw [global,bind_ok] at h
  obtain ⟨plan,e₁,hplan,h⟩ := h
  rw [run_get_bind,bind_ok] at h
  obtain ⟨targets,_,htargets,h⟩ := h
  obtain ⟨hselect,rfl⟩ := orRaise_ok.mp htargets
  rw [withDefer_ok] at h
  obtain ⟨e₂,h,rfl⟩ := h
  exact ⟨plan,e₁,targets,e₂,hplan,hselect,h,rfl⟩

theorem saved_step (hg : e.inGlobal=false) : Step (core e) .save (core (saved e)) :=
  saved_eq hg ▸ Step.save hg

theorem entered_step (interactive : Bool)
    (hg : e.inGlobal=false) (hfirst : 1≤plan.first) (hlast : plan.first≤plan.last)
    (h : selectLines plan.re wanted plan.first (e.lineRange plan.first plan.last)=.ok targets) :
    Step (core (saved e)) (.enter targets) (core (entered e interactive targets)) := by
  rw [entered,saved_eq hg]
  refine Step.enter hg fun t ht => ?_
  obtain ⟨h₀,_,_,hat,_⟩ := (targets_iff hfirst hlast h t).mp ht
  exact ⟨by omega,hat.le⟩

theorem global_visited (hnests : Nests execute) (hc : InRange (core e))
    (hg : e.inGlobal=false) (h : global host execute addrs arg wanted interactive e=.ok u e') :
    Visited (core e) (core e') := by
  obtain ⟨plan,e₁,targets,e₂,hplan,hselect,hrun,rfl⟩ := global_ok host h
  have hcore₁ := (keeps_planGlobal host _ _ _).ok hplan
  obtain ⟨hfirst,hlast,_⟩ := planGlobal_spec host hplan
  rw [←hcore₁] at hc ⊢
  have hg₁ : e₁.inGlobal=false := (congrArg Core.inGlobal hcore₁).trans hg
  have hsave := saved_step hg₁
  have henter := entered_step interactive hg₁ hfirst hlast hselect
  have hwithin := runGlobal_within host hnests (henter.inRange (hsave.inRange hc)) rfl hrun
  refine ⟨targets,_,_,_,_,hsave,henter,hwithin,Step.leave,?_⟩
  unfold finishGlobal
  by_cases hseq : e₂.changeSeq=e₁.changeSeq
  · refine .inr ⟨hseq,?_⟩
    rw [if_neg (by simpa using hseq)]
    exact .cons (Step.save rfl) (.one Step.count)
  · refine .inl ⟨hseq,?_⟩
    rw [if_pos (by simpa using hseq)]
    rfl

end

end Coreutils.EdGlobals
