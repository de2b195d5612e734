import Coreutils.Logs
import Coreutils.MakeSteps

/-!
# make updates each target once and only when needed

For every makefile of explicit rules, every state of the files, all goals and every behaviour of the
recipes, the goal loop ends. Its log is orderly as long as no target is asked for again after it has
failed: `update` keeps no mark of a failure, so that with `-k` such a target is updated anew along
every other path to it.
-/

namespace Coreutils.MakeEngine
open Function List GoText Logs

/-- The target is missing, or a prerequisite is newer than it or was remade. -/
def Makefile.Needed (m : Makefile) (t : Bytes) (now : Moment) : Prop :=
  now.time t=none ∨ ∃d∈m.deps t,now.newerThan t d=true ∨ now.made d=true

def started (log : List Event) : List Bytes :=
  log.filterMap fun
    | .recipe t => some t
    | _ => none

theorem started_append (log block : List Event) :
    started (log++block)=started log++started block := filterMap_append

variable {log block : List Event} {t : Bytes} {changed : Bool}

theorem mem_started : t∈started log ↔ .recipe t∈log := by
  simp only [started,mem_filterMap]
  constructor
  · rintro ⟨e,he,ht⟩
    cases e <;> simp_all
  · intro h
    exact ⟨_,h,rfl⟩

/-- A recipe is started at most once, right after the prerequisites of its target are settled, when
all of them are done and none has failed; and it is started then if and only if the target needs it.
-/
structure Orderly (m : Makefile) (log : List Event) : Prop where
  once : (started log).Nodup
  settled : ∀pre post t,log=pre++.recipe t::post→
    ∃pre' now,pre=pre'++[.settle t now] ∧ ∀d∈m.deps t,now.done d=true ∧ ¬ Failed pre d
  needed : ∀pre post t now,log=pre++.settle t now::post→m.recipes t≠[]→
    ((∃post',post=.recipe t::post') ↔ m.Needed t now)

def NoRetry (log : List Event) : Prop :=
  ∀pre post t,log=pre++.enter t::post→¬ Failed pre t

theorem NoRetry.of_append (h : NoRetry (log++block)) : NoRetry log := by
  intro pre post t hlog
  exact h pre (post++block) t (by rw [hlog]; simp)

section
variable {m : Makefile} {o : Options} {host : Host}

def Options.Runs (o : Options) : Prop := o.dry=false ∧ o.question=false ∧ o.touch=false

theorem decideTarget_eq (t : Bytes) (changed : Bool) (s : State) :
    decideTarget m o host t changed s =
      if (examine s.now t (m.deps t) (s.time t).isNone []).1 || changed && (s.time t).isNone then
        remake m o host t (examine s.now t (m.deps t) (s.time t).isNone []).2
          (s.emit (.settle t s.now)) else (.ok false,(s.emit (.settle t s.now)).current t) := rfl

theorem needed_iff (t : Bytes) (changed : Bool) (s : State) :
    ((examine s.now t (m.deps t) (s.time t).isNone []).1 ||
      changed && (s.time t).isNone)=true ↔ m.Needed t s.now := by
  rw [examine_deps]
  simp only [Bool.or_eq_true,any_eq_true,Bool.and_eq_true,Option.isNone_iff_eq_none,Moment.forces]
  constructor
  · rintro (h | ⟨-,h⟩)
    · exact h
    · exact .inl h
  · exact .inl

theorem decideTarget_started (ho : o.Runs) {s : State}
    (hn : m.Needed t s.now) (hr : m.recipes t≠[]) :
    ∃body,(decideTarget m o host t changed s).2.log =
      s.log++[.settle t s.now,.recipe t]++body ∧ ∀e∈body,e.LineOf t := by
  rw [decideTarget_eq,if_pos ((needed_iff t changed s).mpr hn)]
  simp only [remake,ho.2.1,ho.2.2,if_neg hr]
  generalize automatic m t _=a
  obtain ⟨body,hlog,hbody⟩ := (recipeLines_lines m o host t a false (m.recipes t)
    ((s.emit (.settle t s.now)).emit (.recipe t))).1.log
  refine ⟨body,?_,hbody⟩
  rcases hl : recipeLines m o host t a false (m.recipes t)
    ((s.emit (.settle t s.now)).emit (.recipe t)) with ⟨_ | e,s₁⟩ <;> rw [hl] at hlog
  · simpa [State.remade] using hlog
  · simpa using hlog

theorem decideTarget_unstarted (ho : o.Runs) {s : State} (h : m.recipes t≠[]→¬ m.Needed t s.now) :
    (decideTarget m o host t changed s).2.log=s.log++[.settle t s.now] := by
  rw [decideTarget_eq]
  split_ifs with hn
  · have hr : m.recipes t=[] := by
      by_contra hr
      exact h hr ((needed_iff t changed s).mp hn)
    simp [remake,ho.2.1,ho.2.2,hr,State.remade]
  · rfl

end

section
variable {m : Makefile}

def Event.Plain : Event→Prop
  | settle _ _ | recipe _ => False
  | _ => True

theorem started_plain (hb : ∀e∈block,e.Plain) : started block=[] := by
  apply eq_nil_iff_forall_not_mem.mpr
  intro t ht
  exact hb _ (mem_started.mp ht)

theorem Orderly.append_plain (h : Orderly m log) (hb : ∀e∈block,e.Plain) :
    Orderly m (log++block) where
  once := by
    rw [started_append,started_plain hb,append_nil]
    exact h.once
  settled pre post t hlog := by
    rcases split_append hlog with ⟨post',hl,-⟩ | ⟨pre',-,hbl⟩
    · exact h.settled pre post' t hl
    · exact absurd (hb (.recipe t) (by simp [hbl])) (by simp [Event.Plain])
  needed pre post t now hlog hr := by
    rcases split_append hlog with ⟨post',hl,rfl⟩ | ⟨pre',-,hbl⟩
    · rw [head_append_iff]
      · exact h.needed pre post' t now hl hr
      · rintro rest rfl
        exact hb (.recipe t) (by simp)
    · exact absurd (hb (.settle t now) (by simp [hbl])) (by simp [Event.Plain])

theorem Orderly.append_settle (h : Orderly m log) {now : Moment}
    (hn : m.recipes t≠[]→¬ m.Needed t now) : Orderly m (log++[.settle t now]) where
  once := by simpa [started] using h.once
  settled pre post u hlog := by
    rcases split_append hlog with ⟨post',hl,-⟩ | ⟨pre',-,hbl⟩
    · exact h.settled pre post' u hl
    · simp [cons_eq_append_iff] at hbl
  needed pre post u now' hlog hr := by
    rcases split_append hlog with ⟨post',hl,rfl⟩ | ⟨pre',-,hbl⟩
    · rw [head_append_iff (by simp)]
      exact h.needed pre post' u now' hl hr
    · simp only [cons_eq_append_iff,nil_eq,
        append_eq_nil_iff,reduceCtorEq,and_false,exists_false,or_false] at hbl
      obtain ⟨-,⟨rfl,rfl⟩,rfl⟩ := hbl
      simpa using hn hr

theorem Orderly.append_recipe (h : Orderly m log) {now : Moment}
    (hn : m.Needed t now) (honce : .recipe t∉log)
    (hdeps : ∀d∈m.deps t,now.done d=true ∧ ¬ Failed log d) :
    Orderly m (log++[.settle t now,.recipe t]) := by
  -- the only recipe in the block is that of `t`, behind the settled moment
  have hblock : ∀{pre' post u},[.settle t now,.recipe t]=pre'++Event.recipe u::post→
      pre'=[.settle t now] ∧ u=t := by
    intro pre' post u hbl
    rcases pre' with _ | ⟨e,_ | ⟨e',pre'⟩⟩
    · simp at hbl
    · simp only [cons_append,nil_append,cons.injEq,Event.recipe.injEq] at hbl
      exact ⟨by rw [hbl.1],hbl.2.1.symm⟩
    · simp at hbl
  constructor
  · have hnew : started [.settle t now,.recipe t]=[t] := rfl
    rw [started_append,hnew,nodup_append]
    refine ⟨h.once,by simp,?_⟩
    rintro u hu v hv rfl
    rw [mem_singleton.mp hv] at hu
    exact honce (mem_started.mp hu)
  · intro pre post u hlog
    rcases split_append hlog with ⟨post',hl,-⟩ | ⟨pre',rfl,hbl⟩
    · exact h.settled pre post' u hl
    · obtain ⟨rfl,rfl⟩ := hblock hbl
      refine ⟨log,now,rfl,?_⟩
      intro d hd
      simpa [Failed] using hdeps d hd
  · intro pre post u now' hlog hr
    rcases split_append hlog with ⟨post',hl,rfl⟩ | ⟨pre',-,hbl⟩
    · rw [head_append_iff (by simp)]
      exact h.needed pre post' u now' hl hr
    rcases pre' with _ | ⟨e,_ | ⟨e',pre'⟩⟩
    · obtain ⟨⟨rfl,rfl⟩,rfl⟩ := hbl
      simpa using hn
    · simp at hbl
    · simp at hbl

end

theorem failed_append : Failed (log++block) t ↔ Failed log t ∨ Failed block t := by
  simp [Failed,exists_or]

structure Sound (m : Makefile) (s : State) : Prop where
  apart : ∀t,s.visiting t=true→s.done t=false
  recorded : ∀t,.recipe t∈s.log→s.done t=true ∨ Failed s.log t
  unfailed : NoRetry s.log→∀t,s.visiting t=true ∨ s.done t=true→¬ Failed s.log t
  orderly : NoRetry s.log→Orderly m s.log

section
variable {m : Makefile} {o : Options} {host : Host} {s s' : State}
  {upd : Bytes→State→Option (Except Failure Bool×State)} {r : Except Failure Bool}
  {goals : List Bytes} {t : Bytes}

/-- Events that are neither about recipes nor failures leave the invariant alone. -/
theorem Sound.log_append (h : Sound m s)
    (hd : s'.done=s.done) (hv : s'.visiting=s.visiting) (hlog : s'.log=s.log++block)
    (hb : ∀e∈block,e.Plain) (hf : ∀t,¬ Failed block t) : Sound m s' where
  apart t := by
    rw [hd,hv]
    exact h.apart t
  recorded t ht := by
    rw [hd,hlog,failed_append]
    rw [hlog] at ht
    rcases mem_append.mp ht with ht | ht
    · exact (h.recorded t ht).imp_right .inl
    · exact absurd (hb _ ht) (by simp [Event.Plain])
  unfailed hc t ht := by
    rw [hlog] at hc ⊢
    rw [hd,hv] at ht
    rw [failed_append,not_or]
    exact ⟨h.unfailed hc.of_append t ht,hf t⟩
  orderly hc := by
    rw [hlog] at hc ⊢
    exact (h.orderly hc.of_append).append_plain hb

theorem Sound.visit (h : Sound m s) (hd : s.done t=false) :
    Sound m ((s.emit (.enter t)).visit t) := by
  have hs : Sound m (s.emit (.enter t)) :=
    h.log_append rfl rfl rfl (by simp [Event.Plain]) (by simp [Failed])
  refine { hs with apart := ?_,unfailed := ?_ }
  · intro u hu
    by_cases hut : u=t
    · rw [hut]
      exact hd
    · exact hs.apart u (by simpa [State.visit,update_of_ne hut] using hu)
  · intro hc u hu
    by_cases hut : u=t
    · subst hut
      simpa [State.visit,Failed] using hc s.log [] u rfl
    · exact hs.unfailed hc u (by simpa [State.visit,update_of_ne hut] using hu)

/-- A visit ends, with the target done or with a failure. -/
theorem Sound.leave (h : Sound m s) (hv : s.visiting t=true)
    (hv' : s'.visiting=Function.update s.visiting t false)
    (hdu : ∀u,u≠t→s'.done u=s.done u) (hrec : ∀u,u≠t → .recipe u∈s'.log → .recipe u∈s.log)
    (hext : ∃block,s'.log=s.log++block) (hf : ∀u,u≠t→(Failed s'.log u ↔ Failed s.log u))
    (ht : s'.done t=true ∧ (Failed s'.log t→Failed s.log t) ∨ s'.done t=s.done t ∧ Failed s'.log t)
    (ho : NoRetry s'.log→Orderly m s'.log) : Sound m s' := by
  have hc : NoRetry s'.log→NoRetry s.log := by
    obtain ⟨block,hb⟩ := hext
    rw [hb]
    exact NoRetry.of_append
  refine ⟨?_,?_,?_,ho⟩
  · intro u hu
    rw [hv'] at hu
    by_cases hut : u=t
    · simp [hut] at hu
    · rw [hdu u hut]
      exact h.apart u (by simpa [update_of_ne hut] using hu)
  · intro u hu
    by_cases hut : u=t
    · exact hut ▸ ht.imp And.left And.right
    · rw [hf u hut,hdu u hut]
      exact h.recorded u (hrec u hut hu)
  · intro hn u hu
    by_cases hut : u=t
    · subst hut
      rcases ht with ⟨-,hft⟩ | ⟨hd,-⟩
      · exact fun hfail => h.unfailed (hc hn) u (.inl hv) (hft hfail)
      · -- `t` is neither visited any more nor done
        rw [hv',hd,h.apart u hv] at hu
        simp at hu
    · rw [hf u hut]
      rw [hv',update_of_ne hut,hdu u hut] at hu
      exact h.unfailed (hc hn) u hu

theorem Event.LineOf.plain {e : Event} (h : e.LineOf t) : e.Plain := by
  cases e <;> simp_all [Event.LineOf,Event.Plain]

/-- The log of a decision about `t` is orderly if the log before it is. -/
theorem Sound.decide_orderly (ho : o.Runs) (h : Sound m s)
    (hv : s.visiting t=true) (hd : ∀d,m.Needs t d→s.done d=true) (hc : NoRetry s.log) :
    Orderly m (decideTarget m o host t changed s).2.log := by
  by_cases hstart : m.recipes t≠[] ∧ m.Needed t s.now
  · obtain ⟨body,hlog,hbody⟩ := decideTarget_started ho hstart.2 hstart.1
    rw [hlog]
    refine Orderly.append_plain ?_ fun e he => (hbody e he).plain
    apply (h.orderly hc).append_recipe hstart.2
    · -- a first start would have left `t` done or failed
      intro hrec
      rcases h.recorded t hrec with hdone | hfail
      · rw [h.apart t hv] at hdone
        cases hdone
      · exact h.unfailed hc t (.inl hv) hfail
    · intro d hdep
      exact ⟨hd d hdep,h.unfailed hc d (.inr (hd d hdep))⟩
  · have hn : m.recipes t≠[]→¬ m.Needed t s.now := fun hr hn => hstart ⟨hr,hn⟩
    rw [decideTarget_unstarted ho hn]
    exact (h.orderly hc).append_settle hn

theorem decideTarget_log (t : Bytes) (changed : Bool) (s : State) :
    ∃block,(decideTarget m o host t changed s).2.log=s.log++block ∧
      (∀u,u≠t → .recipe u∉block) ∧ (∀u,¬ Failed block u) ∧ ∀u,.enter u∉block := by
  obtain ⟨body,hlog,hbody⟩ := (decideTarget_ends m o host t changed s).works.log
  refine ⟨.settle t s.now::body,by rw [hlog]; simp,?_,?_,?_⟩
  · intro u hu hmem
    rcases hbody _ (by simpa using hmem) with h | h
    · cases h
      exact hu rfl
    · exact h
  · rintro u ⟨f,hf⟩
    rcases hbody _ (by simpa using hf) with h | h
    · cases h
    · exact h
  · intro u hu
    rcases hbody _ (by simpa using hu) with h | h
    · cases h
    · exact h

theorem Sound.step (ho : o.Runs) (h : Sound m s) (hstep : Step m o host s s') : Sound m s' := by
  cases hstep with
  | skip | report => exact h.log_append rfl rfl rfl (by simp [Event.Plain]) (by simp [Failed])
  | cycle t hv hc =>
    exact h.log_append rfl rfl (append_assoc _ _ _) (by simp [Event.Plain]) (by simp [Failed])
  | call t hd hv => exact h.visit hd
  | found t hv hr =>
    exact h.leave hv (by simp [State.current]) (fun u hu => by simp [State.current,update_of_ne hu])
      (by simp [State.current]) ⟨[],by simp [State.current]⟩ (by simp [State.current])
      (.inl (by simp [State.current])) h.orderly
  | giveUp t e hv why hk =>
    exact h.leave hv (by simp) (by simp) (by simp) ⟨[.fail t e],rfl⟩
      (fun u hu => by simp [Failed,hu]) (.inr ⟨by simp,e,by simp⟩) fun hc =>
      (h.orderly hc.of_append).append_plain (by simp [Event.Plain])
  | decide t changed hv hd =>
    have hends := decideTarget_ends m o host t changed s
    have hord : NoRetry s.log→Orderly m (decideTarget m o host t changed s).2.log :=
      h.decide_orderly ho hv hd
    obtain ⟨block,hlog,hrec,hfail,-⟩ := @decideTarget_log m o host t changed s
    rcases hr : decideTarget m o host t changed s with ⟨e | b,s₁⟩ <;>
      rw [hr] at hends hord hlog <;> simp only at hends hord hlog
    · obtain ⟨hdone,-,-⟩ := hends.failed e rfl
      refine h.leave hv (by simp [hends.works.visiting]) (by simp [hdone]) ?_
        ⟨block++[.fail t e],by simp [hlog]⟩ ?_ (.inr ⟨by simp [hdone],e,by simp⟩) ?_
      · intro u hu hmem
        simpa [hlog,hrec u hu] using hmem
      · intro u hu
        simp_all [Failed]
      · intro hc
        have hc' := hc.of_append
        rw [hlog] at hc'
        exact (hord hc'.of_append).append_plain (by simp [Event.Plain])
    · refine h.leave hv (by simp [hends.works.visiting]) ?_ ?_ ⟨block,by simp [hlog]⟩ ?_
        (.inl ⟨by simp [hends.done b rfl],?_⟩) ?_
      · intro u hu
        rw [State.leave_done,hends.works.done u hu,State.emit_done]
      · intro u hu hmem
        simpa [hlog,hrec u hu] using hmem
      · intro u hu
        simp_all [Failed]
      · have := hfail t
        simp_all [Failed]
      · intro hc
        rw [State.leave_ok_log] at hc ⊢
        rw [hlog] at hc
        exact hord hc.of_append

theorem Steps.keeps {P : State→Prop} (hsteps : Steps m o host s s')
    (hstep : ∀{s s'},P s→Step m o host s s'→P s') (h : P s) : P s' := by
  induction hsteps with
  | refl => exact h
  | tail _ hs ih => exact hstep ih hs

theorem Sound.initial (m : Makefile) (time : Bytes→Option ℕ) : Sound m { time := time } where
  apart t ht := by cases ht
  recorded t ht := by cases ht
  unfailed _ t ht := by simp at ht
  orderly _ := ⟨by simp [started],by simp,by simp⟩

/-- A cycle that is met is one of the rules. -/
theorem Steps.cycle (hsteps : Steps m o host s s')
    (h : ∀t,.cycle t∈s.log→Relation.TransGen m.Needs t t) :
    ∀t,.cycle t∈s'.log→Relation.TransGen m.Needs t t := by
  induction hsteps with
  | refl => exact h
  | tail _ hstep ih =>
    intro u hu
    cases hstep with
    | skip t hd => exact ih u (by simpa using hu)
    | cycle t hv hc =>
      rcases mem_append.mp hu with hu | hu
      · exact ih u (by simpa using hu)
      · simp only [mem_singleton,Event.cycle.injEq] at hu
        subst hu
        exact hc
    | call t hd hv => exact ih u (by simpa [State.visit] using hu)
    | found t hv hr => exact ih u (by simpa [State.current] using hu)
    | giveUp t e hv why hk | report line => exact ih u (by simpa using hu)
    | decide t changed hv hd =>
      apply ih u
      refine decideTarget_cycle (?_ : .cycle u∈(decideTarget m o host t changed _).2.log)
      revert hu
      cases (decideTarget m o host t changed _).1 <;> simp

/-- A failure is a target's own or comes from a prerequisite. -/
def Explained (m : Makefile) (o : Options) (s : State) : Prop :=
  ∀t e,.fail t e∈s.log→e.Own o t ∨ ∃d,m.Needs t d ∧ Refused s.log d

theorem Explained.step (h : Explained m o s) (hstep : Step m o host s s') : Explained m o s' := by
  have hmono : ∀{d},Refused s.log d→Refused s'.log d :=
    fun hd => Steps.refused (.single hstep) hd
  have hold : ∀t e,.fail t e∈s.log→e.Own o t ∨ ∃d,m.Needs t d ∧ Refused s'.log d :=
    fun t e he => (h t e he).imp_right fun ⟨d,hd,href⟩ => ⟨d,hd,hmono href⟩
  intro u f hu
  cases hstep with
  | skip | cycle | report => exact hold u f (by simpa using hu)
  | call t hd hv => exact hold u f (by simpa [State.visit] using hu)
  | found t hv hr => exact hold u f (by simpa [State.current] using hu)
  | giveUp t e hv why hk =>
    rcases mem_append.mp hu with hu | hu
    · exact hold u f hu
    simp only [mem_singleton] at hu
    obtain ⟨rfl,rfl⟩ := hu
    rcases why with rfl | ⟨d,hd,href⟩
    · exact .inl rfl
    · exact .inr ⟨d,hd,hmono href⟩
  | decide t changed hv hd =>
    have hends := decideTarget_ends m o host t changed s
    obtain ⟨block,hlog,-,hfail,-⟩ := @decideTarget_log m o host t changed s
    have hnew : .fail u f∈(decideTarget m o host t changed s).2.log → .fail u f∈s.log := by
      intro hmem
      rw [hlog] at hmem
      rcases mem_append.mp hmem with hmem | hmem
      · exact hmem
      · exact absurd ⟨f,hmem⟩ (hfail u)
    rcases hr : (decideTarget m o host t changed s).1 with e | b <;> rw [hr] at hold
    · rw [hr] at hu
      rcases mem_append.mp hu with hu | hu
      · exact hold u f (hnew hu)
      · simp only [mem_singleton] at hu
        obtain ⟨rfl,rfl⟩ := hu
        exact .inl (hends.failed f hr).2.2
    · rw [hr,State.leave_ok_log] at hu
      exact hold u f (hnew hu)

def State.Handled (s : State) (t : Bytes) : Prop := s.done t=true ∨ Failed s.log t

/-- With `-k`, the prerequisites of every handled target are handled too or being visited. -/
def Closed (m : Makefile) (s : State) : Prop := ∀t,s.Handled t→∀d,m.Needs t d→s.Seen d

/-- A step leaves no target that was seen unseen. -/
theorem Step.seen (hstep : Step m o host s s') (ht : s.Seen t) : s'.Seen t := by
  rcases ht with ht | ht | ht
  · exact .inl (hstep.grows.1 t ht)
  · exact .inr (.inl (Steps.failed (.single hstep) ht))
  cases hstep with
  | skip | cycle | report => exact .inr (.inr ht)
  | call u hd hv =>
    refine .inr (.inr ?_)
    by_cases htu : t=u
    · simp [htu,State.visit]
    · simpa [State.visit,update_of_ne htu] using ht
  | found u hv hr =>
    by_cases htu : t=u
    · exact .inl (by simp [htu,State.current])
    · exact .inr (.inr (by simpa [State.current,update_of_ne htu] using ht))
  | giveUp u e hv why hk =>
    by_cases htu : t=u
    · exact .inr (.inl ⟨e,by simp [htu]⟩)
    · exact .inr (.inr (by simpa [update_of_ne htu] using ht))
  | decide u changed hv hd =>
    have hends := decideTarget_ends m o host u changed s
    by_cases htu : t=u
    · subst htu
      cases hr : (decideTarget m o host t changed s).1 with
      | ok b => exact .inl (by simpa using hends.done b hr)
      | error e => exact .inr (.inl ⟨e,by simp⟩)
    · exact .inr (.inr (by simpa [hends.works.visiting,update_of_ne htu] using ht))

/-- A target that a step handles is given up, found or decided upon. -/
theorem Step.handled (hstep : Step m o host s s') (hk : o.keep=true)
    (ht : s'.Handled t) : s.Handled t ∨ ∀d,m.Needs t d→s.Seen d := by
  cases hstep with
  | skip | cycle | report => exact .inl (by simpa [State.Handled,Failed] using ht)
  | call u hd hv => exact .inl (by simpa [State.Handled,Failed,State.visit] using ht)
  | found u hv hr =>
    by_cases htu : t=u
    · refine .inr fun d hd => ?_
      simp [Makefile.Needs,Makefile.deps,htu,hr,unique] at hd
    · exact .inl (by
        simpa [State.Handled,State.current,update_of_ne htu] using ht)
  | giveUp u e hv why hseen =>
    by_cases htu : t=u
    · rw [htu]
      exact .inr (hseen hk)
    · exact .inl (by simpa [State.Handled,Failed,htu] using ht)
  | decide u changed hv hd =>
    by_cases htu : t=u
    · rw [htu]
      exact .inr fun d hdep => .inl (hd d hdep)
    have hends := decideTarget_ends m o host u changed s
    obtain ⟨block,hlog,-,hfail,-⟩ := @decideTarget_log m o host u changed s
    refine .inl (ht.imp ?_ ?_)
    · intro hdone
      rwa [State.leave_done,hends.works.done t htu] at hdone
    intro hf
    have hft := hfail t
    cases hr : (decideTarget m o host u changed s).1 with
    | ok b =>
      rw [hr,State.leave_ok_log,hlog,failed_append] at hf
      exact hf.resolve_right hft
    | error e =>
      rw [hr,State.leave_error_log,hlog,failed_append,failed_append] at hf
      refine (hf.resolve_right ?_).resolve_right hft
      simp [Failed,htu]

theorem Closed.step (hk : o.keep=true) (h : Closed m s)
    (hstep : Step m o host s s') : Closed m s' := by
  intro t ht d hd
  rcases hstep.handled hk ht with hold | hnew
  · exact hstep.seen (h t hold d hd)
  · exact hstep.seen (hnew d hd)

def NoFailure (log : List Event) : Prop := ∀t,¬ Failed log t

theorem NoRetry.append {log : List Event} (h : NoRetry log) (hb : ∀t,.enter t∉block) :
    NoRetry (log++block) := by
  intro pre post t hlog
  rcases split_append hlog with ⟨post',hl,-⟩ | ⟨pre',-,hbl⟩
  · exact h pre post' t hl
  · exact absurd (by simp [hbl]) (hb t)

theorem NoRetry.enter {log : List Event} (h : NoRetry log) (ht : ¬ Failed log t) :
    NoRetry (log++[.enter t]) := by
  intro pre post u hlog
  rcases split_append hlog with ⟨post',hl,-⟩ | ⟨pre',rfl,hbl⟩
  · exact h pre post' u hl
  cases pre' with
  | nil =>
    simp only [nil_append,cons.injEq,Event.enter.injEq] at hbl
    rw [←hbl.1,append_nil]
    exact ht
  | cons e pre' => simp at hbl

structure Stops (s : State) {α : Type} (r : Except Failure α) (s' : State) : Prop where
  noRetry : NoRetry s.log→NoFailure s.log→NoRetry s'.log
  noFailure : NoFailure s.log→∀a,r=.ok a→NoFailure s'.log
  outOfDate : r≠.error .outOfDate

theorem Stops.trans {α β : Type} {a : α} {r : Except Failure β} {s₁ : State}
    (h : Stops s (.ok a) s₁) (h' : Stops s₁ r s') : Stops s r s' where
  noRetry hn hf := h'.noRetry (h.noRetry hn hf) (h.noFailure hf a rfl)
  noFailure hf := h'.noFailure (h.noFailure hf a rfl)
  outOfDate := h'.outOfDate

theorem updateDeps_stops
    {deps : List Bytes} {changed failed : Bool} {r : Except Failure (Bool×Bool)}
    (hk : o.keep=false) (hupd : ∀dep s₁ r₁ s₂,upd dep s₁=some (r₁,s₂)→Stops s₁ r₁ s₂)
    (h : updateDeps o upd deps changed failed s=some (r,s')) : Stops s r s' := by
  induction deps generalizing changed s with
  | nil =>
    obtain ⟨rfl,rfl⟩ := h
    exact ⟨fun h _ => h,fun h _ _ => h,by simp⟩
  | cons dep deps ih =>
    simp only [updateDeps,hk] at h
    rcases hdep : upd dep s with _ | ⟨e | c,s₁⟩
    · rw [hdep] at h
      cases h
    · have hs := hupd dep s _ s₁ hdep
      rw [hdep] at h
      obtain ⟨rfl,rfl⟩ := h
      exact ⟨hs.noRetry,by simp,by simpa using hs.outOfDate⟩
    · have hs := hupd dep s _ s₁ hdep
      rw [hdep] at h
      exact hs.trans (ih h)

theorem decideTarget_stops (hq : o.question=false) (t : Bytes) (changed : Bool) (s : State) :
    Stops s (decideTarget m o host t changed s).1 (decideTarget m o host t changed s).2 := by
  obtain ⟨block,hlog,-,hfail,henter⟩ := @decideTarget_log m o host t changed s
  refine ⟨?_,?_,?_⟩
  · intro hn _
    rw [hlog]
    exact hn.append henter
  · intro hf b _ u
    rw [hlog,failed_append,not_or]
    exact ⟨hf u,hfail u⟩
  · intro he
    have hown := ((decideTarget_ends m o host t changed s).failed _ he).2.2
    simp [Failure.Own,hq] at hown

section
variable (hk : o.keep=false) (hq : o.question=false)
include hk hq

theorem updateBody_stops (hupd : ∀dep s₁ r₁ s₂,upd dep s₁=some (r₁,s₂)→Stops s₁ r₁ s₂)
    (h : updateBody m o host upd t s=some (r,s')) : Stops s r s' := by
  simp only [updateBody] at h
  split at h
  · split at h <;> obtain ⟨rfl,rfl⟩ := h <;> exact ⟨fun h _ => h,fun h _ _ => h,by simp⟩
  rcases hdeps : updateDeps o upd (m.deps t) false false s with _ | ⟨e | ⟨changed,failed⟩,s₁⟩
  · rw [hdeps] at h
    cases h
  · have hs := updateDeps_stops hk hupd hdeps
    rw [hdeps] at h
    obtain ⟨rfl,rfl⟩ := h
    exact ⟨hs.noRetry,by simp,by simpa using hs.outOfDate⟩
  · have hs := updateDeps_stops hk hupd hdeps
    rw [hdeps] at h
    simp only at h
    split at h
    · obtain ⟨rfl,rfl⟩ := h
      exact ⟨hs.noRetry,by simp,by simp⟩
    · simp only [Option.some.injEq] at h
      have hd := @decideTarget_stops m o host hq t changed s₁
      rw [h] at hd
      exact hs.trans hd

theorem update_stops {fuel : ℕ} (h : update m o host fuel t s=some (r,s')) : Stops s r s' := by
  induction fuel generalizing t s s' r with
  | zero => simp [update] at h
  | succ fuel ih =>
    rw [update_succ] at h
    have henter : NoRetry s.log→NoFailure s.log→NoRetry (s.emit (.enter t)).log :=
      fun hn hf => hn.enter (hf t)
    have hfail : NoFailure s.log→NoFailure (s.emit (.enter t)).log := by
      intro hf u
      simpa [Failed] using hf u
    split at h
    · obtain ⟨rfl,rfl⟩ := h
      exact ⟨henter,fun hf _ _ => hfail hf,by simp⟩
    split at h
    · obtain ⟨rfl,rfl⟩ := h
      refine ⟨fun hn hf => ?_,by simp,by simp⟩
      exact (henter hn hf).append (by simp)
    rcases hbody : updateBody m o host (update m o host fuel) t ((s.emit (.enter t)).visit t)
      with _ | ⟨r₁,s₁⟩
    · rw [hbody] at h
      cases h
    rw [hbody] at h
    simp only [Option.some.injEq,Prod.mk.injEq] at h
    obtain ⟨rfl,rfl⟩ := h
    have hs := updateBody_stops hk hq (fun _ _ _ _ hu => ih hu) hbody
    refine ⟨?_,?_,hs.outOfDate⟩
    · intro hn hf
      have hn₁ := hs.noRetry (henter hn hf) (hfail hf)
      cases r₁ with
      | ok b => exact hn₁
      | error e => exact hn₁.append (by simp)
    · rintro hf b rfl
      exact hs.noFailure (hfail hf) b rfl

theorem updateGoals_stops {fuel : ℕ}
    {outdated stopped outdated' : Bool} (hn : NoRetry s.log) (hf : NoFailure s.log)
    (h : updateGoals m o host fuel goals outdated s=some (stopped,outdated',s')) :
    NoRetry s'.log := by
  induction goals generalizing s with
  | nil =>
    obtain ⟨-,-,rfl⟩ := h
    exact hn
  | cons goal goals ih =>
    simp only [updateGoals,hk] at h
    split at h
    · cases h
    · rename_i b s₁ hupd
      have hs := update_stops hk hq hupd
      exact ih (hs.noRetry hn hf) (hs.noFailure hf b rfl) h
    · rename_i s₁ hupd
      exact absurd rfl (update_stops hk hq hupd).outOfDate
    · rename_i e s₁ _ hupd
      obtain ⟨-,-,rfl⟩ := h
      exact ((update_stops hk hq hupd).noRetry hn hf).append (by simp)

end

/-- With `-k` every target needed is done or has failed, by itself or with a prerequisite. -/
theorem handled_of_reachable {time : Bytes→Option ℕ}
    (hk : o.keep=true) (hret : GoalsReturn m o host { time := time } goals s') :
    (∀g∈goals,∀t,Relation.ReflTransGen m.Needs g t→s'.Handled t) ∧
      ∀t e,.fail t e∈s'.log→e.Own o t ∨ ∃d,m.Needs t d ∧ Failed s'.log d := by
  have hidle : ∀t,s'.visiting t=false := fun t => by rw [hret.visiting]
  have hclosed : Closed m s' := by
    refine hret.steps.keeps (fun h hstep => h.step hk hstep) ?_
    rintro t (ht | ⟨e,he⟩)
    · cases ht
    · cases he
  have hexplained : Explained m o s' := by
    refine hret.steps.keeps (fun h hstep => h.step hstep) ?_
    intro t e he
    cases he
  have hhandled : ∀{t},s'.Seen t→s'.Handled t := by
    rintro t (ht | ht | ht)
    · exact .inl ht
    · exact .inr ht
    · rw [hidle] at ht
      cases ht
  constructor
  · intro g hg t hgt
    induction hgt with
    | refl => exact hhandled (hret.seen hk g hg)
    | tail _ hdep ih => exact hhandled (hclosed _ ih _ hdep)
  · intro t e he
    refine (hexplained t e he).imp_right ?_
    rintro ⟨d,hd,hf | hc⟩
    · exact ⟨d,hd,hf⟩
    · rcases hret.cycle d hc with hc | hf
      · cases hc
      · exact ⟨d,hd,hf⟩

end

/-- A run that starts recipes, with or without `-k`: the goal loop ends; unless a target is asked
for again after it has failed, which never happens without `-k`, the log is orderly; acyclic rules
meet no cycle; and with `-k` every target that a goal needs and none of whose prerequisites, direct
or indirect, has failed is brought up to date, or fails by itself. -/
theorem makeGoals_orderly (m : Makefile) (host : Host) (keep silent ignore : Bool)
    (time : Bytes→Option ℕ) (goals : List Bytes) :
    ∃stopped outdated s,makeGoals m { keep := keep,silent := silent,ignore := ignore } host
        time goals=some (stopped,outdated,s) ∧
      (keep=false→NoRetry s.log) ∧
      (NoRetry s.log→Orderly m s.log) ∧
      ((∀t,¬ Relation.TransGen m.Needs t t)→∀t,.cycle t∉s.log) ∧
      (keep=true→∀g∈goals,∀t,Relation.ReflTransGen m.Needs g t→
        (∀u,Relation.TransGen m.Needs t u→¬ Failed s.log u)→
        s.done t=true ∨ .fail t (.noRule t)∈s.log ∨ ∃err,.fail t (.recipe t err)∈s.log) := by
  generalize ho : ({ keep := keep,silent := silent,ignore := ignore } : Options)=o
  have hruns : o.Runs := by
    subst ho
    exact ⟨rfl,rfl,rfl⟩
  have hkeep : o.keep=keep := by rw [←ho]
  obtain ⟨⟨stopped,outdated,s⟩,hs⟩ : ∃r,makeGoals m o host time goals=some r :=
    updateGoals_total (by simp [Makefile.fuel]) (by simp)
  have hret : GoalsReturn m o host { time := time } goals s := updateGoals_returns (by simp) hs
  refine ⟨stopped,outdated,s,hs,?_,?_,?_,?_⟩
  · intro hk
    refine updateGoals_stops (hkeep.trans hk) hruns.2.1 ?_ ?_ hs
    · intro pre post t hlog
      simp at hlog
    · rintro t ⟨e,he⟩
      cases he
  · exact (hret.steps.keeps (P := Sound m) (.step hruns) (.initial m time)).orderly
  · intro hacyclic t hc
    exact hacyclic t (hret.steps.cycle (by simp) t hc)
  · intro hk g hg t hgt hbelow
    obtain ⟨hhandled,hwhy⟩ := handled_of_reachable (hkeep.trans hk) hret
    rcases hhandled g hg t hgt with hd | ⟨e,he⟩
    · exact .inl hd
    rcases hwhy t e he with hown | ⟨d,hd,hf⟩
    · cases e with
      | noRule u =>
        cases hown
        exact .inr (.inl he)
      | recipe u err =>
        cases hown
        exact .inr (.inr ⟨err,he⟩)
      | cycle | notRemade => cases hown
      | touch err =>
        rw [Failure.Own,hruns.2.2] at hown
        cases hown
      | outOfDate =>
        rw [Failure.Own,hruns.2.1] at hown
        cases hown
    · exact absurd hf (hbelow d (.single hd))

def sharedFailure : Makefile where
  rules := [(ascii "all",{ deps := [ascii "a",ascii "b"] }),
    (ascii "a",{ deps := [ascii "c"],recipes := [ascii "touch a"] }),
    (ascii "b",{ deps := [ascii "c"],recipes := [ascii "touch b"] }),
    (ascii "c",{ recipes := [ascii "false"] })]

def failingHost : Host where
  shell _ _ _ := { err := some (ascii "exit status 1") }
  touch _ _ := .ok 0

/-- With `-k`, the recipe of the shared prerequisite is started twice. -/
theorem not_makeGoals_orderly : ¬ ∀(m : Makefile) (host : Host) (keep silent ignore : Bool)
    (time : Bytes→Option ℕ) (goals : List Bytes),∃stopped outdated s,
      makeGoals m { keep := keep,silent := silent,ignore := ignore } host time goals =
        some (stopped,outdated,s) ∧ Orderly m s.log := by
  intro h
  obtain ⟨stopped,outdated,s,hs,hord⟩ :=
    h sharedFailure failingHost true false false (fun _ => none) [ascii "all"]
  have hstarted : (makeGoals sharedFailure { keep := true } failingHost (fun _ => none)
      [ascii "all"]).map (fun r => started r.2.2.log)=some [ascii "c",ascii "c"] := by
    decide
  rw [hs,Option.map_some,Option.some.injEq] at hstarted
  have honce := hord.once
  rw [hstarted] at honce
  revert honce
  decide

end Coreutils.MakeEngine
