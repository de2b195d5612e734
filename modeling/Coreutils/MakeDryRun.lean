import Coreutils.MakeOrder

/-!
# make -n predicts and does not act

Without recipe lines that begin with `+`, a run with `-n` starts no command. It changes no file
either, except that `-t` does not look at `-n`: a target with a recipe that is out of date is
touched. Without `-t` and `-q` it prints the commands that the run without `-n` starts: both go
through the same calls with the same marks, and where the file times differ the target is marked as
made, which counts as much as a newer file.
-/

namespace Coreutils.MakeEngine
open Function List GoText

def command (line : Bytes) : Bytes := (prefixes false false false line).2.2.2

def printed (log : List Event) : List Bytes :=
  log.filterMap fun
    | .out line => some line
    | _ => none

def handed (log : List Event) : List Bytes :=
  log.filterMap fun
    | .start _ args => args.getLast?
    | _ => none

/-- No recipe line begins with `+`, before or after its expansion. -/
def Makefile.NoPlus (m : Makefile) : Prop :=
  ∀r∈m.rules,∀line∈r.2.recipes,
    hasPlusPrefix line=false ∧ ∀a,hasPlusPrefix (m.expand line a)=false

structure Idle (time : Bytes→Option ℕ) (s : State) : Prop where
  time : s.time=time
  start : ∀t args,.start t args∉s.log
  touch : ∀t,.touch t∉s.log

/-- A target with a recipe was out of date when its prerequisites were settled. -/
def OutOfDate (m : Makefile) (log : List Event) : Prop :=
  ∃t now,.settle t now∈log ∧ m.recipes t≠[] ∧ m.Needed t now

theorem prefixes_command (silent ignore force : Bool) (line : Bytes) :
    (prefixes silent ignore force line).2.2.2=command line := by
  suffices h : ∀s i f s' i' f',(prefixes s i f line).2.2.2=(prefixes s' i' f' line).2.2.2 from
    h _ _ _ _ _ _
  induction line with
  | nil => simp [prefixes]
  | cons c line ih =>
    intro s i f s' i' f'
    simp only [prefixes]
    split
    · exact ih ..
    split
    · exact ih ..
    split
    · exact ih ..
    · rfl

theorem prefixes_force {line : Bytes} (h : hasPlusPrefix line=false) (silent ignore : Bool) :
    (prefixes silent ignore false line).2.2.1=false := by
  induction line generalizing silent ignore with
  | nil => rfl
  | cons c line ih =>
    simp only [hasPlusPrefix] at h
    simp only [prefixes]
    split
    · rename_i hc
      rw [if_pos (.inl hc)] at h
      exact ih h _ _
    split
    · rename_i hc
      rw [if_pos (.inr hc)] at h
      exact ih h _ _
    split
    · simp_all
    · rfl

theorem mem_recipes {m : Makefile} {t line : Bytes} (h : line∈m.recipes t) :
    ∃r∈m.rules,line∈r.2.recipes := by
  suffices hf : ∀(rules : List Rule) (recipes : List Bytes),(∀r∈rules,∃p∈m.rules,p.2=r)→
      line∈rules.foldl (fun recipes r => if r.recipes≠[] then r.recipes else recipes) recipes→
      line∈recipes ∨ ∃r∈m.rules,line∈r.2.recipes by
    refine (hf (m.rulesOf t) [] ?_ h).resolve_left (by simp)
    intro r hr
    obtain ⟨p,hp,hpr⟩ := mem_map.mp hr
    exact ⟨p,(mem_filter.mp hp).1,hpr⟩
  intro rules
  induction rules with
  | nil => exact fun _ _ h => .inl h
  | cons r rules ih =>
    intro recipes hrules hmem
    rw [foldl_cons] at hmem
    rcases ih _ (fun r hr => hrules r (by simp [hr])) hmem with hline | hline
    · split at hline
      · obtain ⟨p,hp,rfl⟩ := hrules r (by simp)
        exact .inr ⟨p,hp,hline⟩
      · exact .inl hline
    · exact .inr hline

section
variable {m : Makefile} {o : Options} {host : Host} {s : State} {t : Bytes}
  {time : Bytes→Option ℕ}

theorem recipe_dry (hd : o.dry=true) {line : Bytes} (hp : hasPlusPrefix line=false)
    (special : Bool) : recipe m o host t line special s =
      (none,{ s.emit (.out (command line)) with action := true }) := by
  have hc := prefixes_command (o.silent || m.silent [] || m.silent t)
    (o.ignore || m.ignore [] || m.ignore t) false line
  have hf := prefixes_force hp (o.silent || m.silent [] || m.silent t)
    (o.ignore || m.ignore [] || m.ignore t)
  simp only [recipe]
  rcases hpre : prefixes (o.silent || m.silent [] || m.silent t)
    (o.ignore || m.ignore [] || m.ignore t) false line with ⟨silent,ignore,force,line'⟩
  rw [hpre] at hc hf
  simp only at hc hf
  simp [hd,hc,hf]

structure Prints (lines : List Bytes) (s s' : State) : Prop where
  visiting : s'.visiting=s.visiting
  done : s'.done=s.done
  made : s'.made=s.made
  time : s'.time=s.time
  log : s'.log=s.log++lines.map .out

theorem recipeLines_dry (hd : o.dry=true) (a : Automatic) (special : Bool) {lines : List Bytes}
    (hp : ∀line∈lines,hasPlusPrefix (m.expand line a)=false) (s : State) :
    ∃s',recipeLines m o host t a special lines s=(none,s') ∧
      Prints (lines.map fun line => command (m.expand line a)) s s' := by
  induction lines generalizing s with
  | nil => exact ⟨s,rfl,rfl,rfl,rfl,rfl,by simp⟩
  | cons line lines ih =>
    simp only [recipeLines,recipe_dry hd (hp line (by simp))]
    obtain ⟨s',hs',hprints⟩ := ih (fun l hl => hp l (by simp [hl]))
      { s.emit (.out (command (m.expand line a))) with action := true }
    refine ⟨s',hs',hprints.visiting,hprints.done,hprints.made,hprints.time,?_⟩
    rw [hprints.log]
    simp

theorem recipe_real (hd : o.dry=false) (hok : ∀log t args,(host.shell log t args).err=none)
    (line : Bytes) (s : State) : (recipe m o host t line false s).1=none ∧
      handed (recipe m o host t line false s).2.log=handed s.log++[command line] := by
  have hc := prefixes_command (o.silent || m.silent [] || m.silent t)
    (o.ignore || m.ignore [] || m.ignore t) false line
  simp only [recipe]
  rcases hpre : prefixes (o.silent || m.silent [] || m.silent t)
    (o.ignore || m.ignore [] || m.ignore t) false line with ⟨silent,ignore,force,line'⟩
  rw [hpre] at hc
  have hargs : (shellArgs ignore line').getLast?=some line' := by cases ignore <;> rfl
  rw [←hc]
  have hquiet : handed (if !silent || o.dry then s.emit (.out line') else s).log =
      handed s.log := by
    split
    · simp [handed]
    · rfl
  revert hquiet
  generalize (if !silent || o.dry then s.emit (.out line') else s)=s₁
  intro hquiet
  simp only [hd,Bool.or_self,Bool.false_and,Bool.false_eq_true,if_false,runCommand,hok]
  refine ⟨trivial,?_⟩
  rw [←hquiet]
  cases (host.shell s₁.log t (shellArgs ignore line')).time with
  | none => simp [handed,hargs]
  | some time => simp [handed,hargs,State.setTime]

theorem recipeLines_real (hd : o.dry=false)
    (hok : ∀log t args,(host.shell log t args).err=none) (a : Automatic) (lines : List Bytes)
    (s : State) : ∃s',recipeLines m o host t a false lines s=(none,s') ∧ Lines t s s' ∧
      handed s'.log=handed s.log++lines.map fun line => command (m.expand line a) := by
  induction lines generalizing s with
  | nil => exact ⟨s,rfl,Lines.refl t s,by simp⟩
  | cons line lines ih =>
    have hr := @recipe_real m o host t hd hok (m.expand line a) s
    have hl := (recipe_lines m o host t (m.expand line a) false s).1
    rcases hrec : recipe m o host t (m.expand line a) false s with ⟨f,s₁⟩
    rw [hrec] at hr hl
    obtain ⟨rfl,hhanded⟩ := hr
    obtain ⟨s',hs',hlines,hrest⟩ := ih s₁
    refine ⟨s',by simp only [recipeLines,hrec]; exact hs',hl.trans hlines,?_⟩
    rw [hrest,hhanded]
    simp

theorem decideTarget_current (hn : ¬ m.Needed t s.now) (changed : Bool) :
    decideTarget m o host t changed s=(.ok false,(s.emit (.settle t s.now)).current t) := by
  rw [decideTarget_eq,if_neg (mt (needed_iff t changed s).mp hn)]

theorem Makefile.NoPlus.filter (hm : m.NoPlus) (t : Bytes) :
    (m.recipes t).filter hasPlusPrefix=[] := by
  apply filter_eq_nil_iff.mpr
  intro line hline
  obtain ⟨r,hr,hmem⟩ := mem_recipes hline
  simp [(hm r hr line hmem).1]

theorem Makefile.NoPlus.expand (hm : m.NoPlus) (t : Bytes) (a : Automatic) :
    ∀line∈m.recipes t,hasPlusPrefix (m.expand line a)=false := by
  intro line hline
  obtain ⟨r,hr,hmem⟩ := mem_recipes hline
  exact (hm r hr line hmem).2 a

/-- A decision with `-n` that does not touch the target only prints. -/
theorem remake_dry_idle (hm : m.NoPlus) (hd : o.dry=true) (h : Idle time s) (newer : List Bytes)
    (hno : ¬ (o.touch=true ∧ o.question=false ∧ m.recipes t≠[])) :
    Idle time (remake m o host t newer s).2 := by
  simp only [remake,hm.filter]
  by_cases hq : o.question=true
  · rw [if_pos hq]
    exact h
  rw [if_neg hq]
  by_cases hr : m.recipes t=[]
  · have hs : Idle time (s.remade t) := ⟨h.time,h.start,h.touch⟩
    split
    · exact hs
    · exact hs
  · have ht : ¬ o.touch=true := fun ht => hno ⟨ht,by simpa using hq,hr⟩
    rw [if_neg ht,if_neg hr]
    obtain ⟨s',hs',hprints⟩ := @recipeLines_dry m o host t hd (automatic m t newer) false _
      (hm.expand t _) (s.emit (.recipe t))
    rw [hs']
    refine ⟨hprints.time.trans h.time,?_,?_⟩
    · intro u args hu
      have hu : .start u args∈s'.log := hu
      simp [hprints.log,h.start u args] at hu
    · intro u hu
      have hu : .touch u∈s'.log := hu
      simp [hprints.log,h.touch u] at hu

/-- With `-t` a target with a recipe that must be remade is touched. -/
theorem remake_touches (hm : m.NoPlus) (ht : o.touch=true) (hq : o.question=false)
    (hr : m.recipes t≠[]) (newer : List Bytes) (s : State) :
    .touch t∈(remake m o host t newer s).2.log := by
  simp only [remake,hq,ht,hm.filter,recipeLines,hr,touchFile,Bool.false_eq_true,if_false,if_true]
  cases host.touch s.log t with
  | error err => simp
  | ok time =>
    simp only
    split
    · simp [State.remade,State.setTime]
    · simp [State.remade,State.setTime]

/-- Where the dry run stands: it has touched a file exactly if it had to with `-t`. -/
structure DryInv (m : Makefile) (o : Options) (time : Bytes→Option ℕ) (s : State) : Prop where
  idle : ¬ (o.touch=true ∧ o.question=false ∧ OutOfDate m s.log)→Idle time s
  acts : o.touch=true → o.question=false→OutOfDate m s.log→∃t,.touch t∈s.log

def Event.OfCall : Event→Prop
  | enter _ | cycle _ | fail _ _ | err _ => True
  | _ => False

theorem DryInv.log_append {s' : State} {block : List Event}
    (h : DryInv m o time s) (ht : s'.time=s.time) (hlog : s'.log=s.log++block)
    (hb : ∀e∈block,e.OfCall) : DryInv m o time s' := by
  have hold : ∀e : Event,¬ e.OfCall→e∈s'.log→e∈s.log := by
    intro e he hmem
    rw [hlog] at hmem
    exact (mem_append.mp hmem).resolve_right fun hmem => he (hb e hmem)
  have hiff : OutOfDate m s'.log ↔ OutOfDate m s.log := by
    constructor
    · rintro ⟨t,now,hmem,hn⟩
      exact ⟨t,now,hold _ (by simp [Event.OfCall]) hmem,hn⟩
    · rintro ⟨t,now,hmem,hn⟩
      exact ⟨t,now,by simp [hlog,hmem],hn⟩
  refine ⟨?_,?_⟩
  · rw [hiff]
    intro hno
    obtain ⟨hi,hs,hu⟩ := h.idle hno
    refine ⟨ht.trans hi,?_,?_⟩
    · exact fun t args hmem => hs t args (hold _ (by simp [Event.OfCall]) hmem)
    · exact fun t hmem => hu t (hold _ (by simp [Event.OfCall]) hmem)
  · rw [hiff]
    intro h₁ h₂ h₃
    obtain ⟨t,ht⟩ := h.acts h₁ h₂ h₃
    exact ⟨t,by simp [hlog,ht]⟩

theorem DryInv.decide (hm : m.NoPlus) (hd : o.dry=true) (h : DryInv m o time s) (changed : Bool) :
    DryInv m o time (decideTarget m o host t changed s).2 := by
  obtain ⟨body,hlog,hbody⟩ := (decideTarget_ends m o host t changed s).works.log
  have hmem : ∀e∈s.log,e∈(decideTarget m o host t changed s).2.log := by
    intro e he
    rw [hlog]
    simp [he]
  -- what is out of date was so before, or is `t`
  have hout : OutOfDate m (decideTarget m o host t changed s).2.log ↔
      OutOfDate m s.log ∨ m.recipes t≠[] ∧ m.Needed t s.now := by
    constructor
    · rintro ⟨u,now,hu,hn⟩
      rw [hlog] at hu
      rcases mem_append.mp hu with hu | hu
      · rcases mem_append.mp hu with hu | hu
        · exact .inl ⟨u,now,hu,hn⟩
        · simp only [mem_singleton] at hu
          obtain ⟨rfl,rfl⟩ := hu
          exact .inr hn
      · rcases hbody _ hu with h | h
        · cases h
        · cases h
    · rintro (⟨u,now,hu,hn⟩ | hn)
      · exact ⟨u,now,hmem _ hu,hn⟩
      · exact ⟨t,s.now,by rw [hlog]; simp,hn⟩
  have hsettle : ∀{time},Idle time s→Idle time (s.emit (.settle t s.now)) :=
    fun h => ⟨h.time,fun u args => by simpa using h.start u args,fun u => by simpa using h.touch u⟩
  refine ⟨?_,?_⟩
  · rw [hout]
    intro hno
    have hs := hsettle (h.idle fun ⟨h₁,h₂,h₃⟩ => hno ⟨h₁,h₂,.inl h₃⟩)
    by_cases hn : m.Needed t s.now
    · rw [decideTarget_eq,if_pos ((needed_iff t changed s).mpr hn)]
      exact remake_dry_idle hm hd hs _ fun ⟨h₁,h₂,h₃⟩ => hno ⟨h₁,h₂,.inr ⟨h₃,hn⟩⟩
    · rw [decideTarget_current hn]
      exact ⟨hs.time,hs.start,hs.touch⟩
  · rw [hout]
    rintro h₁ h₂ (h₃ | ⟨hr,hn⟩)
    · obtain ⟨u,hu⟩ := h.acts h₁ h₂ h₃
      exact ⟨u,hmem _ hu⟩
    · refine ⟨t,?_⟩
      rw [decideTarget_eq,if_pos ((needed_iff t changed s).mpr hn)]
      exact remake_touches hm h₁ h₂ hr _ _

theorem DryInv.step {s' : State} (hm : m.NoPlus) (hd : o.dry=true)
    (h : DryInv m o time s) (hstep : Step m o host s s') : DryInv m o time s' := by
  cases hstep with
  | skip | call | giveUp | report => exact h.log_append rfl rfl (by simp [Event.OfCall])
  | cycle t hv hc => exact h.log_append rfl (append_assoc _ _ _) (by simp [Event.OfCall])
  | found t hv hr => exact h.log_append rfl (append_nil _).symm (by simp)
  | decide t changed hv hdeps =>
    have hdec := @DryInv.decide m o host s t time hm hd h changed
    cases (decideTarget m o host t changed s).1 with
    | ok b => exact hdec.log_append (by simp) (append_nil _).symm (by simp)
    | error e => exact hdec.log_append (by simp) rfl (by simp [Event.OfCall])

def Options.real (o : Options) : Options := { o with dry := false }

/-- Runs with and without `-n` have the same marks; times differ only where a target was made. -/
structure Agree (sd sr : State) : Prop where
  visiting : sd.visiting=sr.visiting
  done : sd.done=sr.done
  made : sd.made=sr.made
  apart : ∀t,sr.visiting t=true→sr.done t=false
  made_done : ∀t,sr.made t=true→sr.done t=true
  time : ∀t,sr.made t=false→sd.time t=sr.time t
  output : printed sd.log=handed sr.log

theorem printed_append (log block : List Event) :
    printed (log++block)=printed log++printed block := filterMap_append

theorem handed_append (log block : List Event) :
    handed (log++block)=handed log++handed block := filterMap_append

theorem printed_out (lines : List Bytes) : printed (lines.map .out)=lines := by simp [printed]

namespace Agree
variable {sd sr : State}

section
variable (h : Agree sd sr)
include h

theorem unmade (ht : sr.visiting t=true) : sr.made t=false := by
  cases hm : sr.made t with
  | false => rfl
  | true =>
    have hd := h.made_done t hm
    rw [h.apart t ht] at hd
    cases hd

/-- Both runs log something that is neither printed nor handed to the shell. -/
theorem emit {e e' : Event} (hp : printed [e]=[]) (hh : handed [e']=[]) :
    Agree (sd.emit e) (sr.emit e') :=
  { h with
    output := by rw [State.emit_log,State.emit_log,printed_append,handed_append,hp,hh,h.output] }

theorem report (line : Bytes) : Agree { sd.emit (.err line) with failed := true }
      { sr.emit (.err line) with failed := true } := by
  have hs : Agree (sd.emit (.err line)) (sr.emit (.err line)) := h.emit rfl rfl
  exact { hs with }

theorem visit (hd : sr.done t=false) : Agree (sd.visit t) (sr.visit t) :=
  { h with
    visiting := by simp [State.visit,h.visiting]
    apart := by
      intro u hu
      by_cases hut : u=t
      · rw [hut]
        exact hd
      · exact h.apart u (by simpa [State.visit,update_of_ne hut] using hu) }

theorem leave_error (e : Failure) : Agree (sd.leave t (.error e)) (sr.leave t (.error e)) where
  visiting := by simp [h.visiting]
  done := by simp [h.done]
  made := by simp [h.made]
  apart u hu := by
    by_cases hut : u=t
    · simp [hut] at hu
    · exact h.apart u (by simpa [update_of_ne hut] using hu)
  made_done u := by simpa using h.made_done u
  time u := by simpa using h.time u
  output := by
    simp only [State.leave_error_log,printed_append,handed_append,h.output]
    rfl

/-- Both runs mark the target; only its own time may now differ, and only if it was made. -/
theorem finish {sd' sr' : State} {b : Bool} (hv : sd'.visiting=sd.visiting)
    (hvr : sr'.visiting=sr.visiting) (hd : sd'.done=Function.update sd.done t true)
    (hdr : sr'.done=Function.update sr.done t true) (hm : sd'.made=sr'.made)
    (hmu : ∀u,u≠t→sr'.made u=sr.made u) (ht : ∀u,u≠t→sd'.time u=sd.time u)
    (htr : ∀u,u≠t→sr'.time u=sr.time u) (hsame : sr'.made t=false→sd'.time t=sr'.time t)
    (hout : printed sd'.log=handed sr'.log) :
    Agree (sd'.leave t (.ok b)) (sr'.leave t (.ok b)) where
  visiting := by simp [hv,hvr,h.visiting]
  done := by simp [hd,hdr,h.done]
  made := by simp [hm]
  apart u hu := by
    by_cases hut : u=t
    · simp [hut] at hu
    · rw [State.leave_done,hdr,update_of_ne hut]
      exact h.apart u (by simpa [hvr,update_of_ne hut] using hu)
  made_done u hu := by
    rw [State.leave_made] at hu
    rw [State.leave_done,hdr]
    by_cases hut : u=t
    · rw [hut,update_self]
    · rw [update_of_ne hut]
      exact h.made_done u (by rw [←hmu u hut,hu])
  time u hu := by
    rw [State.leave_made] at hu
    rw [State.leave_time,State.leave_time]
    by_cases hut : u=t
    · subst hut
      exact hsame hu
    · rw [ht u hut,htr u hut]
      exact h.time u (by rw [←hmu u hut,hu])
  output := hout

end

/-- Both runs make the same decision and hand to the shell what they print. -/
theorem decide (hm : m.NoPlus) (hok : ∀log t args,(host.shell log t args).err=none)
    (hdry : o.dry=true) (hq : o.question=false) (ht : o.touch=false) (changed : Bool)
    (h : Agree sd sr) (hv : sr.visiting t=true) :
    ∃b sd' sr',decideTarget m o host t changed sd=(.ok b,sd') ∧
      decideTarget m o.real host t changed sr=(.ok b,sr') ∧
      Agree (sd'.leave t (.ok b)) (sr'.leave t (.ok b)) := by
  have hunmade := h.unmade hv
  have htime : sd.time t=sr.time t := h.time t hunmade
  -- a prerequisite forces the update in both runs, by its mark or by its time
  have hforces : ∀d,sd.now.forces t d=sr.now.forces t d := by
    intro d
    simp only [Moment.forces,State.now,h.made]
    cases hmd : sr.made d with
    | true => simp
    | false => simp [Moment.newerThan,htime,h.time d hmd]
  have hexamine : examine sd.now t (m.deps t) (sd.time t).isNone [] =
      examine sr.now t (m.deps t) (sr.time t).isNone [] := by
    have hfun : sd.now.forces t=sr.now.forces t := funext hforces
    rw [examine_deps,examine_deps,htime,hfun]
  have hs : Agree (sd.emit (.settle t sd.now)) (sr.emit (.settle t sr.now)) := h.emit rfl rfl
  rw [decideTarget_eq,decideTarget_eq,hexamine,htime]
  generalize examine sr.now t (m.deps t) (sr.time t).isNone []=x
  split
  · have hqr : o.real.question=false := hq
    have htr : o.real.touch=false := ht
    simp only [remake,hq,ht,hqr,htr]
    by_cases hr : m.recipes t=[]
    · refine ⟨true,_,_,if_pos hr,if_pos hr,hs.finish rfl rfl rfl rfl ?_ ?_ ?_ ?_ ?_ ?_⟩
      · simp only [State.remade,hs.made]
      · exact fun u hu => update_of_ne hu _ _
      · exact fun _ _ => rfl
      · exact fun _ _ => rfl
      · simp [State.remade]
      · exact hs.output
    · rw [if_neg hr,if_neg hr]
      obtain ⟨sd',hsd',hprints⟩ := @recipeLines_dry m o host t hdry (automatic m t x.2) false
        _ (hm.expand t _) ((sd.emit (.settle t sd.now)).emit (.recipe t))
      obtain ⟨sr',hsr',hlines,hhanded⟩ := @recipeLines_real m o.real host t rfl hok
        (automatic m t x.2) (m.recipes t) ((sr.emit (.settle t sr.now)).emit (.recipe t))
      rw [hsd',hsr']
      have hs' : Agree ((sd.emit (.settle t sd.now)).emit (.recipe t))
          ((sr.emit (.settle t sr.now)).emit (.recipe t)) := hs.emit rfl rfl
      refine ⟨true,_,_,rfl,rfl,hs'.finish hprints.visiting hlines.visiting ?_ ?_ ?_ ?_ ?_ ?_ ?_ ?_⟩
      · simp [State.remade,hprints.done]
      · simp [State.remade,hlines.done]
      · simp only [State.remade,hprints.made,hlines.made,hs'.made]
      · intro u hu
        simp [State.remade,update_of_ne hu,hlines.made]
      · exact fun u _ => congrFun hprints.time u
      · exact fun u hu => hlines.time u hu
      · simp [State.remade]
      · show printed sd'.log=handed sr'.log
        rw [hprints.log,hhanded,printed_append,printed_out,hs'.output]
  · refine ⟨false,_,_,rfl,rfl,hs.finish rfl rfl rfl rfl ?_ ?_ ?_ ?_ ?_ ?_⟩
    · exact hs.made
    · exact fun _ _ => rfl
    · exact fun _ _ => rfl
    · exact fun _ _ => rfl
    · exact fun _ => htime
    · exact hs.output

end Agree

def Agrees (upd upr : Bytes→State→Option (Except Failure Bool×State)) : Prop :=
  ∀t sd sr r sd',Agree sd sr→upd t sd=some (r,sd')→
    sd'.visiting=sd.visiting ∧ ∃sr',upr t sr=some (r,sr') ∧ Agree sd' sr'

variable {upd upr : Bytes→State→Option (Except Failure Bool×State)} {sd sr sd' : State}

theorem updateDeps_agrees (hupd : Agrees upd upr) {deps : List Bytes} {changed failed : Bool}
    {r : Except Failure (Bool×Bool)} (h : Agree sd sr)
    (hu : updateDeps o upd deps changed failed sd=some (r,sd')) : sd'.visiting=sd.visiting ∧
      ∃sr',updateDeps o.real upr deps changed failed sr=some (r,sr') ∧ Agree sd' sr' := by
  induction deps generalizing changed failed sd sr with
  | nil =>
    obtain ⟨rfl,rfl⟩ := hu
    exact ⟨rfl,sr,rfl,h⟩
  | cons dep deps ih =>
    simp only [updateDeps] at hu
    rcases hdep : upd dep sd with _ | ⟨r₁,sd₁⟩
    · rw [hdep] at hu
      cases hu
    rw [hdep] at hu
    obtain ⟨hv,sr₁,hsr₁,h₁⟩ := hupd dep sd sr r₁ sd₁ h hdep
    simp only [updateDeps,hsr₁]
    cases r₁ with
    | ok c =>
      obtain ⟨hv',hrest⟩ := ih h₁ hu
      exact ⟨hv'.trans hv,hrest⟩
    | error e =>
      simp only at hu
      by_cases hk : o.keep=true
      · rw [if_pos hk] at hu
        obtain ⟨hv',sr',hsr',h'⟩ := ih (h₁.report (ascii "make: " ++ e.text)) hu
        refine ⟨hv'.trans hv,sr',?_,h'⟩
        simp only [Options.real,hk] at hsr' ⊢
        exact hsr'
      · rw [if_neg hk] at hu
        obtain ⟨rfl,rfl⟩ := hu
        exact ⟨hv,sr₁,by simp [Options.real,hk],h₁⟩

section
variable (hm : m.NoPlus) (hok : ∀log t args,(host.shell log t args).err=none)
  (hdry : o.dry=true) (hq : o.question=false) (ht : o.touch=false)
include hm hok hdry hq ht

theorem updateBody_agrees (hupd : Agrees upd upr) {r : Except Failure Bool} (h : Agree sd sr)
    (hv : sr.visiting t=true) (hu : updateBody m o host upd t sd=some (r,sd')) :
    sd'.visiting=sd.visiting ∧ ∃sr',updateBody m o.real host upr t sr=some (r,sr') ∧
      Agree (sd'.leave t r) (sr'.leave t r) := by
  have htime : sd.time t=sr.time t := h.time t (h.unmade hv)
  simp only [updateBody] at hu ⊢
  by_cases hrules : m.rulesOf t=[]
  · rw [if_pos hrules] at hu ⊢
    rw [htime] at hu
    by_cases hsome : (sr.time t).isSome=true
    · rw [if_pos hsome] at hu ⊢
      obtain ⟨rfl,rfl⟩ := hu
      refine ⟨rfl,_,rfl,h.finish rfl rfl rfl rfl h.made ?_ ?_ ?_ ?_ h.output⟩
      · exact fun _ _ => rfl
      · exact fun _ _ => rfl
      · exact fun _ _ => rfl
      · exact fun _ => htime
    · rw [if_neg hsome] at hu ⊢
      obtain ⟨rfl,rfl⟩ := hu
      exact ⟨rfl,_,rfl,h.leave_error _⟩
  rw [if_neg hrules] at hu ⊢
  rcases hdeps : updateDeps o upd (m.deps t) false false sd with _ | ⟨rd,sd₁⟩
  · rw [hdeps] at hu
    cases hu
  obtain ⟨hv₁,sr₁,hsr₁,h₁⟩ := updateDeps_agrees hupd h hdeps
  have hvt : sr₁.visiting t=true := by rw [←h₁.visiting,hv₁,h.visiting,hv]
  rw [hdeps] at hu
  rw [hsr₁]
  rcases rd with e | ⟨changed,_ | _⟩
  · obtain ⟨rfl,rfl⟩ := hu
    exact ⟨hv₁,sr₁,rfl,h₁.leave_error e⟩
  · simp only [Bool.false_eq_true,if_false,Option.some.injEq] at hu
    obtain ⟨b,sd₂,sr₂,hsd₂,hsr₂,h₂⟩ := h₁.decide hm hok hdry hq ht changed hvt
    have hends := decideTarget_ends m o host t changed sd₁
    rw [hu] at hends
    rw [hsd₂] at hu
    obtain ⟨rfl,rfl⟩ := hu
    refine ⟨hends.works.visiting.trans hv₁,sr₂,?_,h₂⟩
    simp [hsr₂]
  · obtain ⟨rfl,rfl⟩ := hu
    exact ⟨hv₁,sr₁,rfl,h₁.leave_error _⟩

theorem update_agrees (fuel : ℕ) : Agrees (update m o host fuel) (update m o.real host fuel) := by
  induction fuel with
  | zero =>
    intro t sd sr r sd' _ hu
    simp [update] at hu
  | succ fuel ih =>
    intro t sd sr r sd' h hu
    have henter : Agree (sd.emit (.enter t)) (sr.emit (.enter t)) := h.emit rfl rfl
    rw [update_succ] at hu ⊢
    rw [h.done,h.visiting,h.made] at hu
    by_cases hd : sr.done t=true
    · rw [if_pos hd] at hu ⊢
      obtain ⟨rfl,rfl⟩ := hu
      exact ⟨rfl,_,rfl,henter⟩
    rw [if_neg hd] at hu ⊢
    by_cases hv : sr.visiting t=true
    · rw [if_pos hv] at hu ⊢
      obtain ⟨rfl,rfl⟩ := hu
      exact ⟨rfl,_,rfl,henter.emit rfl rfl⟩
    rw [if_neg hv] at hu ⊢
    rcases hbody : updateBody m o host (update m o host fuel) t ((sd.emit (.enter t)).visit t)
    · rw [hbody] at hu
      cases hu
    rw [hbody] at hu
    obtain ⟨rfl,rfl⟩ := hu
    have hvisit := henter.visit (by simpa using hd)
    obtain ⟨hv₁,sr₁,hsr₁,h₁⟩ :=
      updateBody_agrees hm hok hdry hq ht ih hvisit (by simp [State.visit]) hbody
    rw [hsr₁]
    refine ⟨?_,_,rfl,h₁⟩
    exact visit_leave_visiting (by simpa [h.visiting] using hv) hv₁

theorem updateGoals_agrees (fuel : ℕ) {goals : List Bytes} {outdated stopped outdated' : Bool}
    (h : Agree sd sr)
    (hu : updateGoals m o host fuel goals outdated sd=some (stopped,outdated',sd')) :
    ∃sr',updateGoals m o.real host fuel goals outdated sr=some (stopped,outdated',sr') ∧
      Agree sd' sr' := by
  induction goals generalizing outdated sd sr with
  | nil =>
    obtain ⟨rfl,rfl,rfl⟩ := hu
    exact ⟨sr,rfl,h⟩
  | cons goal goals ih =>
    simp only [updateGoals] at hu ⊢
    rcases hgoal : update m o host fuel goal sd with _ | ⟨r,sd₁⟩
    · rw [hgoal] at hu
      cases hu
    obtain ⟨-,sr₁,hsr₁,h₁⟩ := update_agrees hm hok hdry hq ht fuel goal sd sr r sd₁ h hgoal
    rw [hgoal] at hu
    rw [hsr₁]
    -- a failure is reported by both runs
    have hreport : ∀line : Bytes,(if o.keep then
        updateGoals m o host fuel goals outdated { sd₁.emit (.err line) with failed := true }
        else some (true,outdated,{ sd₁.emit (.err line) with failed := true })) =
          some (stopped,outdated',sd')→
        ∃sr',(if o.real.keep then
          updateGoals m o.real host fuel goals outdated { sr₁.emit (.err line) with failed := true }
          else some (true,outdated,{ sr₁.emit (.err line) with failed := true })) =
            some (stopped,outdated',sr') ∧ Agree sd' sr' := by
      intro line hu
      have h₂ := h₁.report line
      by_cases hk : o.keep=true
      · rw [if_pos hk] at hu
        rw [if_pos (show o.real.keep=true from hk)]
        exact ih h₂ hu
      · rw [if_neg hk] at hu
        rw [if_neg (show ¬ o.real.keep=true from hk)]
        obtain ⟨rfl,rfl,rfl⟩ := hu
        exact ⟨_,rfl,h₂⟩
    cases r with
    | ok b => exact ih h₁ hu
    | error e =>
      cases e with
      | outOfDate => exact ih h₁ hu
      | cycle | noRule | notRemade | recipe | touch => exact hreport _ hu

end

end

/-- A run with `-n` of a makefile without `+` lines. It starts no command and touches no file
exactly if `-t` is not given, or `-q` is, or no target with a recipe is out of date when reached.
Without `-t` and `-q`, and if the commands succeed, it prints the command lines that the run without
`-n` hands to the shell. -/
theorem dry_run_idle_iff (m : Makefile) (hm : m.NoPlus) (o : Options) (hdry : o.dry=true)
    (host : Host) (time : Bytes→Option ℕ) (goals : List Bytes) :
    ∃stopped outdated s,makeGoals m o host time goals=some (stopped,outdated,s) ∧
      (Idle time s ↔ ¬ (o.touch=true ∧ o.question=false ∧ OutOfDate m s.log)) ∧
      (o.touch=false → o.question=false→(∀log t args,(host.shell log t args).err=none)→
        ∃s',makeGoals m o.real host time goals=some (stopped,outdated,s') ∧
          printed s.log=handed s'.log) := by
  obtain ⟨⟨stopped,outdated,s⟩,hs⟩ : ∃r,makeGoals m o host time goals=some r :=
    updateGoals_total (by simp [Makefile.fuel]) (by simp)
  have hret : GoalsReturn m o host { time := time } goals s := updateGoals_returns (by simp) hs
  have hinv : DryInv m o time s := by
    have h₀ : DryInv m o time { time := time } := by
      refine ⟨fun _ => ⟨rfl,by simp,by simp⟩,?_⟩
      rintro - - ⟨t,now,hmem,-⟩
      cases hmem
    exact hret.steps.keeps (fun h hstep => h.step hm hdry hstep) h₀
  refine ⟨stopped,outdated,s,hs,⟨?_,hinv.idle⟩,?_⟩
  · rintro hidle ⟨ht,hq,hout⟩
    obtain ⟨t,htouch⟩ := hinv.acts ht hq hout
    exact hidle.touch t htouch
  intro ht hq hok
  have h₀ : Agree { time := time } { time := time } :=
    ⟨rfl,rfl,rfl,by simp,by simp,fun _ _ => rfl,rfl⟩
  obtain ⟨s',hs',hagree⟩ := updateGoals_agrees hm hok hdry hq ht m.fuel h₀ hs
  exact ⟨s',hs',hagree.output⟩

def oneRule : Makefile where
  rules := [(ascii "out",{ deps := [ascii "in"],recipes := [ascii "@cp in out"] })]

theorem oneRule_noPlus : oneRule.NoPlus := by
  intro r hr line hline
  simp only [oneRule,mem_singleton] at hr
  subst hr
  rw [mem_singleton.mp hline]
  have hline : hasPlusPrefix (ascii "@cp in out")=false := by decide
  exact ⟨hline,fun _ => hline⟩

def workingHost : Host where
  shell log _ _ := { time := some (log.length+10) }
  touch log _ := .ok (log.length+10)

def onlyIn (name : Bytes) : Option ℕ := if name=ascii "in" then some 1 else none

theorem dry_run_idle_iff_one : oneRule.NoPlus ∧
    ∃stopped outdated s,makeGoals oneRule { dry := true } workingHost onlyIn [ascii "out"] =
        some (stopped,outdated,s) ∧
      ∃s',makeGoals oneRule {} workingHost onlyIn [ascii "out"] =
          some (stopped,outdated,s') ∧ printed s.log=handed s'.log := by
  obtain ⟨stopped,outdated,s,hs,-,hreal⟩ := dry_run_idle_iff oneRule oneRule_noPlus
    { dry := true } rfl workingHost onlyIn [ascii "out"]
  exact ⟨oneRule_noPlus,stopped,outdated,s,hs,hreal rfl rfl fun _ _ _ => rfl⟩

/-- `make -n -t` touches a file. -/
theorem not_dry_run_idle : ¬ ∀(m : Makefile) (o : Options) (host : Host) (time : Bytes→Option ℕ)
    (goals : List Bytes),m.NoPlus → o.dry=true→∃stopped outdated s,
      makeGoals m o host time goals=some (stopped,outdated,s) ∧ Idle time s := by
  intro h
  obtain ⟨stopped,outdated,s,hs,hidle⟩ :=
    h oneRule { dry := true,touch := true } workingHost onlyIn [ascii "out"] oneRule_noPlus rfl
  have htime : (makeGoals oneRule { dry := true,touch := true } workingHost onlyIn
      [ascii "out"]).map (fun r => (r.2.2.time (ascii "out")).isSome)=some true := by
    decide
  rw [hs,Option.map_some,hidle.time] at htime
  revert htime
  decide

end Coreutils.MakeEngine
