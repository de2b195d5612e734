import Coreutils.EdUndo

/-!
# The lines that a global command visits

When the command begins, every line is labelled with its number. The recorded changes move the
labels; a line inserted, joined, moved or substituted in has none.
-/

namespace Coreutils.EdVisits
open List GoText EdEngine EdExecute EdSteps EdTraces EdGlobals EdUndo LineRanges
open Programs

def relabel (l : List (Option ℤ)) : Change→List (Option ℤ)
  | .insert after texts => withAfter l after (texts.map fun _ => none)
  | .delete first last => without l first last
  | .join first last => withAfter (without l first last) (first-1) [none]
  | .move first last dest =>
    withAfter (without l first last) (moveTo first last dest)
      (replicate (last-first+1).toNat none)
  | .split n pieces => withAfter (without l n n) (n-1) (pieces.map fun _ => none)
  -- after an undo or a load nothing is said of the labels
  | .mark _ _ | .save | .undo | .load _ => l

def Quiet : Change→Prop
  | .undo | .load _ => False
  | _ => True

/-- The target `t` is where the line with the label `i` is; it is zero if there is none. -/
def Aims (l : List (Option ℤ)) (t i : ℤ) : Prop :=
  0≤t ∧ ∀n,1≤n→(t=n ↔ At l n (some i))

section
variable {l xs : List (Option ℤ)} {t i first last after : ℤ}

theorem Aims.insert (h : Aims l t i) (hxs : ∀x∈xs,x=none) (h₀ : 0≤after) (h₁ : after≤l.length) :
    Aims (withAfter l after xs) (if after<t then t+xs.length else t) i := by
  obtain ⟨ht,h⟩ := h
  have hnone : ∀n,¬ At xs n (some i) := fun n hat => by simpa using hxs _ hat.mem
  refine ⟨by split <;> omega,fun n hn => ?_⟩
  rw [at_withAfter h₀ h₁,or_iff_right (hnone _)]
  constructor
  · intro heq
    split at heq
    · exact .inr ⟨by omega,(h _ (by omega)).mp (by omega)⟩
    · exact .inl ⟨by omega,(h n hn).mp heq⟩
  · rintro (⟨hle,hat⟩ | ⟨hlt,hat⟩)
    · have := (h n hn).mpr hat
      rw [if_neg (by omega),this]
    · have := (h _ (by omega)).mpr hat
      omega

theorem Aims.delete (h : Aims l t i) (h₀ : 1≤first) (h₁ : first≤last) (h₂ : last≤l.length) :
    Aims (without l first last)
      (if first≤t ∧ t≤last then 0 else if last<t then t-(last-first+1) else t) i := by
  obtain ⟨ht,h⟩ := h
  refine ⟨by split_ifs <;> omega,fun n hn => ?_⟩
  rw [at_without h₀ h₁ h₂]
  constructor
  · intro heq
    split_ifs at heq
    · omega
    · exact .inr ⟨by omega,(h _ (by omega)).mp (by omega)⟩
    · exact .inl ⟨by omega,(h n hn).mp heq⟩
  · rintro (⟨hlt,hat⟩ | ⟨hle,hat⟩)
    · have := (h n hn).mpr hat
      split_ifs <;> omega
    · have := (h _ (by omega)).mpr hat
      split_ifs <;> omega

end

/-- `l` are the labels of the buffer, and from `index` on the targets are where `sel` are. -/
structure Labels (l : List (Option ℤ)) (c : Core) (index : ℕ) (sel : List ℤ) : Prop where
  length : (l.length : ℤ)=c.buffer.last
  aims : ∀j i,sel[j]?=some i→∃t,c.globalTargets[index+j]?=some t ∧ Aims l t i

/-- The changes recorded keep the targets where the labels are. -/
def Relabels (c c' : Core) : Prop :=
  ∃xs,c'.history=c.history++xs ∧ ((∀x∈xs,Quiet x)→∀l index sel,
    Labels l c index sel→Labels (xs.foldl relabel l) c' index sel)

section
variable {c c' c'' : Core} {l l' : List (Option ℤ)} {index : ℕ} {sel : List ℤ}

theorem Relabels.refl (c : Core) : Relabels c c := ⟨[],by simp,fun _ _ _ _ h => h⟩

theorem Relabels.trans (h : Relabels c c') (h' : Relabels c' c'') : Relabels c c'' := by
  obtain ⟨xs,hxs,hl⟩ := h
  obtain ⟨ys,hys,hl'⟩ := h'
  refine ⟨xs++ys,by rw [hys,hxs,append_assoc],fun hq l index sel h => ?_⟩
  rw [forall_mem_append] at hq
  rw [foldl_append]
  exact hl' hq.2 _ _ _ (hl hq.1 _ _ _ h)

theorem Labels.map {f : ℤ→ℤ} (h : Labels l c index sel)
    (hlen : (l'.length : ℤ)=c'.buffer.last) (ht : c'.globalTargets=c.globalTargets.map f)
    (hf : ∀t i,Aims l t i→Aims l' (f t) i) : Labels l' c' index sel := by
  refine ⟨hlen,fun j i hj => ?_⟩
  obtain ⟨t,hget,haims⟩ := h.aims j i hj
  exact ⟨f t,by rw [ht,getElem?_map,hget]; rfl,hf t i haims⟩

theorem relabels_one {x : Change} (hx : c'.history=c.history++[x])
    (h : Quiet x→∀l index sel,Labels l c index sel→Labels (relabel l x) c' index sel) :
    Relabels c c' := by
  refine ⟨[x],hx,fun hq l index sel hl => ?_⟩
  exact h (hq x (mem_singleton_self x)) l index sel hl

theorem relabels_same (hh : c'.history=c.history) (hb : c'.buffer.last=c.buffer.last)
    (ht : c'.globalTargets=c.globalTargets) : Relabels c c' :=
  ⟨[],by simp [hh],fun _ l index sel h => ⟨hb ▸ h.length,ht ▸ h.aims⟩⟩

/-- Lines of a range give way to lines without labels, here or elsewhere. -/
theorem Labels.replace {f : ℤ→ℤ} {xs : List (Option ℤ)} {first last dest : ℤ}
    (h : Labels l c index sel) (hxs : ∀x∈xs,x=none) (h₀ : 1≤first) (h₁ : first≤last)
    (h₂ : last≤c.buffer.last) (h₃ : 0≤dest) (h₄ : dest≤c.buffer.last-(last-first+1))
    (hlen : c'.buffer.last=c.buffer.last-(last-first+1)+xs.length)
    (ht : c'.globalTargets=c.globalTargets.map f) (hf : ∀t,0≤t→f t =
      let d := if first≤t ∧ t≤last then 0 else if last<t then t-(last-first+1) else t
      if dest<d then d+xs.length else d) :
    Labels (withAfter (without l first last) dest xs) c' index sel := by
  have hl := h.length
  have hw := length_without (l := l) h₀ h₁ (by omega)
  refine h.map ?_ ht fun t i haims => ?_
  · rw [length_withAfter (by omega),hw,hlen,hl]
  · rw [hf t haims.1]
    exact (haims.delete h₀ h₁ (by omega)).insert hxs h₃ (by omega)

theorem Step.relabels {a : Act} (ha : Inward a) (h : Step c a c') : Relabels c c' := by
  cases h with
  | dot | touch | count | clean => exact relabels_same rfl rfl rfl
  | mark => exact relabels_one rfl fun _ l index sel h => ⟨h.length,h.aims⟩
  | undo | load => exact relabels_one rfl fun hq => hq.elim
  | save | enter | visit | leave => exact ha.elim
  | @insert after texts hne h₀ h₁ =>
    refine relabels_one rfl fun _ l index sel h => ?_
    have hlen := h.length
    refine h.map ?_ rfl fun t i ht => ?_
    · rw [relabel,length_withAfter (by omega),length_map,hlen,Buffer.last,Buffer.last,
        length_withAfter h₁]
    · have haims : Aims (withAfter l after (texts.map fun _ => none)) _ i :=
        ht.insert (by simp) h₀ (by omega)
      rwa [length_map] at haims
  | @delete first last h₀ h₁ h₂ =>
    refine relabels_one rfl fun _ l index sel h => ?_
    have hlen := h.length
    refine h.map ?_ rfl fun t i ht => ht.delete h₀ h₁ (by omega)
    rw [relabel,length_without h₀ h₁ (by omega),hlen,Buffer.last,Buffer.last,
      length_without h₀ h₁ h₂]
  | @join first last h₀ h₁ h₂ =>
    refine relabels_one rfl fun _ l index sel h => ?_
    refine h.replace (by simp) h₀ h₁.le h₂ (by omega) (by omega) ?_ map_map fun t _ => rfl
    exact length_join _ h₀ h₁.le h₂
  | @move first last dest h₀ h₁ h₂ h₃ h₄ h₅ =>
    have hto := moveTo_range h₀ h₃ h₄ h₅ h₂
    have hcount : ((replicate (last-first+1).toNat (none : Option ℤ)).length : ℤ) =
        last-first+1 := by
      rw [length_replicate]
      omega
    refine relabels_one rfl fun _ l index sel h => ?_
    refine h.replace (by simp) h₀ h₁ h₂ hto.1 hto.2 ?_ map_map fun t _ => ?_
    · rw [hcount]
      exact length_move h₀ h₁ h₂ h₃ h₄ h₅
    · rw [hcount]
      rfl
  | @split n pieces hne h₀ h₁ hd =>
    refine relabels_one rfl fun _ l index sel h => ?_
    refine h.replace (by simp) h₀ le_rfl h₁ (by omega) (by omega) ?_ rfl fun t ht => ?_
    · rw [length_map,Buffer.last,length_split h₀ h₁,Buffer.last]
      omega
    · rw [length_map]
      dsimp only
      split_ifs <;> omega

theorem history_prefix {P : Act→Prop} (h : Trace P c c') : c.history <+: c'.history := by
  obtain ⟨acts,-,hp⟩ := h
  refine hp.invariant (I := fun d => c.history <+: d.history) (prefix_refl _)
    fun d a d' _ hi hs => hi.trans ?_
  cases hs <;> first | exact prefix_refl _ | exact prefix_append _ _

theorem Trace.relabels (h : Trace Inward c c') : Relabels c c' := by
  obtain ⟨acts,hacts,hp⟩ := h
  exact hp.invariant (Relabels.refl c) fun _ a _ ha hi hs =>
    hi.trans (Step.relabels (hacts a ha) hs)

end

section
variable {W : Type} (host : Host W) {e e' : Engine W}

/-- The engine with dot at a line, whose entry `index` among the targets is spent. -/
def visited (e : Engine W) (index : ℕ) (n : ℤ) : Engine W :=
  { e with
    globalTargets := e.globalTargets.set index 0
    buffer := { e.buffer with current := n } }

/-- The labels `sel` one after another, from the entry `index` on. A line that has lost its label is
passed over. For any other the list is executed once, on the engine as the line before has left it,
with dot where the line now is. -/
inductive Rounds (command : Bytes) : List (Option ℤ)→ℕ→List ℤ→Engine W→Engine W→Prop
  | done (l : List (Option ℤ)) (index : ℕ) (e : Engine W) : Rounds command l index [] e e
  | gone {l : List (Option ℤ)} {index : ℕ} {i : ℤ} {sel : List ℤ} {e e' : Engine W} : some i∉l→
      Rounds command l (index+1) sel e e'→Rounds command l index (i::sel) e e'
  | run {l : List (Option ℤ)} {index : ℕ} {i n : ℤ} {sel : List ℤ} {e e₁ e' : Engine W}
      {xs : List Change} : At l n (some i)→
      executeGlobalList host (executeNested host) command (visited e index n)=.ok false e₁→
      e₁.history=e.history++xs→Rounds command (xs.foldl relabel l) (index+1) sel e₁ e'→
      Rounds command l index (i::sel) e e'

theorem visitTargets_rounds {command previous : Bytes} {sel : List ℤ} {index : ℕ}
    {l : List (Option ℤ)} {ys : List Change} (hc : InRange (core e)) (hg : e.inGlobal=true)
    (hl : Labels l (core e) index sel)
    (h : visitTargets host (executeNested host) (some command) sel.length index previous e =
      .ok false e') (hys : e'.history=e.history++ys) (hquiet : ∀x∈ys,Quiet x) :
    Rounds host command l index sel e e' := by
  induction sel generalizing e index l ys with
  | nil =>
    cases h
    exact .done l index _
  | cons i sel ih =>
    rw [length_cons,visitTargets,run_get_bind] at h
    obtain ⟨t,ht,haims⟩ := hl.aims 0 i rfl
    have hrest : ∀j k,sel[j]?=some k→
        ∃t,e.globalTargets[index+1+j]?=some t ∧ Aims l t k := fun j k hj => by
      have := hl.aims (j+1) k hj
      rwa [show index+(j+1)=index+1+j by omega] at this
    have hn : (e.globalTargets[index]?).getD 0=t := by
      rw [show e.globalTargets[index]?=some t from ht,Option.getD_some]
    rw [hn] at h
    split_ifs at h with h0
    · refine .gone (fun hmem => ?_) (ih hc hg ⟨hl.length,hrest⟩ h hys hquiet)
      obtain ⟨n,hat⟩ := exists_at hmem
      have := (haims.2 n hat.1).mpr hat
      have := hat.1
      omega
    · have hvisit := visit_within hn h0
      rw [run_set_bind] at h
      obtain ⟨quit,e₁,hlist,h⟩ := bind_ok.mp h
      split_ifs at h with hquit
      · cases h
      obtain rfl : quit=false := by simpa using hquit
      have hg₀ := hvisit.inGlobal.trans hg
      have hinside :=
        executeGlobalList_inside host (executeNested_nests host) (hvisit.inRange hc) hg₀ hlist
      obtain ⟨xs,hxs,hkeep⟩ := Trace.relabels hinside.1
      have hc₁ := hinside.within.inRange (hvisit.inRange hc)
      have hg₁ := hinside.inGlobal.trans hg₀
      obtain ⟨zs,hzs⟩ := history_prefix
        (visitTargets_within host (executeNested_nests host) _ _ _ _ hc₁ hg₁ h).1
      have hsplit : ys=xs++zs := by
        have hall : e.history++ys=e.history++(xs++zs) := by
          rw [←hys,←append_assoc,←show e₁.history=e.history++xs from hxs]
          exact hzs.symm
        exact append_cancel_left hall
      rw [hsplit,forall_mem_append] at hquiet
      refine .run ((haims.2 t (by have := haims.1; omega)).mp rfl) hlist hxs
        (ih hc₁ hg₁ (hkeep hquiet.1 l _ _ ⟨hl.length,fun j k hj => ?_⟩) h hzs.symm hquiet.2)
      obtain ⟨u,hu,haim⟩ := hrest j k hj
      refine ⟨u,?_,haim⟩
      rw [←hu]
      exact getElem?_set_ne (by omega)

def numbered (count : ℕ) : List (Option ℤ) := (range count).map fun k : ℕ => some ((k : ℤ)+1)

theorem aims_numbered {count : ℕ} {i : ℤ} (h₀ : 1 ≤ i) (h₁ : i≤count) :
    Aims (numbered count) i i := by
  refine ⟨by omega,fun n hn => ?_⟩
  simp only [At,numbered,getElem?_map,Option.map_eq_some_iff,getElem?_eq_some_iff]
  constructor
  · rintro rfl
    refine ⟨hn,(i-1).toNat,⟨by simp; omega,by simp⟩,?_⟩
    congr
    omega
  · rintro ⟨_,k,⟨_,hk⟩,hi⟩
    simp only [getElem_range,Option.some.injEq] at hk hi
    omega

theorem finishGlobal_ok (before e : Engine W) (u : Unit) :
    (finishGlobal before (.ok u e)).globalQuit=e.globalQuit ∧
      e.history <+: (finishGlobal before (.ok u e)).history := by
  unfold finishGlobal
  by_cases hseq : e.changeSeq=before.changeSeq
  · rw [if_neg (by simpa using hseq)]
    exact ⟨rfl,prefix_append _ _⟩
  · rw [if_pos (by simpa using hseq)]
    exact ⟨rfl,prefix_refl _⟩

/-- A `g` or `v` that completes, and whose list quit, undid and loaded nothing, selects the lines of
its range that match or do not, has its rounds over them on the engine as it entered, and ends as
they leave it. -/
theorem global_rounds {addrs : List ℤ} {arg : Bytes} {wanted : Bool} {u : Unit} {ys : List Change}
    (hc : InRange (core e)) (hg : e.inGlobal=false)
    (h : global host (executeNested host) addrs arg wanted false e=.ok u e')
    (hquit : e'.globalQuit=false) (hys : e'.history=e.history++ys) (hquiet : ∀x∈ys,Quiet x) :
    ∃plan command targets e₁ e₂,planGlobal host addrs arg false e=.ok plan e₁ ∧
      plan.command=some command ∧ targets.Pairwise (·<·) ∧
      (∀t,t∈targets ↔ plan.first≤t ∧ t≤plan.last ∧
        ∃line,At e.buffer.lines t line ∧ plan.re.matchString line=.ok wanted) ∧
      (entered e₁ false targets).buffer=e.buffer ∧
      Rounds host command (numbered e.buffer.lines.length) 0 targets (entered e₁ false targets) e₂ ∧
      e'=finishGlobal e₁ (.ok u e₂) := by
  obtain ⟨plan,e₁,targets,e₃,hplan,hselect,hrun,rfl⟩ := global_ok host h
  have hcore := (keeps_planGlobal host _ _ _).ok hplan
  obtain ⟨hfirst,hlast,hlist⟩ := planGlobal_spec host hplan
  obtain ⟨hcommand,hstyle⟩ := hlist rfl
  obtain ⟨command,hsome⟩ := Option.ne_none_iff_exists'.mp hcommand
  have hbuffer : e₁.buffer=e.buffer := congrArg Core.buffer hcore
  have htargets := targets_iff hfirst hlast hselect
  rw [hbuffer] at htargets
  have hg₁ : e₁.inGlobal=false := (congrArg Core.inGlobal hcore).trans hg
  have hsave := saved_step hg₁
  have henter := entered_step false hg₁ hfirst hlast hselect
  have hrange := henter.inRange (hsave.inRange (hcore ▸ hc))
  have hhistory : (entered e₁ false targets).history=e.history++[.save] := by
    rw [←show e₁.history=e.history from congrArg Core.history hcore,entered,saved_eq hg₁]
  obtain ⟨hkept,hmore⟩ := finishGlobal_ok e₁ e₃ u
  rw [hkept] at hquit
  rw [runGlobal,hsome,hstyle] at hrun
  obtain ⟨quit,e₄,hvisit,hrun⟩ := bind_ok.mp hrun
  split_ifs at hrun with hq
  · cases hrun
    cases hquit
  obtain rfl : quit=false := by simpa using hq
  rw [run_get_bind] at hrun
  obtain ⟨_,_,href,hrun⟩ := bind_ok.mp hrun
  obtain ⟨_,rfl⟩ := refuse_ok.mp href
  obtain rfl : e₄=e₃ := by
    rw [EdAddress.printStyleIf,run_get_bind] at hrun
    unfold onlyIf at hrun
    split at hrun <;> cases hrun <;> rfl
  obtain ⟨zs,hzs⟩ := history_prefix
    (visitTargets_within host (executeNested_nests host) _ _ _ _ hrange rfl hvisit).1
  refine ⟨plan,command,targets,e₁,e₄,hplan,hsome,(selectLines_spec _ _ hselect).1,htargets,
    (saved_buffer e₁).trans hbuffer,
    visitTargets_rounds host hrange rfl ⟨?_,fun j i hj => ?_⟩ hvisit hzs.symm ?_,rfl⟩
  · rw [numbered,List.length_map,List.length_range,←hbuffer,←saved_buffer e₁]
    rfl
  · obtain ⟨h₀,_,_,hat,_⟩ := (htargets i).mp (mem_of_getElem? hj)
    exact ⟨i,by rwa [zero_add],aims_numbered (by omega) hat.le⟩
  obtain ⟨ws,hws⟩ := hmore
  have hsplit : e₄.history=e.history++[.save]++zs := hhistory ▸ hzs.symm
  rw [←hws,hsplit] at hys
  have hall : ys=[Change.save]++zs++ws := by simpa using hys.symm
  exact fun x hx => hquiet x (by simp [hall,hx])

end

theorem rounds_deleting_last : ∃command targets e e₁ e₂,
    global bareHost (executeNested bareHost) [] (ascii "/x/$d") false false threeLines=.ok () e ∧
    e.buffer.lines=[ascii "one"] ∧
    Rounds bareHost command (numbered 3) 0 targets (entered e₁ false targets) e₂ ∧
    e=finishGlobal e₁ (.ok () e₂) := by
  obtain ⟨e,hrun,hquit,hlines,hhistory⟩ : ∃e,
      global bareHost (executeNested bareHost) [] (ascii "/x/$d") false false threeLines=.ok () e ∧
      e.globalQuit=false ∧ e.buffer.lines=[ascii "one"] ∧
      e.history=threeLines.history++[.save,.delete 3 3,.delete 2 2] :=
    ⟨_,(completed (by decide +kernel)).choose_spec,by decide +kernel,by decide +kernel,
      by decide +kernel⟩
  obtain ⟨_,command,targets,e₁,e₂,_,_,_,_,_,hrounds,hend⟩ :=
    global_rounds bareHost threeLines_inRange rfl hrun hquit hhistory (by simp [Quiet])
  exact ⟨command,targets,e,e₁,e₂,hrun,hlines,hrounds,hend⟩

end Coreutils.EdVisits
