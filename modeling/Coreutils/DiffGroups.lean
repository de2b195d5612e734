import Coreutils.Alignment
import Coreutils.MyersEdits

/-!
# Change groups

`diffGroups` of `cmds/diff/diff.go`: the script of the Myers engine becomes two maps of changed
lines, `slideDown` moves every changed run as low as the lines allow, and the maps are paired into
groups. The unchanged lines of both sides stay one sequence, so the groups cut the sides into common
blocks and changed blocks.
-/

namespace Coreutils.DiffGroups
open List Coreutils.Alignment EditDistance MyersScript MyersEdits

/-- `group`: lines `[a0,a1)` of the old side are replaced by lines `[b0,b1)` of the new side. -/
structure Group where
  a0 : ℕ
  a1 : ℕ
  b0 : ℕ
  b1 : ℕ
  deriving DecidableEq,Repr

def markChanged : List OpKind→ℕ→ℕ→List Bool→List Bool→Option (List Bool×List Bool)
  | [],_,_,ca,cb => some (ca,cb)
  | .opEq::ops,ai,bi,ca,cb => markChanged ops (ai+1) (bi+1) ca cb
  | .opDel::ops,ai,bi,ca,cb =>
    if ai<ca.length then markChanged ops (ai+1) bi (ca.set ai true) cb else none
  | .opIns::ops,ai,bi,ca,cb =>
    if bi<cb.length then markChanged ops ai (bi+1) ca (cb.set bi true) else none

def runEnd (changed : List Bool) (i : ℕ) : ℕ := i+((changed.drop i).takeWhile id).length

section

variable {α : Type*} [DecidableEq α]

/-- The inner loop of `slideDown`: the run `[start,i)` moves down while the line past it repeats its
first, absorbing the runs it meets. -/
def slideRun (keys : List α) : ℕ→List Bool→ℕ→ℕ→Option (List Bool×ℕ)
  | 0,_,_,_ => none
  | fuel+1,changed,start,i =>
    if i<keys.length ∧ changed[i]?=some false ∧ keys[start]?=keys[i]? then
      let changed' := (changed.set start false).set i true
      slideRun keys fuel changed' (start+1) (runEnd changed' (i+1))
    else some (changed,i)

def slideFrom (keys : List α) : ℕ→List Bool→ℕ→Option (List Bool)
  | 0,_,_ => none
  | fuel+1,changed,i =>
    if i<keys.length then
      match changed[i]? with
      | none => none
      | some false => slideFrom keys fuel changed (i+1)
      | some true => do
        let (changed',i') ← slideRun keys (keys.length+1) changed i (runEnd changed i)
        slideFrom keys fuel changed' i'
    else some changed

def slideDown (changed : List Bool) (keys : List α) : Option (List Bool) :=
  slideFrom keys (keys.length+1) changed 0

/-- The pairing loop of `diffGroups`, on what is left of the two maps from `i` and `j` on. -/
def pairGroups : ℕ→ℕ→ℕ→List Bool→List Bool→Option (List Group)
  | 0,_,_,_,_ => none
  | fuel+1,i,j,ca,cb =>
    if ca=[] ∧ cb=[] then some []
    else if ca.head?=some true ∨ cb.head?=some true then do
      let da := (ca.takeWhile id).length
      let db := (cb.takeWhile id).length
      let gs ← pairGroups fuel (i+da) (j+db) (ca.drop da) (cb.drop db)
      pure (⟨i,i+da,j,j+db⟩::gs)
    else pairGroups fuel (i+1) (j+1) ca.tail cb.tail

def diffGroups (ka kb : List α) : Option (List Group) := do
  let ops ← myersOps ka kb
  let (ca,cb) ←
    markChanged ops 0 0 (replicate ka.length false) (replicate kb.length false)
  let ca ← slideDown ca ka
  let cb ← slideDown cb kb
  pairGroups (ka.length+kb.length+1) 0 0 ca cb

end

example : diffGroups [1,2,2,3] [1,2,3,4]=some [⟨2,3,2,2⟩,⟨4,4,3,4⟩] := by decide

variable {k : List α} {ops : List OpKind}

section

variable {α : Type*} {i : ℕ} {lead : List α} {cs : List (Chunk α)}

def kept : List Bool→List α→List α
  | false::c,k::ks => k::kept c ks
  | true::c,_::ks => kept c ks
  | _,_ => []

@[simp] theorem kept_nil (k : List α) : kept [] k=[] := by cases k <;> rfl

theorem kept_append {c c' : List Bool} {k k' : List α} (h : c.length=k.length) :
    kept (c++c') (k++k')=kept c k++kept c' k' := by
  induction c generalizing k with
  | nil =>
    obtain rfl : k=[] := by simpa using h.symm
    simp
  | cons x c ih =>
    obtain ⟨y,k,rfl⟩ := exists_cons_of_length_eq_add_one (by simpa using h.symm)
    have hlen : c.length=k.length := by simpa using h
    cases x <;> simp [kept,ih hlen]

@[simp] theorem kept_replicate_true (n : ℕ) (k : List α) : kept (replicate n true) k=[] := by
  induction n generalizing k with
  | zero => simp
  | succ n ih =>
    cases k with
    | nil => rfl
    | cons x k => simpa [replicate_succ,kept] using ih k

/-- What the script leaves in the two maps. -/
theorem markChanged_spec {a b : List α} (h : Edits ops a b)
    (pa pb : List Bool) : ∃ca cb,ca.length=a.length ∧ cb.length=b.length ∧ kept ca a=kept cb b ∧
      markChanged ops pa.length pb.length (pa++replicate a.length false)
        (pb++replicate b.length false)=some (pa++ca,pb++cb) := by
  induction h generalizing pa pb with
  | nil => exact ⟨[],[],rfl,rfl,rfl,by simp [markChanged]⟩
  | @eq x ops a b h ih =>
    obtain ⟨ca,cb,hca,hcb,hk,hm⟩ := ih (pa++[false]) (pb++[false])
    refine ⟨false::ca,false::cb,by simp [hca],by simp [hcb],by simp [kept,hk],?_⟩
    simpa [markChanged,replicate_succ] using hm
  | @del x ops a b h ih =>
    obtain ⟨ca,cb,hca,hcb,hk,hm⟩ := ih (pa++[true]) pb
    refine ⟨true::ca,cb,by simp [hca],hcb,by simpa [kept] using hk,?_⟩
    simpa [markChanged,replicate_succ] using hm
  | @ins y ops a b h ih =>
    obtain ⟨ca,cb,hca,hcb,hk,hm⟩ := ih pa (pb++[true])
    refine ⟨ca,true::cb,hca,by simp [hcb],by simpa [kept] using hk,?_⟩
    simpa [markChanged,replicate_succ] using hm

/-- One step of a sliding run: the line it leaves and the line it takes have the same key. -/
theorem kept_slide {c₁ c₂ : List Bool} {r : ℕ} {keys : List α}
    (hlen : c₁.length+(r+1)+(c₂.length+1)=keys.length)
    (hk : keys[c₁.length]?=keys[c₁.length+(r+1)]?) :
    kept ((c₁++[false])++(replicate (r+1) true++c₂)) keys =
      kept (c₁++(replicate (r+1) true++false::c₂)) keys := by
  obtain ⟨k₁,K,rfl,hk₁⟩ : ∃k₁ K,keys=k₁++K ∧ k₁.length=c₁.length :=
    ⟨keys.take c₁.length,keys.drop c₁.length,by simp,by simp; omega⟩
  obtain ⟨x,K,rfl⟩ : ∃x K',K=x::K' :=
    exists_cons_of_length_pos (by simp at hlen; omega)
  obtain ⟨ks,K,rfl,hks⟩ : ∃ks K',K=ks++K' ∧ ks.length=r :=
    ⟨K.take r,K.drop r,by simp,by simp at hlen ⊢; omega⟩
  obtain ⟨y,k₂,rfl⟩ : ∃y k₂,K=y::k₂ :=
    exists_cons_of_length_pos (by simp at hlen; omega)
  obtain rfl : x=y := by
    rw [←hk₁] at hk
    simpa [←hks] using hk
  have hlow : kept ((c₁++[false])++(replicate (r+1) true++c₂))
      (k₁++x::(ks++x::k₂))=kept c₁ k₁++x::kept c₂ k₂ := by
    rw [show k₁++x::(ks++x::k₂)=(k₁++[x])++((ks++[x])++k₂) by simp,
      kept_append (by simp [hk₁]),kept_append (by simp [hk₁]),kept_append (by simp [hks])]
    simp [kept]
  have hhigh : kept (c₁++(replicate (r+1) true++false::c₂))
      (k₁++x::(ks++x::k₂))=kept c₁ k₁++x::kept c₂ k₂ := by
    rw [show k₁++x::(ks++x::k₂)=k₁++((x::ks)++(x::k₂)) by simp,
      kept_append hk₁.symm,kept_append (by simp [hks])]
    simp [kept]
  rw [hlow,hhigh]

/-- A map is its leading run and a rest that does not begin with a changed line. -/
theorem leading_run (c : List Bool) :
    ∃c',c=replicate (c.takeWhile id).length true++c' ∧ c'.head?≠some true := by
  induction c with
  | nil => exact ⟨[],by simp,by simp⟩
  | cons x c ih =>
    cases x with
    | false => exact ⟨false::c,by simp,by simp⟩
    | true =>
      obtain ⟨c',hc,hhead⟩ := ih
      exact ⟨c',by simpa [replicate_succ] using hc,hhead⟩

theorem runEnd_split (c₁ c₂ : List Bool) :
    ∃t c₃,c₂=replicate t true++c₃ ∧ runEnd (c₁++c₂) c₁.length=c₁.length+t ∧ c₃.head?≠some true := by
  obtain ⟨c₃,hc,hhead⟩ := leading_run c₂
  exact ⟨_,c₃,hc,by simp [runEnd],hhead⟩

section
variable [DecidableEq α]

theorem slideRun_spec (keys : List α) (fuel : ℕ) (c₁ c₂ : List Bool) (r : ℕ)
    (hlen : c₁.length+(r+1)+c₂.length=keys.length) (hfuel : c₂.length<fuel) :
    ∃c i,slideRun keys fuel (c₁++(replicate (r+1) true++c₂)) c₁.length
        (c₁.length+(r+1))=some (c,i) ∧ c.length=keys.length ∧ c₁.length < i ∧ i≤keys.length ∧
      kept c keys=kept (c₁++(replicate (r+1) true++c₂)) keys := by
  induction fuel generalizing c₁ c₂ r with
  | zero => omega
  | succ fuel ih =>
    rw [slideRun]
    split_ifs with hcond
    · obtain ⟨hi,hfalse,hkeys⟩ := hcond
      obtain ⟨c₂,rfl⟩ : ∃c,c₂=false::c := by
        cases c₂ with
        | nil => simp at hfalse
        | cons x c => exact ⟨c,by simpa using hfalse⟩
      -- the swap moves the run one place down
      have hset : ((c₁++(replicate (r+1) true++false::c₂)).set c₁.length false).set
          (c₁.length+(r+1)) true=(c₁++[false])++(replicate (r+1) true++c₂) := by
        rw [set_append_right _ _ (by omega),Nat.sub_self,
          set_append_right _ _ (by omega),Nat.add_sub_cancel_left,replicate_succ,
          cons_append,set_cons_zero,set_cons_succ]
        have hshift : replicate r true++true::c₂=true::(replicate r true++c₂) := by
          rw [←cons_append,←replicate_succ,replicate_succ',append_assoc,singleton_append]
        simp [hshift]
      obtain ⟨t,c₃,hc₂,hrun,-⟩ :=
        runEnd_split (c₁++[false]++replicate (r+1) true) c₂
      simp only [length_cons] at hlen hfuel
      have hjoin : (c₁++[false])++(replicate (r+1) true++c₂) =
          (c₁++[false])++(replicate (r+t+1) true++c₃) := by
        rw [hc₂,←append_assoc (replicate _ _),←replicate_add]
        congr 3
        omega
      have hend : runEnd ((c₁++[false])++(replicate (r+1) true++c₂))
          (c₁.length+(r+1)+1)=(c₁++[false]).length+(r+t+1) := by
        rw [←append_assoc]
        have : c₁.length+(r+1)+1=(c₁++[false]++replicate (r+1) true).length := by simp; omega
        rw [this,hrun]
        simp; omega
      have hc₃ : c₂.length=t+c₃.length := by rw [hc₂]; simp
      obtain ⟨c,i,hs,hcl,hi',hin,hkept⟩ := ih (c₁++[false]) c₃ (r+t)
        (by simp; omega) (by omega)
      refine ⟨c,i,?_,hcl,by simp at hi'; omega,hin,?_⟩
      · simp only [hset,hend]
        rw [hjoin]
        simpa using hs
      · rw [hkept,←hjoin,kept_slide (by simpa using hlen) hkeys]
    · exact ⟨_,_,rfl,by simp; omega,by omega,by omega,rfl⟩

theorem slideFrom_spec (keys : List α) (fuel : ℕ) (flags : List Bool) (i : ℕ)
    (hlen : flags.length=keys.length) (hi : i≤keys.length) (hfuel : keys.length < i+fuel) :
    ∃c',slideFrom keys fuel flags i=some c' ∧ c'.length=keys.length ∧
      kept c' keys=kept flags keys := by
  induction fuel generalizing flags i with
  | zero => omega
  | succ fuel ih =>
    rw [slideFrom]
    split
    · have hget : flags[i]?=some flags[i] := getElem?_eq_getElem (by omega)
      rw [hget]
      cases hx : flags[i] with
      | false => exact ih flags (i+1) hlen (by omega) (by omega)
      | true =>
        obtain ⟨t,c₃,hc,hrun,hhead⟩ := runEnd_split (flags.take i) (flags.drop i)
        have hti : (flags.take i).length=i := by simp; omega
        rw [take_append_drop,hti] at hrun
        -- the run holds at least the place `i`
        obtain ⟨t,rfl⟩ : ∃t',t=t'+1 := by
          cases t with
          | zero =>
            rw [←getElem_cons_drop (by omega : i<flags.length),hx,replicate_zero,nil_append] at hc
            exact absurd (by rw [←hc]; rfl) hhead
          | succ t => exact ⟨t,rfl⟩
        have hc' : flags=flags.take i++(replicate (t+1) true++c₃) := by rw [←hc,take_append_drop]
        have hl := congrArg length hc'
        simp only [length_append,hti,length_replicate] at hl
        obtain ⟨c',i',hs,hcl,hi',hin,hkept⟩ :=
          slideRun_spec keys (keys.length+1) (flags.take i) c₃ t (by omega) (by omega)
        rw [←hc',hti] at hs
        rw [←hc'] at hkept
        obtain ⟨c'',hs'',hcl'',hkept''⟩ := ih c' i' hcl hin (by omega)
        exact ⟨c'',by simp [hrun,hs,hs''],hcl'',hkept''.trans hkept⟩
    · exact ⟨flags,rfl,hlen,rfl⟩

theorem slideDown_spec (keys : List α) (c : List Bool) (hlen : c.length=keys.length) :
    ∃c',slideDown c keys=some c' ∧ c'.length=keys.length ∧ kept c' keys=kept c keys :=
  slideFrom_spec keys _ c 0 hlen (by omega) (by omega)

end

/-- The groups of an alignment whose sides start at lines `i` and `j`. -/
def groupsOf : ℕ→ℕ→List α→List (Chunk α)→List Group
  | _,_,_,[] => []
  | i,j,lead,c::cs =>
    let a0 := i+lead.length
    let b0 := j+lead.length
    ⟨a0,a0+c.del.length,b0,b0+c.ins.length⟩ ::
      groupsOf (a0+c.del.length) (b0+c.ins.length) c.keep cs

theorem groupsOf_map {β : Type*} (f : α→β) (i j : ℕ) (lead : List α) (cs : List (Chunk α)) :
    groupsOf i j (lead.map f) (cs.map (Chunk.map f))=groupsOf i j lead cs := by
  induction cs generalizing i j lead with
  | nil => rfl
  | cons c cs ih => simp [groupsOf,Chunk.map,ih]

/-- A common line in front moves every group down by one. -/
theorem groupsOf_cons (i j : ℕ) (x : α) (lead : List α) (cs : List (Chunk α)) :
    groupsOf i j (x::lead) cs=groupsOf (i+1) (j+1) lead cs := by
  cases cs with
  | nil => rfl
  | cons c cs => simp [groupsOf,add_assoc,add_comm 1]

@[simp] theorem length_groupsOf (i j : ℕ) (lead : List α) (cs : List (Chunk α)) :
    (groupsOf i j lead cs).length=cs.length := by
  induction cs generalizing i j lead with
  | nil => rfl
  | cons c cs ih => simp [groupsOf,ih]

theorem groupsOf_le {j : ℕ} {g : Group} (h : g∈groupsOf i j lead cs) :
    g.a1 ≤ i+(oldSide lead cs).length ∧ g.b1≤j+(newSide lead cs).length := by
  induction cs generalizing i j lead with
  | nil => simp [groupsOf] at h
  | cons c cs ih =>
    rw [oldSide_cons,newSide_cons]
    simp only [length_append]
    rcases mem_cons.mp h with rfl | h
    · simp only
      omega
    · have := ih h
      omega

/-- Every chunk's changed blocks stand in the two sequences where its group says. -/
theorem groupsOf_blocks (P Q lead : List α) (cs : List (Chunk α)) : ∀c∈cs,
    ∃g∈groupsOf P.length Q.length lead cs,((P++oldSide lead cs).take g.a1).drop g.a0=c.del ∧
      ((Q++newSide lead cs).take g.b1).drop g.b0=c.ins := by
  induction cs generalizing P Q lead with
  | nil => simp
  | cons c cs ih =>
    rw [oldSide_cons,newSide_cons,forall_mem_cons]
    constructor
    · refine ⟨_,mem_cons_self ..,?_,?_⟩
      · rw [←append_assoc,←append_assoc,take_left' (by simp [add_assoc]),drop_left' (by simp)]
      · rw [←append_assoc,←append_assoc,take_left' (by simp [add_assoc]),drop_left' (by simp)]
    · intro d hd
      obtain ⟨g,hg,h₁,h₂⟩ := ih (P++(lead++c.del)) (Q++(lead++c.ins)) c.keep d hd
      simp only [length_append,←add_assoc] at hg
      exact ⟨g,mem_cons_of_mem _ hg,by simpa using h₁,by simpa using h₂⟩

/-- A run splits off a block of changed keys. -/
private theorem kept_run {t : ℕ} {c : List Bool}
    (h : (replicate t true++c).length=k.length) : ∃d k',k=d++k' ∧ d.length=t ∧ c.length=k'.length ∧
      kept (replicate t true++c) k=kept c k' := by
  simp only [length_append,length_replicate] at h
  have ht : (k.take t).length=t := by simp; omega
  refine ⟨k.take t,k.drop t,by simp,ht,by simp; omega,?_⟩
  conv_lhs => rw [←take_append_drop t k]
  rw [kept_append (by simp; omega)]
  simp

theorem pairGroups_spec (fuel i j : ℕ) (ca cb : List Bool) (ka kb : List α)
    (ha : ca.length=ka.length) (hb : cb.length=kb.length) (hk : kept ca ka=kept cb kb)
    (hfuel : ca.length+cb.length<fuel) :
    ∃lead chunks,pairGroups fuel i j ca cb=some (groupsOf i j lead chunks) ∧
      ka=oldSide lead chunks ∧ kb=newSide lead chunks ∧ Proper chunks ∧
      (ca.head?≠some true→cb.head?≠some true→chunks=[] ∨ lead≠[]) := by
  induction fuel generalizing i j ca cb ka kb with
  | zero => omega
  | succ fuel ih =>
    rw [pairGroups]
    by_cases hend : ca=[] ∧ cb=[]
    · obtain ⟨rfl,rfl⟩ := hend
      obtain rfl : ka=[] := by simpa using ha.symm
      obtain rfl : kb=[] := by simpa using hb.symm
      exact ⟨[],[],by simp [groupsOf],by simp,by simp,proper_nil,fun _ _ => .inl rfl⟩
    rw [if_neg hend]
    by_cases hrun : ca.head?=some true ∨ cb.head?=some true
    · -- a group absorbs the run on either side
      rw [if_pos hrun]
      obtain ⟨ca',hca,hca'⟩ := leading_run ca
      obtain ⟨cb',hcb,hcb'⟩ := leading_run cb
      generalize (ca.takeWhile id).length=da at hca ⊢
      generalize (cb.takeWhile id).length=db at hcb ⊢
      subst hca hcb
      have hpos : 0<da+db := by
        by_contra h
        obtain ⟨rfl,rfl⟩ : da=0 ∧ db=0 := by omega
        exact hrun.elim hca' hcb'
      obtain ⟨del,ka',rfl,hdel,hka',hkept⟩ := kept_run ha
      obtain ⟨ins,kb',rfl,hins,hkb',hkept'⟩ := kept_run hb
      rw [hkept,hkept'] at hk
      simp only [length_append,length_replicate] at hfuel
      obtain ⟨lead,chunks,hp,rfl,rfl,hproper,hsep⟩ :=
        ih (i+da) (j+db) ca' cb' ka' kb' hka' hkb' hk (by omega)
      refine ⟨[],⟨del,ins,lead⟩::chunks,?_,by simp [oldSide_cons],by simp [newSide_cons],
        hproper.cons ?_ (hsep hca' hcb'),?_⟩
      · simp [hp,groupsOf,hdel,hins]
      · by_contra h
        simp only [not_or,not_not] at h
        simp only [h.1,h.2,length_nil] at hdel hins
        omega
      · intro h₁ h₂
        exact absurd hrun (not_or.mpr ⟨h₁,h₂⟩)
    · -- an unchanged line stands on both sides, and the keys agree
      simp only [not_or] at hrun
      cases ca with
      | nil =>
        cases cb with
        | nil => simp at hend
        | cons y cb =>
          obtain ⟨l,kb,rfl⟩ := exists_cons_of_length_eq_add_one hb.symm
          cases y <;> simp_all [kept]
      | cons x ca =>
        obtain ⟨k,ka,rfl⟩ := exists_cons_of_length_eq_add_one ha.symm
        cases x with
        | true => simp at hrun
        | false =>
          cases cb with
          | nil => simp [kept] at hk
          | cons y cb =>
            obtain ⟨l,kb,rfl⟩ := exists_cons_of_length_eq_add_one hb.symm
            cases y with
            | true => simp at hrun
            | false =>
              simp only [kept,cons.injEq] at hk
              obtain ⟨rfl,hk⟩ := hk
              simp only [length_cons] at hfuel ha hb
              obtain ⟨lead,chunks,hp,rfl,rfl,hproper,-⟩ :=
                ih (i+1) (j+1) ca cb ka kb (by omega) (by omega) hk (by omega)
              exact ⟨k::lead,chunks,by simp [hp,groupsOf_cons],
                (side_append _ [k] lead chunks).symm,(side_append _ [k] lead chunks).symm,hproper,
                fun _ _ => .inr (by simp)⟩

/-- `diffGroups` returns, and its groups are those of an alignment of the two sides. -/
theorem diffGroups_spec [DecidableEq α] (ka kb : List α) :
    ∃lead chunks,diffGroups ka kb=some (groupsOf 0 0 lead chunks) ∧
      ka=oldSide lead chunks ∧ kb=newSide lead chunks ∧ Proper chunks := by
  obtain ⟨ops,hops,hedits,-⟩ := myersOps_spec ka kb
  obtain ⟨ca,cb,hca,hcb,hk,hm⟩ := markChanged_spec hedits [] []
  obtain ⟨ca',hsa,hca',hka⟩ := slideDown_spec ka ca hca
  obtain ⟨cb',hsb,hcb',hkb⟩ := slideDown_spec kb cb hcb
  obtain ⟨lead,chunks,hp,ha,hb,hproper,-⟩ := pairGroups_spec (ka.length+kb.length+1) 0 0
    ca' cb' ka kb hca' hcb' (by rw [hka,hkb,hk]) (by omega)
  simp only [nil_append,length_nil] at hm
  exact ⟨lead,chunks,by simp [diffGroups,hops,hm,hsa,hsb,hp],ha,hb,hproper⟩

def Group.oldSpan (g : Group) : ℕ×ℕ := (g.a0,g.a1)

def Group.newSpan (g : Group) : ℕ×ℕ := (g.b0,g.b1)

def gaps (l : List α) : ℕ→List (ℕ×ℕ)→List (List α)
  | i,[] => [l.drop i]
  | i,x::xs => (l.take x.1).drop i::gaps l x.2 xs

def outside (i : ℕ) (l : List α) (xs : List (ℕ×ℕ)) : List α :=
  ((l.zipIdx i).filter fun p => xs.all fun x => !(x.1≤p.2 && p.2<x.2)).map Prod.fst

/-- The groups are in order and apart, each changes something, and the gaps are common. -/
structure EditScript (ka kb : List α) (gs : List Group) : Prop where
  changes : ∀g∈gs,g.a0≤g.a1 ∧ g.b0≤g.b1 ∧ (g.a0<g.a1 ∨ g.b0<g.b1)
  within : ∀g∈gs,g.a1≤ka.length ∧ g.b1≤kb.length
  ordered : gs.Pairwise fun g g' => g.a1<g'.a0 ∧ g.b1<g'.b0
  outside : outside 0 ka (gs.map Group.oldSpan)=outside 0 kb (gs.map Group.newSpan)
  gaps : gaps ka 0 (gs.map Group.oldSpan)=gaps kb 0 (gs.map Group.newSpan)

def spans (f : Chunk α→List α) : ℕ→List α→List (Chunk α)→List (ℕ×ℕ)
  | _,_,[] => []
  | i,lead,c::cs =>
    (i+lead.length,i+lead.length+(f c).length) ::
      spans f (i+lead.length+(f c).length) c.keep cs

theorem map_spans (i j : ℕ) (lead : List α) (cs : List (Chunk α)) :
    (groupsOf i j lead cs).map Group.oldSpan=spans Chunk.del i lead cs ∧
      (groupsOf i j lead cs).map Group.newSpan=spans Chunk.ins j lead cs := by
  induction cs generalizing i j lead with
  | nil => exact ⟨rfl,rfl⟩
  | cons c cs ih => simp [groupsOf,spans,ih,Group.oldSpan,Group.newSpan]

/-- The gaps of either side are the common blocks of the alignment. -/
theorem gaps_spans (f : Chunk α→List α) (P lead : List α) (cs : List (Chunk α)) :
    gaps (P++side f lead cs) P.length (spans f P.length lead cs) = lead::cs.map Chunk.keep := by
  induction cs generalizing P lead with
  | nil => simp [gaps,spans]
  | cons c cs ih =>
    have hrest := ih (P++lead++f c) c.keep
    simp only [length_append] at hrest
    rw [spans,gaps,side_cons]
    simp only [←append_assoc]
    rw [hrest,map_cons,append_assoc,take_left' (by simp),drop_left]

theorem outside_append (i : ℕ) (l l' : List α) (xs : List (ℕ×ℕ)) :
    outside i (l++l') xs=outside i l xs++outside (i+l.length) l' xs := by
  simp [outside,zipIdx_append]

theorem le_of_mem_spans {f : Chunk α→List α}
    {x : ℕ×ℕ} (h : x∈spans f i lead cs) : i+lead.length≤x.1 := by
  induction cs generalizing i lead with
  | nil => cases h
  | cons c cs ih =>
    rcases mem_cons.mp h with rfl | h
    · exact le_refl _
    · have := ih h
      omega

variable {xs : List (ℕ×ℕ)}

/-- A block that every span leaves alone stands outside. -/
theorem outside_of_apart {l : List α} (h : ∀x∈xs,i+l.length≤x.1 ∨ x.2 ≤ i) : outside i l xs=l := by
  rw [outside,filter_eq_self.mpr,zipIdx_map_fst]
  rintro ⟨a,k⟩ hk
  obtain ⟨h₁,h₂,-⟩ := mem_zipIdx hk
  rw [all_eq_true]
  intro x hx
  have := h x hx
  simp only [Bool.not_eq_true',Bool.and_eq_false_iff,decide_eq_false_iff_not]
  omega

theorem outside_span (i : ℕ) (l : List α) (h : (i,i+l.length)∈xs) : outside i l xs=[] := by
  rw [outside,filter_eq_nil_iff.mpr,map_nil]
  rintro ⟨a,k⟩ hk
  obtain ⟨h₁,h₂,-⟩ := mem_zipIdx hk
  rw [all_eq_true]
  intro hall
  have := hall _ h
  simp only [Bool.not_eq_true',Bool.and_eq_false_iff,decide_eq_false_iff_not] at this
  omega

theorem outside_spans (f : Chunk α→List α) (i : ℕ) (lead : List α) (cs : List (Chunk α))
    (xs : List (ℕ×ℕ)) (hxs : ∀x∈xs,x.2 ≤ i) :
    outside i (side f lead cs) (xs++spans f i lead cs)=lead++cs.flatMap Chunk.keep := by
  induction cs generalizing i lead xs with
  | nil =>
    rw [side_nil,spans,append_nil,flatMap_nil,append_nil]
    exact outside_of_apart fun x hx => .inr (hxs x hx)
  | cons c cs ih =>
    rw [side_cons,outside_append,outside_append,spans]
    have hlead : outside i lead (xs++(i+lead.length,i+lead.length+(f c).length) ::
        spans f (i+lead.length+(f c).length) c.keep cs)=lead := by
      refine outside_of_apart (forall_mem_append.mpr ⟨fun x hx => .inr (hxs x hx),
        forall_mem_cons.mpr ⟨.inl le_rfl,fun x hx => .inl ?_⟩⟩)
      have := le_of_mem_spans hx
      omega
    -- behind the chunk its own span is one of those that are over
    have hrest := ih (i+lead.length+(f c).length) c.keep
      (xs++[(i+lead.length,i+lead.length+(f c).length)])
      (forall_mem_append.mpr ⟨fun x hx => by have := hxs x hx; omega,by simp⟩)
    rw [append_assoc,singleton_append] at hrest
    rw [hlead,outside_span _ _ (by simp),hrest]
    simp

theorem groupsOf_bounds {j : ℕ} {g : Group}
    (h : g∈groupsOf i j lead cs) : i+lead.length≤g.a0 ∧ j+lead.length≤g.b0 := by
  obtain ⟨hold,hnew⟩ := map_spans i j lead cs
  exact ⟨le_of_mem_spans (hold ▸ mem_map_of_mem h),le_of_mem_spans (hnew ▸ mem_map_of_mem h)⟩

theorem groupsOf_changes (h : Proper cs) (i j : ℕ) (lead : List α) :
    ∀g∈groupsOf i j lead cs,g.a0≤g.a1 ∧ g.b0≤g.b1 ∧ (g.a0<g.a1 ∨ g.b0<g.b1) := by
  induction cs generalizing i j lead with
  | nil => simp [groupsOf]
  | cons c cs ih =>
    rw [groupsOf,forall_mem_cons]
    refine ⟨?_,ih h.tail _ _ _⟩
    have hc := h.changes c (mem_cons_self ..)
    rw [←length_pos_iff,←length_pos_iff] at hc
    simp only
    omega

theorem groupsOf_ordered (h : Proper cs) (i j : ℕ) (lead : List α) :
    (groupsOf i j lead cs).Pairwise fun g g' => g.a1<g'.a0 ∧ g.b1<g'.b0 := by
  induction cs generalizing i j lead with
  | nil => exact .nil
  | cons c cs ih =>
    refine .cons (fun g hg => ?_) (ih h.tail _ _ _)
    -- a group after this one stands behind the lines this chunk keeps
    obtain ⟨ha,hb⟩ := groupsOf_bounds hg
    have hkeep : c.keep≠[] := by
      refine h.last_or_keep.resolve_left ?_
      rintro rfl
      cases hg
    have := length_pos_iff.mpr hkeep
    simp only
    omega

/-- The groups of a proper alignment are an edit script of its sides. -/
theorem editScript_groupsOf (h : Proper cs) :
    EditScript (oldSide lead cs) (newSide lead cs) (groupsOf 0 0 lead cs) where
  changes := groupsOf_changes h 0 0 lead
  within := fun g hg => by simpa using groupsOf_le hg
  ordered := groupsOf_ordered h 0 0 lead
  outside := by
    rw [(map_spans 0 0 lead cs).1,(map_spans 0 0 lead cs).2]
    exact (outside_spans Chunk.del 0 lead cs [] (by simp)).trans
      (outside_spans Chunk.ins 0 lead cs [] (by simp)).symm
  gaps := by
    rw [(map_spans 0 0 lead cs).1,(map_spans 0 0 lead cs).2]
    exact (gaps_spans Chunk.del [] lead cs).trans (gaps_spans Chunk.ins [] lead cs).symm

/-- `diffGroups` returns, and its groups are an edit script of the two sides. -/
theorem diffGroups_editScript [DecidableEq α] (ka kb : List α) :
    ∃gs,diffGroups ka kb=some gs ∧ EditScript ka kb gs := by
  obtain ⟨lead,cs,hgroups,rfl,rfl,hproper⟩ := diffGroups_spec ka kb
  exact ⟨_,hgroups,editScript_groupsOf hproper⟩

end

section
variable {α : Type*}

/-- How many lines the groups take from the old side and put on the new one. -/
def changedLines (gs : List Group) : ℕ := (gs.map fun g => (g.a1-g.a0)+(g.b1-g.b0)).sum

theorem count_kept {c : List Bool} (h : c.length=k.length) :
    (kept c k).length+c.count true=k.length := by
  induction c generalizing k with
  | nil => simpa using h
  | cons x c ih =>
    obtain ⟨y,k,rfl⟩ := exists_cons_of_length_eq_add_one h.symm
    have := ih (k := k) (by simpa using h)
    cases x <;> simp [kept] <;> omega

theorem count_eq_of_kept {c c' : List Bool} (h : c.length=k.length)
    (h' : c'.length=k.length) (hk : kept c' k=kept c k) : c'.count true=c.count true := by
  have h₁ := count_kept h
  have h₂ := count_kept h'
  rw [hk] at h₂
  omega

theorem markChanged_count {i j : ℕ} {ca cb ca' cb' : List Bool}
    (h : markChanged ops i j ca cb=some (ca',cb')) :
    ca'.count true+cb'.count true≤ca.count true+cb.count true+cost ops := by
  fun_induction markChanged with grind [cost]

theorem count_run (c : List Bool) :
    (c.takeWhile id).length+(c.drop (c.takeWhile id).length).count true=c.count true := by
  obtain ⟨c',hc,-⟩ := leading_run c
  generalize (c.takeWhile id).length=t at hc ⊢
  simp [hc]

theorem pairGroups_changed {fuel i j : ℕ} {ca cb : List Bool} {gs : List Group}
    (h : pairGroups fuel i j ca cb=some gs) : changedLines gs=ca.count true+cb.count true := by
  induction fuel generalizing i j ca cb gs with
  | zero => cases h
  | succ fuel ih =>
    rw [pairGroups] at h
    split at h
    · cases h
      simp_all [changedLines]
    split at h
    · obtain ⟨gs,hgs,⟨⟩⟩ := Option.bind_eq_some_iff.mp h
      have := ih hgs
      have ha := count_run ca
      have hb := count_run cb
      simp only [changedLines,map_cons,sum_cons] at this ⊢
      omega
    · rw [ih h]
      cases ca <;> cases cb <;> simp_all

/-- The groups of `diffGroups` change as few lines as can be: no more than are left of anything the
sides have in common. -/
theorem diffGroups_fewest [DecidableEq α] (ka kb : List α) :
    ∃gs,diffGroups ka kb=some gs ∧ ∀s : List α,s.Sublist ka→s.Sublist kb→
      changedLines gs+2*s.length≤ka.length+kb.length := by
  obtain ⟨ops,hops,hedits,hcost⟩ := myersOps_spec ka kb
  obtain ⟨ca,cb,hca,hcb,hk,hm⟩ := markChanged_spec hedits [] []
  obtain ⟨ca',hsa,hca',hka⟩ := slideDown_spec ka ca hca
  obtain ⟨cb',hsb,hcb',hkb⟩ := slideDown_spec kb cb hcb
  obtain ⟨lead,cs,hp,-⟩ := pairGroups_spec (ka.length+kb.length+1) 0 0
    ca' cb' ka kb hca' hcb' (by rw [hka,hkb,hk]) (by omega)
  simp only [nil_append,length_nil] at hm
  refine ⟨groupsOf 0 0 lead cs,by simp [diffGroups,hops,hm,hsa,hsb,hp],fun s hs hs' => ?_⟩
  obtain ⟨c,hscript,hc⟩ := script_of_common hs hs'
  have hle := hscript.dist_le
  have hmark := markChanged_count hm
  rw [pairGroups_changed hp,count_eq_of_kept hca hca' hka,count_eq_of_kept hcb hcb' hkb]
  simp only [count_replicate,beq_iff_eq,Bool.false_eq_true,if_false] at hmark
  omega

end

end Coreutils.DiffGroups
