import Mathlib.Data.List.Basic
import Mathlib.Logic.Relation

/-!
# Read-modify-write processes on one store

Each process loads the store, computes a new one and saves it, or ends without saving; some hold a
lock meanwhile. The steps interleave. If every save finds the store as its process has loaded it,
the processes can be put in an order in which executing them one after another gives the same store
and the same reads. Under the lock alone every save is of that kind.
-/

namespace Coreutils.Transactions
open Function List

variable {ι σ : Type*}

/-- Which processes take the lock, and what each saves after it has read a store. -/
structure System (ι σ : Type*) where
  locked : ι→Bool
  tx : ι→σ→Option σ

/-- Where a process is; `snap` is the store that it has read. -/
inductive Local (σ : Type*) where
  | start
  | holding
  | loaded (snap : σ)
  | saved (snap : σ)
  | done (snap : σ)

structure State (ι σ : Type*) where
  store : σ
  lock : Option ι
  locals : ι→Local σ

def initial (store : σ) : State ι σ := ⟨store,none,fun _ => .start⟩

section
variable [DecidableEq ι] (sys : System ι σ)

inductive Step : State ι σ→State ι σ→Prop
  | acquire {s} (p : ι) (hl : sys.locked p=true) (hp : s.locals p=.start)
      (hfree : s.lock=none) :
      Step s { s with lock := some p,locals := update s.locals p .holding }
  | load {s} (p : ι) (hp : s.locals p=if sys.locked p then .holding else .start) :
      Step s { s with locals := update s.locals p (.loaded s.store) }
  | save {s snap new} (p : ι) (hp : s.locals p=.loaded snap) (ht : sys.tx p snap=some new) :
      Step s { s with store := new,locals := update s.locals p (.saved snap) }
  | abort {s snap} (p : ι) (hp : s.locals p=.loaded snap) (ht : sys.tx p snap=none) :
      Step s { s with locals := update s.locals p (.saved snap) }
  | finish {s snap} (p : ι) (hp : s.locals p=.saved snap) :
      Step s { s with
        lock := if sys.locked p then none else s.lock
        locals := update s.locals p (.done snap) }

/-- A step in which a process that saves finds the store as it has loaded it. -/
structure FreshStep (s s' : State ι σ) : Prop where
  step : Step sys s s'
  fresh : ∀p snap,s.locals p=.loaded snap→s'.locals p=.saved snap→
    (sys.tx p snap).isSome=true→snap=s.store

def serial (order : List ι) (store : σ) : σ :=
  order.foldl (fun st p => (sys.tx p st).getD st) store

omit [DecidableEq ι] in
theorem serial_append (order order' : List ι) (store : σ) :
    serial sys (order++order') store=serial sys order' (serial sys order store) :=
  foldl_append

def Committed (s : State ι σ) (p : ι) (snap : σ) : Prop :=
  match s.locals p with
  | .loaded snap' => sys.tx p snap'=none ∧ snap'=snap
  | .saved snap' | .done snap' => snap'=snap
  | _ => False

/-- An order of the processes so far that explains the store and what each has read. -/
structure Serialised (store₀ : σ) (s : State ι σ) (order : List ι) : Prop where
  nodup : order.Nodup
  mem : ∀p,p∈order ↔ ∃snap,Committed sys s p snap
  store : s.store=serial sys order store₀
  reads : ∀p snap,Committed sys s p snap→
    ∃pre post,order=pre++p::post ∧ snap=serial sys pre store₀

variable {sys} {store₀ : σ} {s s' : State ι σ} {order : List ι} {p : ι} {l : Local σ}
  {lock : Option ι}

theorem committed_update_of_ne {s : State ι σ} {q : ι} {store : σ} {snap : σ} (h : q≠p) :
    Committed sys ⟨store,lock,update s.locals p l⟩ q snap ↔ Committed sys s q snap := by
  simp [Committed,update_of_ne h]

section
variable (h : Serialised sys store₀ s order)
include h

/-- A process that moves without having its effect now. -/
theorem Serialised.keep
    (hp : ∀snap,Committed sys ⟨s.store,lock,update s.locals p l⟩ p snap ↔ Committed sys s p snap) :
    Serialised sys store₀ ⟨s.store,lock,update s.locals p l⟩ order := by
  have hiff : ∀q snap,Committed sys ⟨s.store,lock,update s.locals p l⟩ q snap ↔
      Committed sys s q snap := by
    intro q snap
    by_cases hq : q=p
    · rw [hq]
      exact hp snap
    · exact committed_update_of_ne hq
  refine ⟨h.nodup,?_,h.store,?_⟩
  · intro q
    simp [h.mem q,hiff]
  · intro q snap hq
    exact h.reads q snap ((hiff q snap).mp hq)

/-- A process that has its effect now comes last in the order. -/
theorem Serialised.commit {store : σ} (hnot : ∀snap,¬ Committed sys s p snap)
    (hp : ∀snap,Committed sys ⟨store,lock,update s.locals p l⟩ p snap ↔ snap=s.store)
    (hstore : store=(sys.tx p s.store).getD s.store) :
    Serialised sys store₀ ⟨store,lock,update s.locals p l⟩ (order++[p]) := by
  have hnew : p∉order := fun hmem => by
    obtain ⟨snap,hsnap⟩ := (h.mem p).mp hmem
    exact hnot snap hsnap
  refine ⟨?_,?_,?_,?_⟩
  · rw [nodup_append]
    refine ⟨h.nodup,by simp,?_⟩
    rintro a ha b hb rfl
    exact hnew (mem_singleton.mp hb ▸ ha)
  · intro q
    by_cases hq : q=p
    · subst hq
      simp only [mem_append,mem_singleton,or_true,true_iff]
      exact ⟨s.store,(hp s.store).mpr rfl⟩
    · simp [hq,h.mem q,committed_update_of_ne hq]
  · rw [serial_append,←h.store]
    exact hstore
  · intro q snap hq
    by_cases hqp : q=p
    · subst hqp
      exact ⟨order,[],rfl,((hp snap).mp hq).trans h.store⟩
    · obtain ⟨pre,post,rfl,hsnap⟩ := h.reads q snap ((committed_update_of_ne hqp).mp hq)
      exact ⟨pre,post++[p],by simp,hsnap⟩

theorem Serialised.step (hs : FreshStep sys s s') : ∃order',Serialised sys store₀ s' order' := by
  have hfresh := hs.fresh
  cases hs.step with
  | acquire p hl hp hfree =>
    exact ⟨order,h.keep fun snap => by simp [Committed,hp]⟩
  | load p hp =>
    have hnot : ∀snap,¬ Committed sys s p snap := by
      intro snap
      simp only [Committed,hp]
      cases sys.locked p <;> simp
    cases ht : sys.tx p s.store with
    | none =>
      refine ⟨order++[p],h.commit hnot ?_ (by simp [ht])⟩
      intro snap
      simp [Committed,ht,eq_comm]
    | some new =>
      refine ⟨order,h.keep ?_⟩
      intro snap
      simp only [hnot]
      simp [Committed,ht]
  | @save snap new p hp ht =>
    have hsnap : snap=s.store := hfresh p snap hp (by simp) (by simp [ht])
    have hnot : ∀snap',¬ Committed sys s p snap' := by
      intro snap'
      simp [Committed,hp,ht]
    refine ⟨order++[p],h.commit hnot ?_ ?_⟩
    · intro snap'
      simp [Committed,hsnap,eq_comm]
    · rw [←hsnap,ht]
      rfl
  | abort p hp ht =>
    exact ⟨order,h.keep fun snap' => by simp [Committed,hp,ht]⟩
  | finish p hp =>
    exact ⟨order,h.keep fun snap' => by simp [Committed,hp]⟩

end

/-- A run in which every save finds the store as its process has loaded it. -/
theorem exists_serialised (h : Relation.ReflTransGen (FreshStep sys) (initial store₀) s) :
    ∃order,Serialised sys store₀ s order := by
  induction h with
  | refl =>
    refine ⟨[],nodup_nil,?_,rfl,?_⟩
    · simp [Committed,initial]
    · intro p snap hp
      simp [Committed,initial] at hp
  | tail _ hs ih =>
    obtain ⟨order,ho⟩ := ih
    exact ho.step hs

omit [DecidableEq ι] in
/-- Of two processes so far, one has read what the other left, after others between them. -/
theorem Serialised.ordered {q : ι} {sp sq : σ} (h : Serialised sys store₀ s order)
    (hp : Committed sys s p sp) (hq : Committed sys s q sq) (hne : p≠q) :
    (∃a b c,order=a++p::b++q::c ∧ sp=serial sys a store₀ ∧ sq=serial sys (a++p::b) store₀) ∨
    ∃a b c,order=a++q::b++p::c ∧ sq=serial sys a store₀ ∧ sp=serial sys (a++q::b) store₀ := by
  obtain ⟨a,a',ha,hsp⟩ := h.reads p sp hp
  obtain ⟨b,b',hb,hsq⟩ := h.reads q sq hq
  have hnd := h.nodup
  have hbmem : q∉b ∧ q∉b' := by
    rw [hb,nodup_append,nodup_cons] at hnd
    exact ⟨fun hm => hnd.2.2 q hm q (by simp) rfl,hnd.2.1.1⟩
  have hmem : q∈a ∨ q∈a' := by
    have : q∈a++p::a' := by rw [←ha,hb]; simp
    simpa [Ne.symm hne] using this
  rcases hmem with hmem | hmem
  · right
    obtain ⟨u,v,rfl⟩ := append_of_mem hmem
    refine ⟨u,v,a',ha,?_,hsp⟩
    have huv : b++q::b'=u++q::(v++p::a') := by rw [←hb,ha]; simp
    rw [hsq,((append_cons_inj_of_notMem hbmem.1 hbmem.2).mp huv).1]
  · left
    obtain ⟨u,v,rfl⟩ := append_of_mem hmem
    refine ⟨a,u,v,by rw [ha]; simp,hsp,?_⟩
    have huv : b++q::b'=(a++p::u)++q::v := by rw [←hb,ha]; simp
    rw [hsq,((append_cons_inj_of_notMem hbmem.1 hbmem.2).mp huv).1]

/-- With the lock, a process that has loaded the store still finds it as it was. -/
structure Exclusive (s : State ι σ) : Prop where
  lock : ∀p,s.lock=some p ↔
    s.locals p=.holding ∨ (∃snap,s.locals p=.loaded snap) ∨ ∃snap,s.locals p=.saved snap
  fresh : ∀p snap,s.locals p=.loaded snap→snap=s.store

theorem Exclusive.step (hall : ∀p,sys.locked p=true) (h : Exclusive s) (hs : Step sys s s') :
    Exclusive s' := by
  -- a process in a step holds the lock, so that the others are at their start or done
  have hother : ∀{p},s.lock=some p→∀{q},q≠p→∀snap,s.locals q≠.loaded snap := by
    intro p hp q hq snap hl
    have := (h.lock q).mpr (.inr (.inl ⟨snap,hl⟩))
    rw [hp,Option.some.injEq] at this
    exact hq this.symm
  have hmove : ∀{p : ι} {l : Local σ} {store : σ},s.lock=some p→
      (l=.holding ∨ (∃snap,l=.loaded snap) ∨ ∃snap,l=.saved snap)→
      (∀snap,l=.loaded snap→snap=store)→
      Exclusive ⟨store,s.lock,update s.locals p l⟩ := by
    intro p l store hp hl hsnap
    refine ⟨?_,?_⟩
    · intro q
      by_cases hq : q=p
      · subst hq
        simpa [hp] using hl
      · simpa [update_of_ne hq] using h.lock q
    · intro q snap hq
      by_cases hqp : q=p
      · subst hqp
        exact hsnap snap (by simpa using hq)
      · exact absurd (by simpa [update_of_ne hqp] using hq) (hother hp hqp snap)
  cases hs with
  | acquire p hl hp hfree =>
    have hnone : ∀q,¬ (s.locals q=.holding ∨ (∃snap,s.locals q=.loaded snap) ∨
        ∃snap,s.locals q=.saved snap) := by
      intro q hq
      have := (h.lock q).mpr hq
      rw [hfree] at this
      cases this
    refine ⟨?_,?_⟩
    · intro q
      by_cases hq : q=p
      · subst hq
        simp
      · have hpq : ¬ p=q := fun h => hq h.symm
        simpa [update_of_ne hq,hpq] using hnone q
    · intro q snap hq
      by_cases hqp : q=p
      · subst hqp
        simp at hq
      · exact absurd (.inr (.inl ⟨snap,by simpa [update_of_ne hqp] using hq⟩)) (hnone q)
  | load p hp =>
    rw [hall p] at hp
    exact hmove ((h.lock p).mpr (.inl hp)) (.inr (.inl ⟨_,rfl⟩)) (by simp)
  | save p hp ht =>
    exact hmove ((h.lock p).mpr (.inr (.inl ⟨_,hp⟩))) (.inr (.inr ⟨_,rfl⟩)) (by simp)
  | abort p hp ht =>
    exact hmove ((h.lock p).mpr (.inr (.inl ⟨_,hp⟩))) (.inr (.inr ⟨_,rfl⟩)) (by simp)
  | finish p hp =>
    have hlock := (h.lock p).mpr (.inr (.inr ⟨_,hp⟩))
    refine ⟨?_,?_⟩
    · intro q
      simp only [hall p,if_true,reduceCtorEq,false_iff]
      by_cases hq : q=p
      · subst hq
        simp
      · intro hl
        have := (h.lock q).mpr (by simpa [update_of_ne hq] using hl)
        rw [hlock,Option.some.injEq] at this
        exact hq this.symm
    · intro q snap hq
      by_cases hqp : q=p
      · subst hqp
        simp at hq
      · exact h.fresh q snap (by simpa [update_of_ne hqp] using hq)

/-- If all processes take the lock, every run is one of fresh saves. -/
theorem fresh_of_locked (hall : ∀p,sys.locked p=true)
    (h : Relation.ReflTransGen (Step sys) (initial store₀) s) :
    Relation.ReflTransGen (FreshStep sys) (initial store₀) s := by
  suffices hboth : Relation.ReflTransGen (FreshStep sys) (initial store₀) s ∧ Exclusive s from
    hboth.1
  induction h with
  | refl => exact ⟨.refl,⟨by simp [initial],by simp [initial]⟩⟩
  | tail _ hs ih =>
    exact ⟨ih.1.tail ⟨hs,fun p snap hp _ _ => ih.2.fresh p snap hp⟩,ih.2.step hall hs⟩

end

end Coreutils.Transactions
