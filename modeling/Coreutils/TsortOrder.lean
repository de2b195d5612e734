import Coreutils.TsortGraph
import Mathlib.Data.List.GetD

/-!
# tsort sorts and breaks loops

The counts of incoming edges stay exact through any number of loops, so the frontier is always the
set of nodes whose predecessors are written, and at a stall every node left has a predecessor left:
the search then finds a loop.
-/

namespace Coreutils.TsortOrder
open Function List GoText CycleSearch TsortGraph

/-- A graph none of whose nodes is written, with the edges `E` between names. -/
structure Wired (g : Graph) (E : Multiset (Bytes×Bytes)) : Prop where
  nodup : g.names.Nodup
  bound : ∀u v,v∈g.succ u→u<g.names.length ∧ v<g.names.length
  indeg : ∀v,g.indeg v=load g.names.length g.succ g.done v
  done : ∀v,g.done v=false
  named : (edges g.names.length g.succ).map (Prod.map g.name g.name)=E

variable {g g₀ : Graph} {s : State} {id u v : ℕ} {heap : List ℕ} {removed : List (ℕ×ℕ)}
  {E : Multiset (Bytes×Bytes)}

theorem name_eq_getElem (h : id<g.names.length) : g.name id=g.names[id] := by
  rw [Graph.name,getD_eq_getElem _ _ h]

theorem name_injective (hnd : g.names.Nodup) (hu : u<g.names.length)
    (hv : v<g.names.length) (h : g.name u=g.name v) : u=v := by
  rw [name_eq_getElem hu,name_eq_getElem hv] at h
  exact (List.Nodup.getElem_inj_iff hnd).mp h

theorem succ_eq_nil (h : Wired g E) (hu : g.names.length≤u) : g.succ u=[] := by
  refine eq_nil_iff_forall_not_mem.mpr fun v hv => ?_
  have := (h.bound u v hv).1
  omega

theorem wired_empty : Wired {} 0 where
  nodup := .nil
  bound _ _ h := absurd h not_mem_nil
  indeg _ := rfl
  done _ := rfl
  named := rfl

theorem Wired.extend (h : Wired g E) {name : Bytes}
    (hnew : name∉g.names) : Wired { g with names := g.names++[name] } E where
  nodup := (perm_append_singleton name _).nodup_iff.mpr (nodup_cons.mpr ⟨hnew,h.nodup⟩)
  bound u v hv := by
    have := h.bound u v hv
    simp only [length_append]
    omega
  indeg v := by
    rw [h.indeg,load,load,length_append,length_singleton,Finset.range_add_one,
      Finset.filter_insert,if_pos (h.done _),Finset.sum_insert (by simp),
      succ_eq_nil h le_rfl,count_nil,zero_add]
  done := h.done
  named := by
    have hedges : edges (g.names++[name]).length g.succ=edges g.names.length g.succ := by
      rw [edges,length_append,length_singleton,Finset.sum_range_succ,succ_eq_nil h le_rfl]
      exact add_zero _
    refine (congrArg _ hedges).trans ((Multiset.map_congr rfl fun e he => ?_).trans h.named)
    obtain ⟨hu,hv⟩ := mem_edges.mp he
    have hv := (h.bound _ _ hv).2
    simp only [Prod.map,Graph.name,getD_append _ _ _ _ hu,getD_append _ _ _ _ hv]

theorem addNode_spec (h : Wired g E) (name : Bytes) :
    Wired (g.addNode name).1 E ∧ g.names <+: (g.addNode name).1.names ∧
      (∀t,t∈(g.addNode name).1.names ↔ t∈g.names ∨ t=name) ∧
      (g.addNode name).2<(g.addNode name).1.names.length ∧
      (g.addNode name).1.name (g.addNode name).2=name := by
  unfold Graph.addNode
  split_ifs with hmem
  · have hlt := idxOf_lt_length_of_mem hmem
    refine ⟨h,prefix_refl _,fun t => (or_iff_left_of_imp ?_).symm,hlt,?_⟩
    · rintro rfl
      exact hmem
    · rw [name_eq_getElem hlt,getElem_idxOf]
  · refine ⟨h.extend hmem,prefix_append _ _,by simp,by simp,?_⟩
    simp [Graph.name]

theorem name_of_isPrefix (h : g.names <+: g₀.names) (hu : u<g.names.length) :
    g₀.name u=g.name u := by
  obtain ⟨rest,hrest⟩ := h
  rw [Graph.name,Graph.name,←hrest,getD_append _ _ _ _ hu]

theorem Wired.link (h : Wired g E) (hu : u<g.names.length) (hv : v<g.names.length) :
    Wired (g.link u v) ((g.name u,g.name v) ::ₘ E) where
  nodup := h.nodup
  bound a b hb := by
    by_cases ha : a=u
    · subst ha
      refine ⟨hu,?_⟩
      simp only [Graph.link,update_self,mem_append,mem_singleton] at hb
      rcases hb with hb | rfl
      · exact (h.bound a b hb).2
      · exact hv
    · simp only [Graph.link,update_of_ne ha] at hb
      exact h.bound a b hb
  indeg w := by
    have hload := @load_update _ g.succ _ _ hu (h.done u) (g.succ u++[v]) w
    rw [count_append,count_singleton] at hload
    by_cases hw : w=v
    · subst hw
      simp only [Graph.link,update_self,h.indeg]
      rw [beq_self_eq_true,if_pos rfl] at hload
      omega
    · simp only [Graph.link,update_of_ne hw,h.indeg]
      rw [if_neg (by simpa using Ne.symm hw)] at hload
      omega
  done := h.done
  named := by
    have hedges := @edges_update _ g.succ _ hu (g.succ u++[v])
    have hcons : edges g.names.length (update g.succ u (g.succ u++[v])) =
        (u,v) ::ₘ edges g.names.length g.succ := by
      rw [←Multiset.coe_add,Multiset.map_add,←add_assoc,add_right_comm] at hedges
      rw [add_right_cancel hedges,add_comm]
      rfl
    refine (congrArg (Multiset.map (Prod.map g.name g.name)) hcons).trans ?_
    rw [Multiset.map_cons,h.named]
    rfl

def links (pairs : List (Bytes×Bytes)) : List (Bytes×Bytes) := pairs.filter fun p => p.1≠p.2

theorem links_concat (pairs : List (Bytes×Bytes)) (p : Bytes×Bytes) :
    links (pairs++[p])=if p.1=p.2 then links pairs else links pairs++[p] := by
  rw [links,filter_append,←links]
  split_ifs with h <;> simp [h]

/-- The graph read has the tokens as its nodes and the pairs of different tokens as edges. -/
theorem readPairs_spec (pairs : List (Bytes×Bytes)) : Wired (readPairs pairs) (links pairs) ∧
      ∀t,t∈(readPairs pairs).names ↔ ∃p∈pairs,t=p.1 ∨ t=p.2 := by
  induction pairs using reverseRecOn with
  | nil => exact ⟨wired_empty,by simp [readPairs]⟩
  | append_singleton pairs p ih =>
    obtain ⟨hwired,hmem⟩ := ih
    obtain ⟨hwired₁,hpre₁,hmem₁,hlt₁,hname₁⟩ := addNode_spec hwired p.1
    obtain ⟨hwired₂,hpre₂,hmem₂,hlt₂,hname₂⟩ := addNode_spec hwired₁ p.2
    have hread : readPairs (pairs++[p]) =
        if p.1=p.2 then ((readPairs pairs).addNode p.1).1
        else (readPairs pairs).addEdge p.1 p.2 := by
      rw [readPairs,foldl_append]
      rfl
    rw [hread,links_concat]
    split_ifs with heq
    · refine ⟨hwired₁,fun t => ?_⟩
      rw [hmem₁,hmem]
      simp [heq]
    have hlt₁' := hlt₁.trans_le hpre₂.length_le
    have hlinked := hwired₂.link hlt₁' hlt₂
    rw [name_of_isPrefix hpre₂ hlt₁,hname₁,hname₂] at hlinked
    refine ⟨?_,fun t => ?_⟩
    · have hcons : ((links pairs++[p] : List (Bytes×Bytes)) : Multiset (Bytes×Bytes)) =
          (p.1,p.2) ::ₘ links pairs := by
        rw [←Multiset.coe_add,add_comm,Multiset.coe_singleton,Multiset.singleton_add]
      exact hcons ▸ hlinked
    · have hnames : ((readPairs pairs).addEdge p.1 p.2).names =
          (((readPairs pairs).addNode p.1).1.addNode p.2).1.names := rfl
      rw [hnames,hmem₂,hmem₁,hmem]
      simp [or_assoc]

def Respects (succ : ℕ→List ℕ) (out : List ℕ) : Prop :=
  ∀pre v post,out=pre++v::post→∀u,v∈succ u→u∈pre

/-- Every node has the least name among those whose predecessors stand before it. -/
def Least (g : Graph) (out : List ℕ) : Prop :=
  ∀pre v post,out=pre++v::post→∀w<g.names.length,w∉pre→
    (∀u,w∈g.succ u→u∈pre)→¬ g.name w<g.name v

/-- The state of `topoSort` on `g₀`; `removed` are the edges that closed the loops. -/
structure Sorting (g₀ : Graph) (removed : List (ℕ×ℕ)) (s : State) : Prop where
  names : s.g.names=g₀.names
  bound : ∀u v,v∈s.g.succ u→u<g₀.names.length ∧ v<g₀.names.length
  edges : edges g₀.names.length s.g.succ+removed=TsortGraph.edges g₀.names.length g₀.succ
  closes : List.Forall₂ (fun c e => c.getLast?=some e.1 ∧ c.head?=some e.2) s.loops removed
  loops : ∀c∈s.loops,Cycle g₀.succ (fun _ => false) c
  nodup : s.out.Nodup
  done : ∀v,s.g.done v=true ↔ v∈s.out
  out_lt : ∀v∈s.out,v<g₀.names.length
  remaining : s.remaining+s.out.length=g₀.names.length
  indeg : ∀v,s.g.done v=false→s.g.indeg v=load g₀.names.length s.g.succ s.g.done v
  nodup_heap : s.heap.Nodup
  heap : ∀v,v∈s.heap ↔ v<g₀.names.length ∧ s.g.done v=false ∧ s.g.indeg v=0
  respects : Respects s.g.succ s.out
  least : s.loops=[]→Least g₀ s.out

theorem sorting_start (h : Wired g E) : Sorting g [] g.start where
  names := rfl
  bound := h.bound
  edges := add_zero _
  closes := .nil
  loops c hc := absurd hc not_mem_nil
  nodup := .nil
  done v := by simp [Graph.start,h.done]
  out_lt v hv := absurd hv not_mem_nil
  remaining := rfl
  indeg v _ := h.indeg v
  nodup_heap := nodup_range.filter _
  heap v := by simp [Graph.start,h.done]
  respects pre v post hout := by simp [Graph.start] at hout
  least _ pre v post hout := by simp [Graph.start] at hout

theorem least_eq_none (h : g.least heap=none) : heap=[] := by
  cases heap with
  | nil => rfl
  | cons id ids =>
    rw [Graph.least] at h
    split at h
    · cases h
    · split at h <;> cases h

theorem least_eq_some (h : g.least heap=some id) : id∈heap ∧ ∀w∈heap,¬ g.name w<g.name id := by
  induction heap generalizing id with
  | nil => cases h
  | cons a ids ih =>
    rw [Graph.least] at h
    split at h
    · rename_i hnone
      cases h
      obtain rfl := least_eq_none hnone
      simp
    · rename_i best hbest
      obtain ⟨hmem,hleast⟩ := ih hbest
      split at h
      · rename_i hlt
        cases h
        exact ⟨mem_cons_of_mem a hmem,forall_mem_cons.mpr
          ⟨fun hlt' => List.lt_irrefl _ (List.lt_trans hlt hlt'),hleast⟩⟩
      · rename_i hnlt
        cases h
        exact ⟨mem_cons_self,forall_mem_cons.mpr
          ⟨List.lt_irrefl _,fun w hw => List.le_trans hnlt (hleast w hw)⟩⟩

/-- Where an element stands in a list with one more at its end. -/
theorem concat_eq_append_cons {out pre post : List ℕ} {x : ℕ} (h : out++[x]=pre++v::post) :
    pre=out ∧ v=x ∨ ∃post',out=pre++v::post' := by
  rcases eq_nil_or_concat' post with rfl | ⟨post',y,rfl⟩
  · obtain ⟨rfl,hv⟩ := append_inj' h rfl
    exact .inl ⟨rfl,by simpa using hv.symm⟩
  · rw [←cons_append,←append_assoc] at h
    exact .inr ⟨post',(append_inj' h rfl).1⟩

theorem size_eq_cost (g : Graph) : g.size=cost g.succ g.names.length (fun _ => .white) [] := by
  have hsum : g.size=∑ v∈Finset.range g.names.length,((g.succ v).length+1) := rfl
  simp [hsum,cost]

theorem size_eq_card (g : Graph) :
    g.size=g.names.length+(TsortGraph.edges g.names.length g.succ).card := by
  have hsum : g.size=∑ v∈Finset.range g.names.length,((g.succ v).length+1) := rfl
  simp [hsum,TsortGraph.edges,Finset.sum_add_distrib,add_comm]

section
variable (h : Sorting g₀ removed s)
include h

theorem Sorting.name : s.g.name=g₀.name := by
  unfold Graph.name
  rw [h.names]

theorem Sorting.succ_subset (hv : v∈s.g.succ u) : v∈g₀.succ u := by
  have hmem : (u,v)∈TsortGraph.edges g₀.names.length s.g.succ+(removed : Multiset (ℕ×ℕ)) :=
    Multiset.mem_add.mpr (.inl (mem_edges.mpr ⟨(h.bound u v hv).1,hv⟩))
  rw [h.edges] at hmem
  exact (mem_edges.mp hmem).2

theorem Sorting.live_iff : s.g.done v=false ↔ v∉s.out := by rw [←h.done v,Bool.not_eq_true]

/-- A node that may be written has all its predecessors written. -/
theorem Sorting.pred_done (hv : s.g.done v=false)
    (hzero : s.g.indeg v=0) (hu : v∈s.g.succ u) : u∈s.out := by
  have hload := h.indeg v hv
  rw [hzero] at hload
  by_contra hnot
  exact notMem_succ_of_load (Nat.cast_eq_zero.mp hload.symm) (h.bound u v hu).1
    (h.live_iff.mpr hnot) hu

/-- A node whose predecessors are written is on the frontier. -/
theorem Sorting.mem_heap {w : ℕ} (hw : w<g₀.names.length)
    (hout : w∉s.out) (hpred : ∀u,w∈s.g.succ u→u∈s.out) : w∈s.heap := by
  have hlive := h.live_iff.mpr hout
  refine (h.heap w).mpr ⟨hw,hlive,?_⟩
  rw [h.indeg w hlive,Nat.cast_eq_zero]
  by_contra hne
  obtain ⟨u,-,hu,hmem⟩ := exists_mem_succ_of_load hne
  exact h.live_iff.mp hu (hpred u hmem)

theorem Sorting.length_out {id : ℕ} (hid : id<g₀.names.length)
    (hout : id∉s.out) : s.out.length<g₀.names.length := by
  have hnd : (id::s.out).Nodup := nodup_cons.mpr ⟨hout,h.nodup⟩
  have hsub : id::s.out ⊆ range g₀.names.length :=
    cons_subset.mpr ⟨mem_range.mpr hid,fun v hv => mem_range.mpr (h.out_lt v hv)⟩
  have hlen := (hnd.subperm hsub).length_le
  rwa [length_range] at hlen

/-- Writing the least node of the frontier. -/
theorem Sorting.write {id : ℕ} (hid : s.g.least s.heap=some id) :
    Sorting g₀ removed (s.write id) := by
  obtain ⟨hmem,hleast⟩ := least_eq_some hid
  obtain ⟨hlt,hlive,hzero⟩ := (h.heap id).mp hmem
  have hnotout := h.live_iff.mp hlive
  generalize hdone : update s.g.done id true=done
  have hdone_iff : ∀v,done v=false ↔ v≠id ∧ s.g.done v=false := by
    intro v
    by_cases hv : v=id <;> simp [←hdone,hv]
  have hload : ∀v,load g₀.names.length s.g.succ done v+(s.g.succ id).count v =
      load g₀.names.length s.g.succ s.g.done v := fun v => hdone ▸ load_done hlt hlive v
  have hcount : ∀v,done v=false→((s.g.succ id).count v : ℤ) ≤ s.g.indeg v := by
    intro v hv
    rw [h.indeg v ((hdone_iff v).mp hv).2]
    have := hload v
    omega
  have hfrontier : ∀v∈s.heap.erase id,done v=false ∧ s.g.indeg v=0 := by
    intro v hv
    obtain ⟨hne,hv⟩ := h.nodup_heap.mem_erase_iff.mp hv
    obtain ⟨-,hvlive,hvzero⟩ := (h.heap v).mp hv
    exact ⟨(hdone_iff v).mpr ⟨hne,hvlive⟩,hvzero⟩
  obtain ⟨hindeg,hnd,hheap⟩ := release_spec hcount hfrontier (h.nodup_heap.erase id)
  rw [State.write,hdone]
  refine ⟨h.names,h.bound,h.edges,h.closes,h.loops,?_,fun v => ?_,?_,?_,fun v hv => ?_,hnd,
    fun v => ?_,?_,fun hloops => ?_⟩
  · exact (perm_append_singleton id _).nodup_iff.mpr (nodup_cons.mpr ⟨hnotout,h.nodup⟩)
  · rw [mem_append,←h.done v]
    by_cases hv : v=id <;> simp [←hdone,hv]
  · exact forall_mem_append.mpr ⟨h.out_lt,forall_mem_singleton.mpr hlt⟩
  · have hrem := h.remaining
    have hlen := h.length_out hlt hnotout
    simp only [length_append,length_singleton]
    omega
  · simp only
    rw [hindeg v hv,h.indeg v ((hdone_iff v).mp hv).2]
    have := hload v
    omega
  · simp only
    rw [hheap v,h.nodup_heap.mem_erase_iff,h.heap v]
    constructor
    · rintro (⟨hne,hvlt,hvlive,hvzero⟩ | ⟨hvdone,hvmem,hvcount⟩)
      · have hvdone := (hdone_iff v).mpr ⟨hne,hvlive⟩
        have := hcount v hvdone
        exact ⟨hvlt,hvdone,by rw [hindeg v hvdone]; omega⟩
      · exact ⟨(h.bound id v hvmem).2,hvdone,by rw [hindeg v hvdone]; omega⟩
    · rintro ⟨hvlt,hvdone,hvzero⟩
      rw [hindeg v hvdone] at hvzero
      by_cases hvmem : v∈s.g.succ id
      · exact .inr ⟨hvdone,hvmem,by omega⟩
      · rw [count_eq_zero.mpr hvmem] at hvzero
        obtain ⟨hne,hvlive⟩ := (hdone_iff v).mp hvdone
        exact .inl ⟨hne,hvlt,hvlive,by omega⟩
  · intro pre v post hout u hu
    rcases concat_eq_append_cons hout with ⟨rfl,rfl⟩ | ⟨post',hout⟩
    · exact h.pred_done hlive hzero hu
    · exact h.respects pre v post' hout u hu
  · intro pre v post hout w hw hwpre hwpred
    rcases concat_eq_append_cons hout with ⟨rfl,rfl⟩ | ⟨post',hout⟩
    · have hwheap := h.mem_heap hw hwpre fun u hu => hwpred u (h.succ_subset hu)
      exact h.name ▸ hleast w hwheap
    · exact h.least hloops pre v post' hout w hw hwpre hwpred

/-- Removing the edge that closes a loop. -/
theorem Sorting.breakLoop (hheap : s.heap=[]) {c : List ℕ}
    (hc : Cycle s.g.succ s.g.done c) (hu : c.getLast?=some u) (hv : c.head?=some v)
    (huv : v∈s.g.succ u) : Sorting g₀ (removed++[(u,v)]) (s.breakLoop c u v) := by
  have hulive := hc.live u (mem_of_getLast? hu)
  have hvlive := hc.live v (mem_of_head? hv)
  obtain ⟨hult,hvlt⟩ := h.bound u v huv
  have hremove : s.g.removeEdge u v =
      { s.g with
        succ := update s.g.succ u ((s.g.succ u).erase v)
        indeg := update s.g.indeg v (s.g.indeg v-1) } := if_pos huv
  have hsub : ∀a b,b∈update s.g.succ u ((s.g.succ u).erase v) a → b∈s.g.succ a := by
    intro a b hb
    by_cases ha : a=u
    · subst ha
      rw [update_self] at hb
      exact mem_of_mem_erase hb
    · rwa [update_of_ne ha] at hb
  have hindeg : ∀w,s.g.done w=false→update s.g.indeg v (s.g.indeg v-1) w =
      load g₀.names.length (update s.g.succ u ((s.g.succ u).erase v)) s.g.done w := by
    intro w hw
    have hload := @load_update _ s.g.succ _ _ hult hulive ((s.g.succ u).erase v) w
    have hold := h.indeg w hw
    by_cases hwv : w=v
    · subst hwv
      have hpos := count_pos_iff.mpr huv
      rw [count_erase_self] at hload
      rw [update_self]
      omega
    · rw [count_erase_of_ne hwv] at hload
      rw [update_of_ne hwv]
      omega
  have hstate : s.breakLoop c u v =
      { s with
        g := { s.g with
          succ := update s.g.succ u ((s.g.succ u).erase v)
          indeg := update s.g.indeg v (s.g.indeg v-1) }
        heap := if s.g.indeg v-1=0 then [v] else []
        loops := s.loops++[c] } := by
    simp [State.breakLoop,hremove,hheap]
  rw [hstate]
  refine ⟨h.names,fun a b hb => h.bound a b (hsub a b hb),?_,?_,?_,h.nodup,h.done,h.out_lt,
    h.remaining,hindeg,?_,fun w => ?_,?_,fun hloops => ?_⟩
  · have hupdate := @edges_update _ s.g.succ _ hult ((s.g.succ u).erase v)
    have hcons : TsortGraph.edges g₀.names.length
        (update s.g.succ u ((s.g.succ u).erase v))+{(u,v)} =
          TsortGraph.edges g₀.names.length s.g.succ := by
      have hperm : ((s.g.succ u : List ℕ) : Multiset ℕ)=v ::ₘ ((s.g.succ u).erase v : List ℕ) :=
        Multiset.coe_eq_coe.mpr (perm_cons_erase huv)
      rw [hperm,Multiset.map_cons,←Multiset.singleton_add,←add_assoc] at hupdate
      exact add_right_cancel hupdate
    rw [←h.edges,←hcons,←Multiset.coe_add]
    abel
  · exact rel_append h.closes (.cons ⟨hu,hv⟩ .nil)
  · obtain ⟨a,b,ha,hb,hab⟩ := hc.closed
    exact forall_mem_append.mpr ⟨h.loops,forall_mem_singleton.mpr
      ⟨fun _ _ => rfl,hc.chain.imp fun _ _ => h.succ_subset,a,b,ha,hb,h.succ_subset hab⟩⟩
  · split_ifs
    · exact nodup_singleton v
    · exact .nil
  · have hempty : ∀w,¬ (w<g₀.names.length ∧ s.g.done w=false ∧ s.g.indeg w=0) := by
      intro w hw
      have := (h.heap w).mpr hw
      simp [hheap] at this
    by_cases hwv : w=v
    · subst hwv
      simp only [hvlt,hvlive]
      split_ifs with hzero <;> simp [hzero]
    · simp only [update_of_ne hwv,hempty w]
      split_ifs <;> simp [hwv]
  · intro pre w post hout a ha
    exact h.respects pre w post hout a (hsub a w ha)
  · simp at hloops

/-- When no node may be written, there is a loop. -/
theorem Sorting.findCycle (hheap : s.heap=[]) (hrem : s.remaining≠0) :
    ∃c,s.g.findCycle=some c ∧ Cycle s.g.succ s.g.done c := by
  have hn : ∀u,∀v∈s.g.succ u,v<s.g.names.length := by
    intro u v hv
    rw [h.names]
    exact (h.bound u v hv).2
  have hfuel : cost s.g.succ s.g.names.length (fun _ => .white) []<s.g.size+1 := by
    rw [size_eq_cost]
    exact Nat.lt_succ_self _
  rcases search_spec hn (fun v hv => mem_range.mp hv)
      (searching_start s.g.succ s.g.done s.g.names.length) hfuel with
    hcycle | ⟨-,fin,hnd,hfin,hlive,hall⟩
  · exact hcycle
  -- the node finished last has a predecessor that is not written
  exfalso
  rw [h.names] at hlive hall
  have hexists : ∃v<g₀.names.length,s.g.done v=false := by
    by_contra hnone
    have hsub : range g₀.names.length ⊆ s.out := by
      intro v hv
      by_contra hv'
      exact hnone ⟨v,mem_range.mp hv,h.live_iff.mpr hv'⟩
    have hlen := (nodup_range.subperm hsub).length_le
    have := h.remaining
    rw [length_range] at hlen
    omega
  obtain ⟨v,hv,hvlive⟩ := hexists
  have hmem := hall v (.inl (mem_range.mpr hv)) hvlive
  match fin,hmem with
  | u::older,_ =>
    obtain ⟨hu,hulive⟩ := hlive u mem_cons_self
    have hload : load g₀.names.length s.g.succ s.g.done u≠0 := by
      intro hzero
      have := (h.heap u).mpr ⟨hu,hulive,by rw [h.indeg u hulive,hzero,Nat.cast_zero]⟩
      simp [hheap] at this
    obtain ⟨w,hw,hwlive,hsucc⟩ := exists_mem_succ_of_load hload
    have hwfin := hall w (.inl (mem_range.mpr hw)) hwlive
    exact not_mem_succ_of_finished hfin hnd hulive hwfin hsucc

/-- The loop ends with every node written, and never takes the fallback branch. -/
theorem topoLoop_spec {fuel : ℕ}
    (hfuel : s.remaining+(TsortGraph.edges g₀.names.length s.g.succ).card<fuel) :
    ∃removed' s',topoLoop fuel s =
        some { out := s'.out.map g₀.name,loops := s'.loops.map (·.map g₀.name) } ∧
      Sorting g₀ removed' s' ∧ s'.remaining=0 := by
  induction fuel generalizing s removed with
  | zero => omega
  | succ fuel ih =>
    rw [topoLoop]
    by_cases hrem : s.remaining=0
    · exact ⟨removed,s,by rw [if_pos hrem,h.name],h,hrem⟩
    rw [if_neg hrem]
    cases hleast : s.g.least s.heap with
    | some id =>
      refine ih (h.write hleast) ?_
      show s.remaining-1+_<fuel
      have hedges : (s.write id).g.succ=s.g.succ := rfl
      rw [hedges]
      omega
    | none =>
      have hheap := least_eq_none hleast
      obtain ⟨c,hfind,hc⟩ := h.findCycle hheap hrem
      obtain ⟨u,v,hu,hv,huv⟩ := hc.closed
      have hnext := h.breakLoop hheap hc hu hv huv
      simp only [hfind,Option.bind_eq_bind,Option.bind_some,hu,hv]
      refine ih hnext ?_
      have hcard := congrArg Multiset.card (hnext.edges.trans h.edges.symm)
      rw [Multiset.card_add,Multiset.card_add,Multiset.coe_card,Multiset.coe_card,
        length_append,length_singleton] at hcard
      show s.remaining+_<fuel
      omega

end

def Edge (pairs : List (Bytes×Bytes)) (a b : Bytes) : Prop := (a,b)∈links pairs

/-- A loop: each token is a successor of the one before it, and the first of the last. -/
def Loop (pairs : List (Bytes×Bytes)) (c : List Bytes) : Prop :=
  c.IsChain (Edge pairs) ∧ ∃a b,c.getLast?=some a ∧ c.head?=some b ∧ Edge pairs a b

def Acyclic (pairs : List (Bytes×Bytes)) : Prop := ∀a,¬ Relation.TransGen (Edge pairs) a a

/-- Always the least token whose predecessors are all written. -/
def LeastFirst (pairs : List (Bytes×Bytes)) (out : List Bytes) : Prop :=
  ∀pre t post,out=pre++t::post→
    (∀a,Edge pairs a t→a∈pre) ∧
      ∀w∈out,w∉pre→(∀a,Edge pairs a w→a∈pre)→¬ w<t

def Before (out : List Bytes) (a b : Bytes) : Prop := ∃pre post,out=pre++b::post ∧ a∈pre

theorem transGen_of_loop {pairs : List (Bytes×Bytes)} {c : List Bytes} (h : Loop pairs c) :
    ∃a,Relation.TransGen (Edge pairs) a a := by
  obtain ⟨hchain,a,b,ha,hb,hab⟩ := h
  match c,hb with
  | b::l,rfl =>
    have hlast : (b::l).getLast (cons_ne_nil b l)=a := (getLast_eq_iff_getLast?_eq_some _).mpr ha
    exact ⟨a,.head' hab (relationReflTransGen_of_exists_isChain_cons l hchain hlast)⟩

section
variable {pairs : List (Bytes×Bytes)} (hwired : Wired g (links pairs))
include hwired

theorem edge_iff {a b : Bytes} : Edge pairs a b ↔ ∃u v,v∈g.succ u ∧ g.name u=a ∧ g.name v=b := by
  rw [Edge,←Multiset.mem_coe,←hwired.named,Multiset.mem_map]
  constructor
  · rintro ⟨e,he,heq⟩
    obtain ⟨rfl,rfl⟩ := Prod.mk.inj heq
    exact ⟨e.1,e.2,(mem_edges.mp he).2,rfl,rfl⟩
  · rintro ⟨u,v,hv,rfl,rfl⟩
    exact ⟨(u,v),mem_edges.mpr ⟨(hwired.bound u v hv).1,hv⟩,rfl⟩

theorem loop_of_cycle {done : ℕ→Bool} {c : List ℕ} (h : Cycle g.succ done c) :
    Loop pairs (c.map g.name) := by
  obtain ⟨u,v,hu,hv,huv⟩ := h.closed
  refine ⟨?_,g.name u,g.name v,?_,?_,(edge_iff hwired).mpr ⟨u,v,huv,rfl,rfl⟩⟩
  · rw [isChain_map]
    exact h.chain.imp fun a b hab => (edge_iff hwired).mpr ⟨a,b,hab,rfl,rfl⟩
  · rw [getLast?_map,hu,Option.map_some]
  · rw [head?_map,hv,Option.map_some]

variable (hs : Sorting g removed s) (hrem : s.remaining=0)
include hs hrem

omit hwired in
theorem mem_out_iff (v : ℕ) : v∈s.out ↔ v<g.names.length := by
  refine ⟨hs.out_lt v,fun hv => ?_⟩
  by_contra hnot
  have := hs.length_out hv hnot
  have := hs.remaining
  omega

omit hrem in
theorem nodup_out : (s.out.map g.name).Nodup := by
  refine hs.nodup.map_on fun u hu v hv heq => ?_
  exact name_injective hwired.nodup (hs.out_lt u hu) (hs.out_lt v hv) heq

omit hwired in
theorem mem_map_out (t : Bytes) : t∈s.out.map g.name ↔ t∈g.names := by
  rw [mem_map]
  constructor
  · rintro ⟨v,hv,rfl⟩
    rw [name_eq_getElem (hs.out_lt v hv)]
    exact getElem_mem _
  · intro ht
    obtain ⟨v,hv,rfl⟩ := getElem_of_mem ht
    exact ⟨v,(mem_out_iff hs hrem v).mpr hv,name_eq_getElem hv⟩

omit hwired in
theorem before_of_mem_succ {u v : ℕ} (hv : v∈s.g.succ u) :
    Before (s.out.map g.name) (g.name u) (g.name v) := by
  obtain ⟨pre,post,hout⟩ :=
    append_of_mem ((mem_out_iff hs hrem v).mpr (hs.bound u v hv).2)
  refine ⟨pre.map g.name,post.map g.name,by rw [hout,map_append,map_cons],?_⟩
  exact mem_map_of_mem (hs.respects pre v post hout u hv)

omit hrem in
/-- Without loops the graph is still the one that was read. -/
theorem leastFirst_of_loops (hloops : s.loops=[]) : LeastFirst pairs (s.out.map g.name) := by
  have hremoved : removed=[] := by
    have hcloses := hs.closes
    rw [hloops] at hcloses
    cases hcloses
    rfl
  have hsucc : ∀u v,v∈g.succ u→v∈s.g.succ u := by
    intro u v hv
    have hedges := hs.edges
    rw [hremoved,Multiset.coe_nil,add_zero] at hedges
    have hmem := mem_edges.mpr (⟨(hwired.bound u v hv).1,hv⟩ : (u,v).1<_ ∧ (u,v).2∈_)
    rw [←hedges] at hmem
    exact (mem_edges.mp hmem).2
  intro pre t post hout
  obtain ⟨pre,rest,hsplit,rfl,hrest⟩ := map_eq_append_iff.mp hout
  obtain ⟨v,post,rfl,rfl,rfl⟩ := map_eq_cons_iff.mp hrest
  have hvlt : v<g.names.length := hs.out_lt v (by rw [hsplit]; simp)
  refine ⟨fun a ha => ?_,fun w hw hpre hpred => ?_⟩
  · obtain ⟨u,v',hv',rfl,heq⟩ := (edge_iff hwired).mp ha
    obtain rfl := name_injective hwired.nodup (hwired.bound u v' hv').2 hvlt heq
    exact mem_map_of_mem (hs.respects pre v' post hsplit u (hsucc u v' hv'))
  obtain ⟨w,hmem,rfl⟩ := mem_map.mp hw
  have hnot : w∉pre := fun hin => hpre (mem_map_of_mem hin)
  refine hs.least hloops pre v post hsplit w (hs.out_lt w hmem) hnot fun u hu => ?_
  obtain ⟨u',hu',heq⟩ := mem_map.mp (hpred (g.name u) ((edge_iff hwired).mpr ⟨u,w,hu,rfl,rfl⟩))
  have hu'lt : u'<g.names.length := hs.out_lt u' (by rw [hsplit]; simp [hu'])
  exact name_injective hwired.nodup hu'lt (hwired.bound u w hu).1 heq ▸ hu'

end

/-- `tsort` ends without its fallback and writes every token once. If the pairs have no cycle it
reports none and always takes the least token whose predecessors are written. Every reported loop is
one of the pairs, and the order respects all pairs but one occurrence for each loop, that of the
pair that closes it. -/
theorem topoSort_spec (pairs : List (Bytes×Bytes)) :
    ∃r,(readPairs pairs).topoSort=some r ∧ r.fallback=false ∧ r.out.Nodup ∧
      (∀t,t∈r.out ↔ ∃p∈pairs,t=p.1 ∨ t=p.2) ∧
      (Acyclic pairs → r.loops=[] ∧ LeastFirst pairs r.out) ∧ (∀c∈r.loops,Loop pairs c) ∧
      ∃removed kept : List (Bytes×Bytes),(removed++kept).Perm (links pairs) ∧
        List.Forall₂ (fun c e => c.getLast?=some e.1 ∧ c.head?=some e.2) r.loops removed ∧
        ∀e∈kept,Before r.out e.1 e.2 := by
  obtain ⟨hwired,htokens⟩ := readPairs_spec pairs
  generalize readPairs pairs=g at hwired htokens
  have hfuel :
    g.start.remaining+(TsortGraph.edges g.names.length g.start.g.succ).card<g.size+1 := by
    rw [size_eq_card]
    exact Nat.lt_succ_self _
  obtain ⟨removed,s,hrun,hs,hrem⟩ := topoLoop_spec (sorting_start hwired) hfuel
  have hloops : ∀c∈s.loops.map (·.map g.name),Loop pairs c := by
    intro c hc
    obtain ⟨c,hmem,rfl⟩ := mem_map.mp hc
    exact loop_of_cycle hwired (hs.loops c hmem)
  refine ⟨_,hrun,rfl,nodup_out hwired hs,fun t => ?_,fun hacyclic => ?_,hloops,
    removed.map (Prod.map g.name g.name),
    ((TsortGraph.edges g.names.length s.g.succ).map (Prod.map g.name g.name)).toList,?_,?_,?_⟩
  · rw [mem_map_out hs hrem,htokens]
  · have hnil : s.loops=[] := by
      by_contra hne
      obtain ⟨c,l,hc⟩ := exists_cons_of_ne_nil hne
      obtain ⟨a,ha⟩ := transGen_of_loop (hloops (c.map g.name) (by simp [hc]))
      exact hacyclic a ha
    exact ⟨by rw [hnil,map_nil],leastFirst_of_loops hwired hs hnil⟩
  · rw [←Multiset.coe_eq_coe,←Multiset.coe_add,Multiset.coe_toList,←Multiset.map_coe,
      ← Multiset.map_add,add_comm,hs.edges,hwired.named]
  · rw [forall₂_map_left_iff,forall₂_map_right_iff]
    refine hs.closes.imp fun c e he => ?_
    rw [getLast?_map,head?_map,he.1,he.2]
    exact ⟨rfl,rfl⟩
  · intro e he
    obtain ⟨e,hmem,rfl⟩ := Multiset.mem_map.mp (Multiset.mem_toList.mp he)
    exact before_of_mem_succ hs hrem (mem_edges.mp hmem).2

example : (readPairs [(ascii "b",ascii "a"),(ascii "c",ascii "c"),(ascii "a",ascii "b")]).topoSort =
    some { out := [ascii "c",ascii "b",ascii "a"],loops := [[ascii "b",ascii "a"]] } := by
  decide

end Coreutils.TsortOrder
