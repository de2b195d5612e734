import Coreutils.CycleSearch
import Coreutils.GoText
import Mathlib.Tactic.Abel

/-!
# The graph of tsort

`graph`, `topoSort` and `findCycle` of `cmds/tsort/tsort.go`. A node is its index in `names`; the
arrays of a graph are functions of the index, with the value of a new node past the end. The
frontier, a heap of the standard library, is a list of nodes of which the one with the least name is
taken.
-/

namespace Coreutils.TsortGraph
open Function List GoText CycleSearch

structure Graph where
  names : List Bytes := []
  succ : ℕ→List ℕ := fun _ => []
  indeg : ℕ→ℤ := fun _ => 0
  done : ℕ→Bool := fun _ => false

def Graph.addNode (g : Graph) (name : Bytes) : Graph×ℕ :=
  if name∈g.names then (g,g.names.idxOf name)
  else ({ g with names := g.names++[name] },g.names.length)

def Graph.link (g : Graph) (u v : ℕ) : Graph :=
  { g with
    succ := update g.succ u (g.succ u++[v])
    indeg := update g.indeg v (g.indeg v+1) }

def Graph.addEdge (g : Graph) (a b : Bytes) : Graph :=
  let (g,u) := g.addNode a
  let (g,v) := g.addNode b
  g.link u v

def readPairs (pairs : List (Bytes×Bytes)) : Graph :=
  pairs.foldl (fun g p => if p.1=p.2 then (g.addNode p.1).1 else g.addEdge p.1 p.2) {}

def Graph.removeEdge (g : Graph) (u v : ℕ) : Graph :=
  if v∈g.succ u then
    { g with
      succ := update g.succ u ((g.succ u).erase v)
      indeg := update g.indeg v (g.indeg v-1) }
  else g

/-- The number of steps a search takes at most. -/
def Graph.size (g : Graph) : ℕ :=
  ((range g.names.length).map fun v => (g.succ v).length+1).sum

def Graph.findCycle (g : Graph) : Option (List ℕ) :=
  search g.succ g.done (g.size+1) (range g.names.length) fun _ => .white

def Graph.name (g : Graph) (id : ℕ) : Bytes := g.names.getD id []

def Graph.least (g : Graph) : List ℕ→Option ℕ
  | [] => none
  | id::ids =>
    match g.least ids with
    | none => some id
    | some best => if g.name best<g.name id then some best else some id

def release (done : ℕ→Bool) : List ℕ→(ℕ→ℤ)→List ℕ→(ℕ→ℤ)×List ℕ
  | [],indeg,heap => (indeg,heap)
  | s::succ,indeg,heap =>
    if done s then release done succ indeg heap
    else
      let indeg := update indeg s (indeg s-1)
      release done succ indeg (if indeg s=0 then s::heap else heap)

/-- The variables of `topoSort`, with the nodes written and the loops reported so far. -/
structure State where
  g : Graph
  heap : List ℕ
  remaining : ℕ
  out : List ℕ := []
  loops : List (List ℕ) := []

/-- What `topoSort` writes and reports; `fallback` is the branch that cannot happen. -/
structure Result where
  out : List Bytes
  loops : List (List Bytes)
  fallback : Bool := false
  deriving DecidableEq,Repr

def State.write (s : State) (id : ℕ) : State :=
  let done := update s.g.done id true
  let (indeg,heap) := release done (s.g.succ id) s.g.indeg (s.heap.erase id)
  { s with
    g := { s.g with done,indeg }
    heap
    remaining := s.remaining-1
    out := s.out++[id] }

/-- Reporting a loop from `v` to `u` and removing the edge that closes it. -/
def State.breakLoop (s : State) (cycle : List ℕ) (u v : ℕ) : State :=
  let g := s.g.removeEdge u v
  { s with
    g
    heap := if g.indeg v=0 then v::s.heap else s.heap
    loops := s.loops++[cycle] }

def topoLoop : ℕ→State→Option Result
  | 0,_ => none
  | fuel+1,s =>
    if s.remaining=0 then
      some { out := s.out.map s.g.name,loops := s.loops.map (·.map s.g.name) }
    else
      match s.g.least s.heap with
      | some id => topoLoop fuel (s.write id)
      | none => do
        let cycle ← s.g.findCycle
        match cycle.getLast?,cycle.head? with
        | some u,some v => topoLoop fuel (s.breakLoop cycle u v)
        | _,_ =>
          let rest := (range s.g.names.length).filter fun id => !s.g.done id
          some
            { out := (s.out++rest).map s.g.name
              loops := s.loops.map (·.map s.g.name)
              fallback := true }

def Graph.start (g : Graph) : State where
  g
  heap := (range g.names.length).filter fun id => g.indeg id=0
  remaining := g.names.length

/-- `topoSort`; a turn of its loop writes a node or removes an edge. -/
def Graph.topoSort (g : Graph) : Option Result := topoLoop (g.size+1) g.start

def Result.stdout (r : Result) : Bytes := printLines r.out

def Result.stderr (r : Result) (name : Bytes) : Bytes :=
  r.loops.flatMap fun loop =>
    ascii "tsort: " ++ name++ascii ": input contains a loop:\n" ++
      loop.flatMap fun id => ascii "tsort: " ++ id++[newline]

def edges (n : ℕ) (succ : ℕ→List ℕ) : Multiset (ℕ×ℕ) :=
  ∑ u∈Finset.range n,(succ u : Multiset ℕ).map (Prod.mk u)

/-- The edges into `v` from nodes that are not done. -/
def load (n : ℕ) (succ : ℕ→List ℕ) (done : ℕ→Bool) (v : ℕ) : ℕ :=
  ∑ u∈Finset.range n with done u=false,(succ u).count v

section
variable {n : ℕ} {succ : ℕ→List ℕ} {done : ℕ→Bool}

theorem mem_edges {e : ℕ×ℕ} : e∈edges n succ ↔ e.1<n ∧ e.2∈succ e.1 := by
  simp only [edges,Multiset.mem_sum,Finset.mem_range,Multiset.mem_map]
  constructor
  · rintro ⟨u,hu,v,hv,rfl⟩
    exact ⟨hu,hv⟩
  · rintro ⟨hu,hv⟩
    exact ⟨e.1,hu,e.2,hv,rfl⟩

variable {u : ℕ}

theorem edges_update (hu : u<n) (l : List ℕ) :
    edges n (update succ u l)+(succ u : Multiset ℕ).map (Prod.mk u) =
      edges n succ+(l : Multiset ℕ).map (Prod.mk u) := by
  have hmem : u∈Finset.range n := Finset.mem_range.mpr hu
  have hrest : ∑ w∈(Finset.range n).erase u,(update succ u l w : Multiset ℕ).map (Prod.mk w) =
        ∑ w∈(Finset.range n).erase u,(succ w : Multiset ℕ).map (Prod.mk w) := by
    refine Finset.sum_congr rfl fun w hw => ?_
    rw [update_of_ne (Finset.ne_of_mem_erase hw)]
  rw [edges,edges,←Finset.add_sum_erase _ _ hmem,hrest,update_self,
    ← Finset.add_sum_erase _ (fun w => (succ w : Multiset ℕ).map (Prod.mk w)) hmem]
  abel

theorem load_update (hu : u<n) (hlive : done u=false) (l : List ℕ) (v : ℕ) :
    load n (update succ u l) done v+(succ u).count v=load n succ done v+l.count v := by
  have hmem : u∈(Finset.range n).filter fun w => done w=false := by simp [hu,hlive]
  have hrest : ∑ w∈((Finset.range n).filter fun w => done w=false).erase u,
      (update succ u l w).count v =
        ∑ w∈((Finset.range n).filter fun w => done w=false).erase u,(succ w).count v := by
    refine Finset.sum_congr rfl fun w hw => ?_
    rw [update_of_ne (Finset.ne_of_mem_erase hw)]
  rw [load,load,←Finset.add_sum_erase _ _ hmem,update_self,
    ← Finset.add_sum_erase _ (fun w => (succ w).count v) hmem]
  omega

/-- When a node is done, its edges count no more. -/
theorem load_done (hu : u<n) (hlive : done u=false) (v : ℕ) :
    load n succ (update done u true) v+(succ u).count v=load n succ done v := by
  have hmem : u∈(Finset.range n).filter fun w => done w=false := by simp [hu,hlive]
  have hset : (Finset.range n).filter (fun w => update done u true w=false) =
      ((Finset.range n).filter fun w => done w=false).erase u := by
    ext w
    by_cases hw : w=u <;> simp [hw]
  rw [load,load,hset,←Finset.add_sum_erase _ _ hmem]
  omega

theorem notMem_succ_of_load {v : ℕ} (h : load n succ done v=0) (hu : u<n)
    (hlive : done u=false) : v∉succ u := by
  have hzero := Finset.sum_eq_zero_iff.mp h u (by simp [hu,hlive])
  exact count_eq_zero.mp hzero

theorem exists_mem_succ_of_load {v : ℕ} (h : load n succ done v≠0) :
    ∃u<n,done u=false ∧ v∈succ u := by
  obtain ⟨u,hu,hne⟩ := Finset.exists_ne_zero_of_sum_ne_zero h
  obtain ⟨hu,hlive⟩ := Finset.mem_filter.mp hu
  exact ⟨u,Finset.mem_range.mp hu,hlive,count_pos_iff.mp (pos_of_ne_zero hne)⟩

end

theorem release_spec {done : ℕ→Bool} {succ : List ℕ} {indeg : ℕ→ℤ} {heap : List ℕ}
    (hcount : ∀v,done v=false→(succ.count v : ℤ) ≤ indeg v)
    (hheap : ∀v∈heap,done v=false ∧ indeg v=0) (hnd : heap.Nodup) :
    (∀v,done v=false→(release done succ indeg heap).1 v=indeg v-succ.count v) ∧
      (release done succ indeg heap).2.Nodup ∧ ∀v,v∈(release done succ indeg heap).2 ↔
        v∈heap ∨ done v=false ∧ v∈succ ∧ indeg v=succ.count v := by
  induction succ generalizing indeg heap with
  | nil => simp [release,hnd]
  | cons s succ ih =>
    rw [release]
    by_cases hs : done s=true
    · rw [if_pos hs]
      have hne : ∀v,done v=false→s≠v := by
        rintro v hv rfl
        simp [hs] at hv
      have hcount' : ∀v,done v=false→(s::succ).count v=succ.count v := fun v hv =>
        count_cons_of_ne (hne v hv)
      obtain ⟨hindeg,hnd',hmem⟩ := ih (fun v hv => hcount' v hv ▸ hcount v hv) hheap hnd
      refine ⟨fun v hv => by rw [hindeg v hv,hcount' v hv],hnd',fun v => ?_⟩
      rw [hmem v]
      refine or_congr_right (and_congr_right fun hv => ?_)
      rw [hcount' v hv,mem_cons,or_iff_right (hne v hv).symm]
    · have hlive : done s=false := by simpa using hs
      rw [if_neg hs]
      simp only [update_self]
      have hpos : 1+(succ.count s : ℤ) ≤ indeg s := by
        have := hcount s hlive
        rw [count_cons_self] at this
        omega
      have hnot : s∉heap := fun hmem => by
        have := (hheap s hmem).2
        omega
      have hother : ∀v,v≠s→(s::succ).count v=succ.count v := fun v hv =>
        count_cons_of_ne (Ne.symm hv)
      have hmem' : ∀v,v∈(if indeg s-1=0 then s::heap else heap) ↔
          v∈heap ∨ v=s ∧ indeg s=1 := by
        intro v
        split_ifs with hzero
        · rw [mem_cons,or_comm,and_iff_left (by omega)]
        · rw [or_iff_left fun h => hzero (by omega)]
      have hcount' : ∀v,done v=false→
          (succ.count v : ℤ)≤update indeg s (indeg s-1) v := by
        intro v hv
        by_cases hvs : v=s
        · rw [hvs,update_self]
          omega
        · rw [update_of_ne hvs,←hother v hvs]
          exact hcount v hv
      have hheap' : ∀v∈(if indeg s-1=0 then s::heap else heap),
          done v=false ∧ update indeg s (indeg s-1) v=0 := by
        intro v hv
        rcases (hmem' v).mp hv with hv | ⟨rfl,hone⟩
        · have hvs : v≠s := fun heq => hnot (heq ▸ hv)
          rw [update_of_ne hvs]
          exact hheap v hv
        · rw [update_self]
          exact ⟨hlive,by omega⟩
      have hnd' : (if indeg s-1=0 then s::heap else heap).Nodup := by
        split_ifs
        · exact nodup_cons.mpr ⟨hnot,hnd⟩
        · exact hnd
      obtain ⟨hindeg,hnd'',hmem⟩ := ih hcount' hheap' hnd'
      refine ⟨fun v hv => ?_,hnd'',fun v => ?_⟩
      · rw [hindeg v hv]
        by_cases hvs : v=s
        · rw [hvs,update_self,count_cons_self]
          omega
        · rw [update_of_ne hvs,hother v hvs]
      · rw [hmem v,hmem' v]
        by_cases hvs : v=s
        · subst hvs
          have hin : 0<succ.count v ↔ v∈succ := count_pos_iff
          simp only [update_self,count_cons_self,mem_cons_self,hnot,hlive,true_and,false_or,←hin]
          omega
        · simp [hother v hvs,hvs]

end Coreutils.TsortGraph
