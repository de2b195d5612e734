import Mathlib.Algebra.BigOperators.Intervals

/-!
# Depth-first search for a cycle

An iterative depth-first search with three colours over the live vertices below `n`. It ends, what
it returns is a cycle of live vertices, and if it returns none they can be listed with every live
successor of a vertex behind it.
-/

namespace Coreutils.CycleSearch
open Function List

inductive Colour where
  | white | grey | black
  deriving DecidableEq,Repr

section
variable (succ : ℕ→List ℕ) (done : ℕ→Bool)

/-- The stack from the frame of `next` up, in the direction of the edges. -/
def cycleFrom (next : ℕ) (stack : List (ℕ×ℕ)) : List ℕ :=
  (stack.reverse.map Prod.fst).dropWhile (·≠next)

/-- The search below one start; a frame is a vertex and how many successors were looked at. -/
def visit : ℕ→(ℕ → Colour)→List (ℕ×ℕ)→Option (List ℕ ⊕ (ℕ → Colour))
  | 0,_,_ => none
  | _+1,colour,[] => some (.inr colour)
  | fuel+1,colour,(id,idx)::stack =>
    match (succ id)[idx]? with
    | none => visit fuel (update colour id .black) stack
    | some next =>
      if done next || colour next=.black then visit fuel colour ((id,idx+1)::stack)
      else if colour next=.grey then some (.inl (cycleFrom next ((id,idx+1)::stack)))
      else visit fuel (update colour next .grey) ((next,0)::(id,idx+1)::stack)

def search (fuel : ℕ) : List ℕ→(ℕ → Colour)→Option (List ℕ)
  | [],_ => some []
  | start::starts,colour =>
    if done start || colour start≠.white then search fuel starts colour
    else
      match visit succ done fuel (update colour start .grey) [(start,0)] with
      | none => none
      | some (.inl cycle) => some cycle
      | some (.inr colour) => search fuel starts colour

/-- A cycle of live vertices: each is a successor of the one before, the first of the last. -/
structure Cycle (c : List ℕ) : Prop where
  live : ∀v∈c,done v=false
  chain : c.IsChain fun a b => b∈succ a
  closed : ∃u v,c.getLast?=some u ∧ c.head?=some v ∧ v∈succ u

/-- Every live successor of a vertex stands behind it. -/
def Finished : List ℕ→Prop
  | [] => True
  | u::older => (∀s∈succ u,done s=false→s∈older) ∧ Finished older

/-- The successors that the frames have passed over are finished, but for the frame above. -/
def Scanned (colour : ℕ → Colour) : Option ℕ→List (ℕ×ℕ)→Prop
  | _,[] => True
  | above,(id,idx)::stack =>
    (∀s∈(succ id).take idx,done s=false→colour s=.black ∨ above=some s) ∧
      Scanned colour (some id) stack

/-- The state of a search; `fin` are the finished vertices, the last one first. -/
structure Searching (n : ℕ) (colour : ℕ → Colour) (stack : List (ℕ×ℕ)) (fin : List ℕ) : Prop where
  grey : ∀v,colour v=.grey ↔ v∈stack.map Prod.fst
  black : ∀v,colour v=.black ↔ v∈fin
  nodup : (stack.map Prod.fst).Nodup
  nodup_fin : fin.Nodup
  live : ∀v,colour v≠.white→v<n ∧ done v=false
  path : (stack.map Prod.fst).IsChain fun a b => a∈succ b
  scanned : Scanned succ done colour none stack
  finished : Finished succ done fin

end

section
variable {succ : ℕ→List ℕ} {done : ℕ→Bool} {colour : ℕ → Colour} {stack : List (ℕ×ℕ)}
  {fin : List ℕ} {n v id idx next : ℕ}

/-- A vertex that comes last in no order of its predecessors is not finished first. -/
theorem not_mem_succ_of_finished {u : ℕ} {older : List ℕ}
    (h : Finished succ done (u::older)) (hnd : (u::older).Nodup) (hu : done u=false) {w : ℕ}
    (hw : w∈u::older) : u∉succ w := by
  obtain ⟨hmem,hnd⟩ := nodup_cons.mp hnd
  have holder : ∀l : List ℕ,Finished succ done l→∀w∈l,u∈succ w→u∈l := by
    intro l hl
    induction l with
    | nil => intro w hw; exact absurd hw not_mem_nil
    | cons v l ih =>
      intro w hw hsucc
      rcases mem_cons.mp hw with rfl | hw
      · exact mem_cons_of_mem _ (hl.1 u hsucc hu)
      · exact mem_cons_of_mem _ (ih hl.2 w hw hsucc)
  intro hsucc
  rcases mem_cons.mp hw with rfl | hw
  · exact hmem (h.1 w hsucc hu)
  · exact hmem (holder older h.2 w hw hsucc)

theorem Scanned.mono {colour' : ℕ → Colour} {above : Option ℕ}
    (h : Scanned succ done colour above stack)
    (hblack : ∀v,colour v=.black→colour' v=.black) : Scanned succ done colour' above stack := by
  induction stack generalizing above with
  | nil => trivial
  | cons f stack ih =>
    refine ⟨fun s hs hlive => ?_,ih h.2⟩
    exact (h.1 s hs hlive).imp (hblack s) id

theorem Scanned.finish (h : Scanned succ done colour (some v) stack)
    (hv : colour v=.black) : Scanned succ done colour none stack := by
  cases stack with
  | nil => trivial
  | cons f stack =>
    refine ⟨fun s hs hlive => ?_,h.2⟩
    rcases h.1 s hs hlive with hblack | heq
    · exact .inl hblack
    · cases heq
      exact .inl hv

theorem update_ne_white {w : ℕ} {c : Colour} (hc : c≠.white) (hv : colour v≠.white) :
    update colour w c v≠.white := by
  by_cases hvw : v=w
  · simpa [hvw] using hc
  · rwa [update_of_ne hvw]

theorem Searching.enter {stack' : List (ℕ×ℕ)} (h : Searching succ done n colour stack fin)
    (hids : stack'.map Prod.fst=stack.map Prod.fst) (hwhite : colour v=.white)
    (hlive : v<n ∧ done v=false) (hpath : (v::stack.map Prod.fst).IsChain fun a b => a∈succ b)
    (hscanned : Scanned succ done (update colour v .grey) (some v) stack') :
    Searching succ done n (update colour v .grey) ((v,0)::stack') fin := by
  have hnew : v∉stack.map Prod.fst := by
    rw [←h.grey v,hwhite]
    simp
  rw [←hids] at hnew hpath
  refine ⟨fun w => ?_,fun w => ?_,nodup_cons.mpr ⟨hnew,hids ▸ h.nodup⟩,h.nodup_fin,fun w hw =>
    ?_,hpath,⟨by simp,hscanned⟩,h.finished⟩
  · by_cases hw : w=v
    · simp [hw]
    · rw [update_of_ne hw,h.grey w,←hids]
      simp [hw]
  · by_cases hw : w=v
    · have := h.black w
      simp_all
    · rw [update_of_ne hw,h.black]
  · by_cases hwv : w=v
    · exact hwv ▸ hlive
    · rw [update_of_ne hwv] at hw
      exact h.live w hw

theorem dropWhile_ne_of_mem {l : List ℕ} {x : ℕ} (h : x∈l) :
    ∃pre post,l=pre++x::post ∧ l.dropWhile (·≠x)=x::post := by
  induction l with
  | nil => exact absurd h not_mem_nil
  | cons y l ih =>
    by_cases hy : y=x
    · subst hy
      exact ⟨[],l,rfl,by simp⟩
    · obtain ⟨pre,post,rfl,hdrop⟩ := ih ((mem_cons.mp h).resolve_left (Ne.symm hy))
      refine ⟨y::pre,post,rfl,?_⟩
      rw [dropWhile_cons_of_pos (by simpa using hy),hdrop]

section
variable (h : Searching succ done n colour ((id,idx)::stack) fin)
include h

theorem Searching.skip
    (hnext : (succ id)[idx]?=some next) (hskip : done next=true ∨ colour next=.black) :
    Searching succ done n colour ((id,idx+1)::stack) fin := by
  refine ⟨h.grey,h.black,h.nodup,h.nodup_fin,h.live,h.path,⟨fun s hs hlive => ?_,h.scanned.2⟩,
    h.finished⟩
  rw [take_add_one,hnext,Option.toList_some,mem_append,mem_singleton] at hs
  rcases hs with hs | rfl
  · exact h.scanned.1 s hs hlive
  · exact .inl (hskip.resolve_left (by simp [hlive]))

theorem Searching.push (hnext : (succ id)[idx]?=some next) (hwhite : colour next=.white)
    (hlive : next<n ∧ done next=false) :
    Searching succ done n (update colour next .grey) ((next,0)::(id,idx+1)::stack) fin := by
  have hkeep : ∀v,colour v=.black→update colour next .grey v=.black := by
    intro v hv
    have hne : v≠next := by
      rintro rfl
      simp [hv] at hwhite
    rw [update_of_ne hne,hv]
  refine h.enter rfl hwhite hlive (isChain_cons_cons.mpr ⟨mem_of_getElem? hnext,h.path⟩)
    ⟨fun s hs hs' => ?_,h.scanned.2.mono hkeep⟩
  rw [take_add_one,hnext,Option.toList_some,mem_append,mem_singleton] at hs
  rcases hs with hs | rfl
  · exact .inl (hkeep s ((h.scanned.1 s hs hs').resolve_right (by simp)))
  · exact .inr rfl

theorem Searching.pop (hnext : (succ id)[idx]?=none) :
    Searching succ done n (update colour id .black) stack (id::fin) := by
  have hkeep : ∀v,colour v=.black→update colour id .black v=.black := by
    intro v hv
    by_cases hne : v=id
    · simp [hne]
    · rw [update_of_ne hne,hv]
  have hgrey : colour id=.grey := (h.grey id).mpr (by simp)
  obtain ⟨hnew,hnd⟩ := nodup_cons.mp h.nodup
  have htake : (succ id).take idx=succ id := take_of_length_le (getElem?_eq_none_iff.mp hnext)
  have hfin : id∉fin := by
    rw [←h.black id,hgrey]
    simp
  refine ⟨fun w => ?_,fun w => ?_,hnd,nodup_cons.mpr ⟨hfin,h.nodup_fin⟩,fun w hw => ?_,h.path.tail,
    ?_,?_⟩
  · by_cases hw : w=id
    · subst hw
      simpa using hnew
    · rw [update_of_ne hw,h.grey w]
      simp [hw]
  · by_cases hw : w=id
    · simp [hw]
    · rw [update_of_ne hw,h.black w]
      simp [hw]
  · by_cases hwid : w=id
    · exact hwid ▸ h.live id (by simp [hgrey])
    · rw [update_of_ne hwid] at hw
      exact h.live w hw
  · exact (h.scanned.2.mono hkeep).finish (by simp)
  · refine ⟨fun s hs hlive => ?_,h.finished⟩
    have hblack := (h.scanned.1 s (htake.symm ▸ hs) hlive).resolve_right (by simp)
    exact (h.black s).mp hblack

/-- The part of the stack from a grey successor of its top is a cycle. -/
theorem Searching.cycle (hnext : (succ id)[idx]?=some next) (hgrey : colour next=.grey) :
    Cycle succ done (cycleFrom next ((id,idx+1)::stack)) := by
  have hmem : next∈((id,idx)::stack).map Prod.fst := (h.grey next).mp hgrey
  generalize hids : ((id,idx)::stack).map Prod.fst=ids at hmem
  have hcycle : cycleFrom next ((id,idx+1)::stack)=ids.reverse.dropWhile (·≠next) := by
    rw [cycleFrom,map_reverse,←hids]
    rfl
  have hchain : ids.reverse.IsChain fun a b => b∈succ a := by
    rw [isChain_reverse,←hids]
    exact h.path
  have hlast : ids.reverse.getLast?=some id := by
    rw [getLast?_reverse,←hids]
    rfl
  have hlive : ∀v∈ids,done v=false := by
    intro v hv
    refine (h.live v ?_).2
    rw [(h.grey v).mpr (hids ▸ hv)]
    simp
  obtain ⟨pre,post,hsplit,hdrop⟩ := dropWhile_ne_of_mem (mem_reverse.mpr hmem)
  rw [hcycle,hdrop]
  refine ⟨fun w hw => hlive w ?_,?_,id,next,?_,rfl,mem_of_getElem? hnext⟩
  · exact mem_reverse.mp (hsplit ▸ mem_append_right pre hw)
  · exact hchain.suffix ⟨pre,hsplit.symm⟩
  · rw [←hlast,hsplit,getLast?_append_of_ne_nil _ (cons_ne_nil next post)]

end

theorem searching_start (succ : ℕ→List ℕ) (done : ℕ→Bool) (n : ℕ) :
    Searching succ done n (fun _ => .white) [] [] where
  grey v := by simp
  black v := by simp
  nodup := .nil
  nodup_fin := .nil
  live v hv := absurd rfl hv
  path := .nil
  scanned := trivial
  finished := trivial

variable (succ) in
def cost (m : ℕ) (colour : ℕ → Colour) (stack : List (ℕ×ℕ)) : ℕ :=
  (∑ v∈Finset.range m with colour v=.white,((succ v).length+1)) +
    (stack.map fun f => (succ f.1).length-f.2+1).sum

theorem sum_white_update (hwhite : colour v=.white) (hn : v<n) : (succ v).length+1 +
        ∑ w∈Finset.range n with update colour v .grey w=.white,((succ w).length+1) =
      ∑ w∈Finset.range n with colour w=.white,((succ w).length+1) := by
  have hset : (Finset.range n).filter (fun w => update colour v .grey w=.white) =
      ((Finset.range n).filter fun w => colour w=.white).erase v := by
    ext w
    by_cases hw : w=v <;> simp [hw]
  have hmem : v∈(Finset.range n).filter fun w => colour w=.white := by simp [hn,hwhite]
  rw [hset]
  exact Finset.add_sum_erase _ (fun w => (succ w).length+1) hmem

theorem cost_push (hnext : (succ id)[idx]?=some next) (hwhite : colour next=.white) (hn : next<n) :
    cost succ n (update colour next .grey) ((next,0)::(id,idx+1)::stack) <
      cost succ n colour ((id,idx)::stack) := by
  have hsum := @sum_white_update succ _ n _ hwhite hn
  have hlt := (List.getElem?_eq_some_iff.mp hnext).1
  simp only [cost,List.map_cons,List.sum_cons]
  omega

theorem cost_skip (hnext : (succ id)[idx]?=some next) :
    cost succ n colour ((id,idx+1)::stack)<cost succ n colour ((id,idx)::stack) := by
  have hlt := (List.getElem?_eq_some_iff.mp hnext).1
  simp only [cost,map_cons,sum_cons]
  omega

theorem cost_pop (hgrey : colour id=.grey) : cost succ n (update colour id .black) stack <
      cost succ n colour ((id,idx)::stack) := by
  have hset : (Finset.range n).filter (fun v => update colour id .black v=.white) =
      (Finset.range n).filter fun v => colour v=.white := by
    ext v
    by_cases hv : v=id
    · simp [hv,hgrey]
    · simp [update_of_ne hv]
  simp only [cost,hset,map_cons,sum_cons]
  omega

/-- A search below one start that ends with a cycle, or with everything on the stack finished. -/
def Ends (succ : ℕ→List ℕ) (done : ℕ→Bool) (n : ℕ) (colour : ℕ → Colour) (stack : List (ℕ×ℕ))
    (r : Option (List ℕ ⊕ (ℕ → Colour))) : Prop :=
  (∃c,r=some (.inl c) ∧ Cycle succ done c) ∨
    ∃colour' fin,r=some (.inr colour') ∧ Searching succ done n colour' [] fin ∧
      (∀v,colour v≠.white→colour' v≠.white) ∧ cost succ n colour' []≤cost succ n colour stack

theorem Ends.before {colour₁ : ℕ → Colour} {stack₁ : List (ℕ×ℕ)}
    {r : Option (List ℕ ⊕ (ℕ → Colour))} (h : Ends succ done n colour₁ stack₁ r)
    (hcost : cost succ n colour₁ stack₁<cost succ n colour stack)
    (hkeep : ∀v,colour v≠.white→colour₁ v≠.white) : Ends succ done n colour stack r := by
  rcases h with hc | ⟨colour',fin',hrun,hs,hkeep',hle⟩
  · exact .inl hc
  · exact .inr ⟨colour',fin',hrun,hs,fun v hv => hkeep' v (hkeep v hv),hle.trans hcost.le⟩

theorem visit_ends {fuel : ℕ} (hn : ∀u,∀v∈succ u,v<n)
    (h : Searching succ done n colour stack fin) (hfuel : cost succ n colour stack<fuel) :
    Ends succ done n colour stack (visit succ done fuel colour stack) := by
  induction fuel generalizing colour stack fin with
  | zero => omega
  | succ fuel ih =>
    match stack with
    | [] => exact .inr ⟨colour,fin,rfl,h,fun _ hv => hv,le_rfl⟩
    | (id,idx)::stack =>
      rw [visit]
      cases hnext : (succ id)[idx]? with
      | none =>
        have hcost := @cost_pop succ _ stack n _ idx ((h.grey id).mpr (by simp))
        exact (ih (h.pop hnext) (by omega)).before hcost fun v => update_ne_white (by simp)
      | some next =>
        have hbound := hn id next (mem_of_getElem? hnext)
        simp only
        split_ifs with hskip hgrey
        · have hcost := @cost_skip succ colour stack n _ _ _ hnext
          exact (ih (h.skip hnext (by simpa using hskip)) (by omega)).before hcost fun _ hv => hv
        · exact .inl ⟨_,rfl,h.cycle hnext hgrey⟩
        have hlive : done next=false := by
          by_contra hdone
          simp [hdone] at hskip
        have hwhite : colour next=.white := by
          cases hcol : colour next with
          | white => rfl
          | grey => exact absurd hcol hgrey
          | black => simp [hcol] at hskip
        have hcost := @cost_push succ _ stack _ _ _ _ hnext hwhite hbound
        exact (ih (h.push hnext hwhite ⟨hbound,hlive⟩) (by omega)).before hcost
          fun v => update_ne_white (by simp)

/-- The search ends, with a cycle or with all live starts finished. -/
theorem search_spec {fuel : ℕ} (hn : ∀u,∀v∈succ u,v<n) {starts : List ℕ}
    (hstarts : ∀v∈starts,v<n) (h : Searching succ done n colour [] fin)
    (hfuel : cost succ n colour []<fuel) :
    (∃c,search succ done fuel starts colour=some c ∧ Cycle succ done c) ∨
      search succ done fuel starts colour=some [] ∧
        ∃fin',fin'.Nodup ∧ Finished succ done fin' ∧ (∀v∈fin',v<n ∧ done v=false) ∧
          ∀v,v∈starts ∨ colour v≠.white→done v=false→v∈fin' := by
  induction starts generalizing colour fin with
  | nil =>
    refine .inr ⟨rfl,fin,h.nodup_fin,h.finished,fun v hv => h.live v ?_,fun v hv _ => ?_⟩
    · rw [(h.black v).mpr hv]
      simp
    have hv := hv.resolve_left not_mem_nil
    refine (h.black v).mp ?_
    cases hcol : colour v with
    | white => exact absurd hcol hv
    | grey => exact absurd ((h.grey v).mp hcol) not_mem_nil
    | black => rfl
  | cons start starts ih =>
    have hstarts' : ∀v∈starts,v<n := fun v hv => hstarts v (mem_cons_of_mem _ hv)
    rw [search]
    split_ifs with hskip
    · rcases ih hstarts' h hfuel with hc | ⟨hrun,fin',hnd,hfin,hlive,hall⟩
      · exact .inl hc
      refine .inr ⟨hrun,fin',hnd,hfin,hlive,fun v hv hdone => hall v ?_ hdone⟩
      rcases hv with hv | hv
      · rcases mem_cons.mp hv with rfl | hv
        · exact .inr (by simpa [hdone] using hskip)
        · exact .inl hv
      · exact .inr hv
    · have hlive : done start=false := by
        by_contra hdone
        simp [hdone] at hskip
      have hwhite : colour start=.white := by
        by_contra hcol
        simp [hcol] at hskip
      have hcost : cost succ n (update colour start .grey) [(start,0)] =
          cost succ n colour [] := by
        have hsum := @sum_white_update succ _ n _ hwhite (hstarts start mem_cons_self)
        simp only [cost,map_cons,sum_cons]
        omega
      have henter := h.enter rfl hwhite ⟨hstarts start mem_cons_self,hlive⟩ (isChain_singleton _)
        trivial
      rcases visit_ends hn henter (hcost ▸ hfuel) with ⟨c,hrun,hc⟩ | ⟨colour',fin',hrun,hs,hkeep,
        hle⟩
      · exact .inl ⟨c,by rw [hrun],hc⟩
      rw [hrun]
      rcases ih hstarts' hs (by omega) with hc | ⟨hrun',fin'',hnd,hfin,hlive',hall⟩
      · exact .inl hc
      refine .inr ⟨hrun',fin'',hnd,hfin,hlive',fun v hv hdone => hall v ?_ hdone⟩
      rcases hv with hv | hv
      · rcases mem_cons.mp hv with rfl | hv
        · exact .inr (hkeep v (by simp))
        · exact .inl hv
      · exact .inr (hkeep v (update_ne_white (by simp) hv))

end

end Coreutils.CycleSearch
