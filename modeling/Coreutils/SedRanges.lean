import Coreutils.SedEffects

/-!
# Ranges that end at a line number

A range that ends at the number `n` should select a line after `n` only as the single line on which
its first address matches. The number is compared for equality, on the lines on which the
instruction happens to run.
-/

namespace Coreutils.SedRanges
open GoText Programs SedVm SedBuffers SedEffects

/-- The instruction will look at the first address. -/
def isOff (r : Range) (lineno : ℤ) : Bool :=
  !r.isOn || (decide (0<r.offFrom) && decide (r.offFrom<lineno))

/-- The line on which the range `id` last began, after one more instruction. -/
def begun (id : ℕ) (i : Instr) (v : Vm) (s : Option ℤ) : Option ℤ :=
  match i with
  | .twocond id' start _ _ _ =>
    if id'=id ∧ isOff (v.ranges id) v.lineno then
      match isMet 0 start v with
      | .ok true _ => some v.lineno
      | _ => s
    else s
  | _ => s

/-- The machine in a run of a program, with the line on which the range `id` was last begun. -/
inductive Runs (host : Host) (ins : List Instr) (id : ℕ) : Vm→Option ℤ→Prop
  | start (input : Input) (source : Option ℤ) : Runs host ins id (wrap input source) none
  | read {v : Vm} {s : Option ℤ} (size : ℕ) : Runs host ins id v s→
      Runs host ins id (final (opening (put { v.out with room := some size,sent := [] } v))) s
  | step {v : Vm} {s : Option ℤ} {i : Instr} : Runs host ins id v s→ins[v.ip]?=some i→
      Runs host ins id (final (exec host i v)) (begun id i v s)

/-- Every range has a state of its own. -/
def Owned (ins : List Instr) : Prop :=
  ins.Pairwise fun i j => Instr.range? i=none ∨ Instr.range? i≠Instr.range? j

/-- If the instruction selects the line, its first address has begun a range of one line there. -/
def Closes (host : Host) (id : ℕ) (i : Instr) (v : Vm) (s : Option ℤ) : Prop :=
  ∀w,exec host i v=.ok () w→(w.ranges id).isOn=true→
    begun id i v s=some v.lineno ∧ (w.ranges id).offFrom=v.lineno

/-- The range is open: it was begun before its last line and has not met that. -/
def Open (r : Range) : Prop := r.isOn=true ∧ r.offFrom=0

def Holds (id : ℕ) (r : Range) (l : ℤ) (v : Vm) : Prop := v.ranges id=r ∧ l≤v.lineno

section
variable {id : ℕ} {r : Range} {l : ℤ}

theorem holds_effect {k : Option ℕ} (hk : k≠some id) {v w : Vm} (hv : Holds id r l v)
    (h : Effect k v w) : Holds id r l w := by
  induction h with
  | refl => exact hv
  | apart _ ha ih =>
    refine ⟨(ha.ranges id hk).trans ih.1,?_⟩
    rw [ha.input.2.2.2.2]
    exact ih.2
  | write s _ ih => exact ih

theorem holds_fill : Preserves (Holds id r l) cmdFillNext := by
  refine Preserves.bind ?_ fun _ => ?_
  · refine preserves_get.bind fun v => ?_
    cases v.appl with
    | none => exact preserves_pure _
    | some text =>
      dsimp only [flushText]
      refine Preserves.withDefer (fun w h => ?_) fun _ _ h => h
      rw [run_emit]
      split <;> exact h
  · refine preserves_get.bind fun v => (preserves_throw _).ite ?_
    refine preserves_get.bind fun v => preserves_modify_bind (fun w h => ⟨h.1,?_⟩) ?_
    · have : l≤w.lineno := h.2
      change l≤w.lineno+1
      omega
    · split
      · exact preserves_throw _
      · exact preserves_pure _

theorem holds_exec (host : Host) {i : Instr} (h : Instr.range? i≠some id) :
    Preserves (Holds id r l) (exec host i) := by
  by_cases hs : Instr.Stops i
  · cases i with
    | quit => exact preserves_modify_bind (fun _ h => h) (preserves_throw _)
    | fillNext => exact holds_fill
    | fillNextAppend =>
      exact preserves_get.bind fun _ => holds_fill.bind fun _ => preserves_modify fun _ h => h
    | _ => exact hs.elim
  by_cases hq : Instr.Special i
  · obtain ⟨t,ht⟩ := exec_queues host hq hs
    rw [ht]
    refine preserves_modify_bind (fun _ h => h) (preserves_get.bind fun v => ?_)
    cases t v with
    | some text => exact preserves_modify fun _ h => h
    | none => exact preserves_pure _
  · exact fun v hv => holds_effect h hv ((mild_exec host hq hs).effect v)

theorem holds_opening : Preserves (Holds id r l) opening := by
  intro v hv
  rw [opening,run_get_bind]
  split
  · refine holds_fill.withDefer (fun _ _ h => ?_) v hv
    exact h
  split
  · have hpour : Preserves (Holds id r l) (pour v.out.overflow) :=
      preserves_get.bind fun _ =>
        preserves_modify_bind (fun _ h => h) ((preserves_throw _).ite (preserves_pure _))
    exact hpour _ hv
  · exact hv

end

section
variable {host : Host} {ins : List Instr} {id : ℕ} {start : Cond} {n : ℤ} {met unmet : ℕ} {v : Vm}
  {s : Option ℤ}

theorem Owned.eq (h : Owned ins) {j k : ℕ} {a b : Instr} (ha : ins[j]?=some a)
    (hb : ins[k]?=some b) (hid : Instr.range? a=some id) (hid' : Instr.range? b=some id) : a=b := by
  obtain ⟨hj,rfl⟩ := List.getElem?_eq_some_iff.mp ha
  obtain ⟨hk,rfl⟩ := List.getElem?_eq_some_iff.mp hb
  have hpair := List.pairwise_iff_getElem.mp h
  rcases lt_trichotomy j k with hlt | rfl | hlt
  · simpa [hid,hid'] using hpair j k hj hk hlt
  · rfl
  · simpa [hid,hid'] using hpair k j hk hj hlt

def commit (id : ℕ) (r : Range) (target : ℕ) (v : Vm) : Vm :=
  { v with ranges := Function.update v.ranges id r,ip := target }

theorem run_twocond_off (h : isOff (v.ranges id) v.lineno=true)
    (hoff : (v.ranges id).isOn=false→(v.ranges id).offFrom=0) :
    exec host (.twocond id start (.number n) met unmet) v = match isMet 0 start v with
      | .ok true w =>
        .ok () (commit id (startRange (.number n) v.lineno
          { v.ranges id with isOn := false,offFrom := 0 }) met w)
      | .ok false w => .ok () (commit id { v.ranges id with isOn := false,offFrom := 0 } unmet w)
      | .error e w => .error e w := by
  have hr : (if (v.ranges id).isOn ∧ 0<(v.ranges id).offFrom ∧ (v.ranges id).offFrom<v.lineno then
      { v.ranges id with isOn := false,offFrom := 0 } else v.ranges id) =
      { v.ranges id with isOn := false,offFrom := 0 } := by
    split_ifs with hnot
    · rfl
    have hon : (v.ranges id).isOn=false := by
      simp only [isOff,Bool.or_eq_true,Bool.and_eq_true,decide_eq_true_eq] at h
      exact Bool.eq_false_iff.mpr fun hon => hnot ⟨hon,h.resolve_left (by simp [hon])⟩
    rw [←hoff hon,←hon]
  change cmdTwocond id start (.number n) met unmet v=_
  rw [cmdTwocond,run_get_bind]
  simp only [hr,Bool.false_eq_true,if_false]
  rw [run_bind]
  cases isMet 0 start v with
  | ok b w => cases b <;> rfl
  | error e w => rfl

theorem run_twocond_on (h : isOff (v.ranges id) v.lineno=false) :
    exec host (.twocond id start (.number n) met unmet) v=.ok () (commit id { v.ranges id with
        offFrom := if v.lineno=n then v.lineno else (v.ranges id).offFrom } met v) := by
  simp only [isOff,Bool.or_eq_false_iff,Bool.not_eq_false',Bool.and_eq_false_iff,
    decide_eq_false_iff_not] at h
  obtain ⟨hon,hnot⟩ := h
  change cmdTwocond id start (.number n) met unmet v=_
  rw [cmdTwocond,run_get_bind]
  generalize v.ranges id=r at hon hnot ⊢
  obtain ⟨isOn,offFrom,target⟩ := r
  obtain rfl : isOn=true := hon
  simp only [true_and,if_neg (not_and_or.mpr hnot),if_true]
  by_cases hn : v.lineno=n
  · simp only [isMet,run_bind,run_get,hn,beq_self_eq_true]
    rfl
  · simp only [isMet,run_bind,run_get,beq_eq_false_iff_ne.mpr hn,if_neg hn]
    rfl

structure Known (n : ℤ) (r : Range) (lineno : ℤ) (s : Option ℤ) : Prop where
  off : r.isOn=false → r.offFrom=0
  nonneg : 0≤r.offFrom
  ended : r.offFrom≠0 → r.offFrom≤lineno ∧ (r.offFrom=n ∨ s=some r.offFrom)

theorem Known.mono {r : Range} {l l' : ℤ} (h : Known n r l s) (hl : l≤l') : Known n r l' s :=
  ⟨h.off,h.nonneg,fun hne => ⟨(h.ended hne).1.trans hl,(h.ended hne).2⟩⟩

theorem known_of_holds {l : ℤ} {w : Vm} (h : Known n (v.ranges id) l s)
    (hw : Holds id (v.ranges id) l w) : Known n (w.ranges id) w.lineno s := by
  rw [hw.1]
  exact h.mono hw.2

theorem begun_off (h : isOff (v.ranges id) v.lineno=true) :
    begun id (.twocond id start (.number n) met unmet) v s = match isMet 0 start v with
      | .ok true _ => some v.lineno
      | _ => s := by
  simp [begun,h]

theorem begun_on (h : isOff (v.ranges id) v.lineno=false) :
    begun id (.twocond id start (.number n) met unmet) v s=s := by
  simp [begun,h]

@[simp] theorem commit_ranges (r : Range) (target : ℕ) (w : Vm) :
    (commit id r target w).ranges id=r := Function.update_self _ _ _

theorem known_twocond (hn : 0≤n) (h : Known n (v.ranges id) v.lineno s) :
    let w := final (exec host (.twocond id start (.number n) met unmet) v)
    Known n (w.ranges id) w.lineno (begun id (.twocond id start (.number n) met unmet) v s) := by
  cases hoff : isOff (v.ranges id) v.lineno with
  | true =>
    rw [run_twocond_off hoff h.off,begun_off hoff]
    have hmet : Holds id (v.ranges id) v.lineno (final (isMet 0 start v)) :=
      holds_effect (k := none) (by simp) ⟨rfl,le_rfl⟩ ((mild_isMet 0 start).effect v)
    cases hr : isMet 0 start v with
    | error e w =>
      rw [hr] at hmet
      exact known_of_holds h hmet
    | ok b w =>
      rw [hr] at hmet
      have hline : v.lineno≤w.lineno := hmet.2
      cases b with
      | false => exact ⟨by simp,by simp,by simp⟩
      | true =>
        simp only [final_ok,commit_ranges,startRange]
        refine ⟨by simp,?_,fun hne => ?_⟩
        · dsimp only
          split <;> omega
        split_ifs at hne with hle
        · simp only [if_pos hle]
          exact ⟨hline,.inr trivial⟩
        · simp at hne
  | false =>
    rw [run_twocond_on hoff,begun_on hoff]
    simp only [final_ok,commit_ranges]
    by_cases hline : v.lineno=n
    · simp only [if_pos hline]
      refine ⟨fun hon => ?_,show 0≤v.lineno by omega,fun _ => ⟨le_rfl,.inl hline⟩⟩
      simp [isOff,show (v.ranges id).isOn=false from hon] at hoff
    · simp only [if_neg hline]
      exact h

theorem known_runs (hown : Owned ins) {j : ℕ}
    (hj : ins[j]?=some (.twocond id start (.number n) met unmet)) (hn : 0≤n)
    (h : Runs host ins id v s) : Known n (v.ranges id) v.lineno s := by
  induction h with
  | start => exact ⟨fun _ => rfl,le_rfl,fun h => absurd rfl h⟩
  | read size _ ih => exact known_of_holds ih (holds_opening _ ⟨rfl,le_rfl⟩)
  | @step v s i _ hi ih =>
    by_cases hid : Instr.range? i=some id
    · rw [hown.eq hi hj hid rfl]
      exact known_twocond hn ih
    have hsame : begun id i v s=s := by
      cases i with
      | twocond id' => simp [begun,show id'≠id from fun h => hid (by rw [h]; rfl)]
      | _ => rfl
    rw [hsame]
    exact known_of_holds ih (holds_exec host hid v ⟨rfl,le_rfl⟩)

/-- On a line after its second address the range closes unless it is still open there. -/
theorem closes_iff_not_open (hown : Owned ins) (hn : 0≤n) (h : Runs host ins id v s)
    (hi : ins[v.ip]?=some (.twocond id start (.number n) met unmet)) (hline : n<v.lineno) :
    Closes host id (.twocond id start (.number n) met unmet) v s ↔ ¬ Open (v.ranges id) := by
  have hknown := known_runs hown hi hn h
  constructor
  · rintro hcloses ⟨hon,hfrom⟩
    have hoff : isOff (v.ranges id) v.lineno=false := by simp [isOff,hon,hfrom]
    obtain ⟨-,hlast⟩ := hcloses _ (run_twocond_on hoff) (by simpa using hon)
    simp only [commit_ranges] at hlast
    omega
  · intro hopen w hrun hon
    cases hoff : isOff (v.ranges id) v.lineno with
    | true =>
      rw [run_twocond_off hoff hknown.off] at hrun
      rw [begun_off hoff]
      cases hr : isMet 0 start v with
      | error e x => simp [hr] at hrun
      | ok b x =>
        cases b with
        | false =>
          simp only [hr,EStateM.Result.ok.injEq,true_and] at hrun
          simp [←hrun] at hon
        | true =>
          simp only [hr,EStateM.Result.ok.injEq,true_and] at hrun
          simp [←hrun,startRange,hline.le]
    | false =>
      rw [run_twocond_on hoff] at hrun
      cases hrun
      rw [begun_on hoff]
      simp only [commit_ranges,if_neg hline.ne'] at hon ⊢
      have hfrom : (v.ranges id).offFrom≠0 := fun h => hopen ⟨hon,h⟩
      obtain ⟨hle,hlast⟩ := hknown.ended hfrom
      have hge : v.lineno≤(v.ranges id).offFrom := by
        have := hknown.nonneg
        simp only [isOff,hon,Bool.not_true,Bool.false_or,Bool.and_eq_false_iff,
          decide_eq_false_iff_not] at hoff
        omega
      have hequal : (v.ranges id).offFrom=v.lineno := le_antisymm hle hge
      rw [hequal] at hlast
      exact ⟨hlast.resolve_left hline.ne',hequal⟩

def march (host : Host) (ins : List Instr) (id : ℕ) : ℕ→Vm→Option ℤ→Vm×Option ℤ
  | 0,v,s => (v,s)
  | k+1,v,s =>
    match ins[v.ip]? with
    | some i => march host ins id k (final (exec host i v)) (begun id i v s)
    | none => (v,s)

theorem runs_march (k : ℕ) (h : Runs host ins id v s) :
    Runs host ins id (march host ins id k v s).1 (march host ins id k v s).2 := by
  induction k generalizing v s with
  | zero => exact h
  | succ k ih =>
    rw [march]
    cases hi : ins[v.ip]? with
    | none => exact h
    | some i => exact ih (h.step hi)

end

/-- `sed -n '2,1p'`. -/
def backward : List Instr :=
  [.fillNext,.twocond 0 (.number 2) (.number 1) 2 3,.print,.branch 0]

/-- `sed -n '1,2p;N;N'`. -/
def skipping : List Instr :=
  [.fillNext,.twocond 0 (.number 1) (.number 2) 2 3,.print,.fillNextAppend,.fillNextAppend,
    .branch 0]

def reached (ins : List Instr) (k : ℕ) : Vm×Option ℤ :=
  march {} ins 0 k (final (opening (put { room := some 512 }
    (wrap { reads := [ascii "A\nB\nC\nD\nE\n"] } none)))) none

theorem runs_reached (ins : List Instr) (k : ℕ) :
    Runs {} ins 0 (reached ins k).1 (reached ins k).2 :=
  runs_march k (Runs.read 512 (Runs.start _ _))

theorem closes_backward : ∃v s,Runs {} backward 0 v s ∧ v.lineno=2 ∧ backward[v.ip]? =
      some (.twocond 0 (.number 2) (.number 1) 2 3) ∧
      Closes {} 0 (.twocond 0 (.number 2) (.number 1) 2 3) v s := by
  obtain ⟨v,s,h,hline,hip,hoff⟩ : ∃v s,Runs {} backward 0 v s ∧ v.lineno=2 ∧ v.ip=1 ∧
      (v.ranges 0).isOn=false :=
    ⟨_,_,runs_reached backward 4,by decide,by decide,by decide⟩
  have hi : backward[v.ip]?=some (.twocond 0 (.number 2) (.number 1) 2 3) := by
    rw [hip]
    rfl
  refine ⟨v,s,h,hline,hi,(closes_iff_not_open ?_ (by decide) h hi (by omega)).mpr ?_⟩
  · simp [Owned,backward,Instr.range?]
  · rintro ⟨hon,-⟩
    simp [hoff] at hon

/-- Two lines are read between two runs of the instruction: on the fourth the range is on. -/
theorem not_closes_skipping : ∃v s,Runs {} skipping 0 v s ∧ v.lineno=4 ∧ skipping[v.ip]? =
      some (.twocond 0 (.number 1) (.number 2) 2 3) ∧
      ¬ Closes {} 0 (.twocond 0 (.number 1) (.number 2) 2 3) v s := by
  obtain ⟨v,s,h,hline,hip,hon,hfrom⟩ : ∃v s,Runs {} skipping 0 v s ∧ v.lineno=4 ∧
      v.ip=1 ∧ (v.ranges 0).isOn=true ∧ (v.ranges 0).offFrom=0 :=
    ⟨_,_,runs_reached skipping 7,by decide,by decide,by decide,by decide⟩
  refine ⟨v,s,h,hline,?_,fun hcloses => ?_⟩
  · rw [hip]
    rfl
  · have hoff : isOff (v.ranges 0) v.lineno=false := by simp [isOff,hon,hfrom]
    obtain ⟨-,hlast⟩ := hcloses _ (run_twocond_on hoff) (by simpa using hon)
    simp [hline,hfrom] at hlast

end Coreutils.SedRanges
