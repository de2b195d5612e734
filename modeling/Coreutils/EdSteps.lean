import Coreutils.EdExecute
import Coreutils.LineRanges

/-!
# The steps of an editing session

The part of the engine that editing is about, and what one step of a command can do to it. A step
carries the range conditions under which the source takes it, so what holds of every step holds of
every command.
-/

namespace Coreutils.EdSteps
open List GoText EdEngine EdExecute LineRanges

/-- The lines, the marks and what `u` and the global commands keep of them. -/
structure Core where
  buffer : Buffer
  marks : Marks
  undoBuffer : Buffer
  undoMarks : Marks
  undoValid : Bool
  inGlobal : Bool
  globalTargets : List ℤ
  changeSeq : ℕ
  history : List Change
  audit : List Audit

def core {W : Type} (e : Engine W) : Core where
  buffer := e.buffer
  marks := e.marks
  undoBuffer := e.undoBuffer
  undoMarks := e.undoMarks
  undoValid := e.undoValid
  inGlobal := e.inGlobal
  globalTargets := e.globalTargets
  changeSeq := e.changeSeq
  history := e.history
  audit := e.audit

inductive Act where
  | dot (n : ℤ)
  | save
  | insert (after : ℤ) (texts : List Bytes)
  | delete (first last : ℤ)
  | join (first last : ℤ)
  | move (first last dest : ℤ)
  | split (n : ℤ) (pieces : List Bytes)
  | touch (n : ℤ)
  | count
  | mark (k : UInt8) (n : ℤ)
  | undo
  | load (texts : List Bytes)
  | clean
  | enter (targets : List ℤ)
  | visit (index : ℕ) (n : ℤ)
  | leave

def moveTo (first last dest : ℤ) : ℤ := if last<dest then dest-(last-first+1) else dest

def dotAfter (lines : List Bytes) (first : ℤ) : ℤ :=
  if lines=[] then 0 else if first≤lines.length then first else lines.length

/-- The selected lines of a global command once the whole buffer was replaced. -/
def cleared (c : Core) : List ℤ :=
  if c.inGlobal then c.globalTargets.map fun _ => 0 else c.globalTargets

inductive Step : Core→Act → Core→Prop
  | dot {c : Core} {n : ℤ} (h₀ : 0≤n) (h₁ : n≤c.buffer.last) :
      Step c (.dot n) { c with buffer := { c.buffer with current := n } }
  | save {c : Core} (h : c.inGlobal=false) :
      Step c .save { c with
        undoBuffer := c.buffer
        undoMarks := c.marks
        undoValid := true
        history := c.history++[.save] }
  | insert {c : Core} {after : ℤ} {texts : List Bytes} (hne : texts≠[]) (h₀ : 0≤after)
      (h₁ : after≤c.buffer.last) :
      Step c (.insert after texts) { c with
        buffer := ⟨withAfter c.buffer.lines after texts,after+texts.length,true⟩
        marks := c.marks.insert after texts.length
        globalTargets := adjustGlobalInsert c.globalTargets after texts.length
        history := c.history++[.insert after texts] }
  | delete {c : Core} {first last : ℤ} (h₀ : 1≤first) (h₁ : first≤last)
      (h₂ : last≤c.buffer.last) :
      Step c (.delete first last) { c with
        buffer := ⟨without c.buffer.lines first last,
          dotAfter (without c.buffer.lines first last) first,true⟩
        marks := c.marks.delete first last
        globalTargets := adjustGlobalDelete c.globalTargets first last
        history := c.history++[.delete first last] }
  | join {c : Core} {first last : ℤ} (h₀ : 1≤first) (h₁ : first<last)
      (h₂ : last≤c.buffer.last) :
      Step c (.join first last) { c with
        buffer := ⟨withAfter (without c.buffer.lines first last) (first-1)
          [(range c.buffer.lines first last).flatten],first-1+1,true⟩
        marks := ((c.marks.delete first last).insert (first-1) 1).replace c.marks first last
          fun _ => first
        globalTargets :=
          adjustGlobalInsert (adjustGlobalDelete c.globalTargets first last) (first-1) 1
        history := c.history++[.join first last] }
  | move {c : Core} {first last dest : ℤ} (h₀ : 1≤first) (h₁ : first≤last)
      (h₂ : last≤c.buffer.last) (h₃ : 0≤dest) (h₄ : dest≤c.buffer.last)
      (h₅ : dest<first-1 ∨ last<dest) :
      Step c (.move first last dest) { c with
        buffer := ⟨withAfter (without c.buffer.lines first last) (moveTo first last dest)
          (range c.buffer.lines first last),moveTo first last dest+(last-first+1),true⟩
        marks := ((c.marks.delete first last).insert (moveTo first last dest)
          (last-first+1)).replace c.marks first last
            fun n => moveTo first last dest+1+(n-first)
        globalTargets := adjustGlobalInsert (adjustGlobalDelete c.globalTargets first last)
          (moveTo first last dest) (last-first+1)
        history := c.history++[.move first last dest] }
  | split {c : Core} {n : ℤ} {pieces : List Bytes} (hne : pieces≠[]) (h₀ : 1≤n)
      (h₁ : n≤c.buffer.last) (hd : c.buffer.dirty=true) :
      Step c (.split n pieces) { c with
        buffer := { c.buffer with
          lines := c.buffer.lines.take (n-1).toNat++pieces++c.buffer.lines.drop n.toNat }
        marks := fun k => (c.marks k).map fun m => if n ≤ m then m+(pieces.length-1) else m
        globalTargets := c.globalTargets.map fun t =>
          if t=n then 0 else if n<t then t+(pieces.length-1) else t
        history := c.history++[.split n pieces] }
  | touch {c : Core} {n : ℤ} (h₀ : 1≤n) (h₁ : n≤c.buffer.last) :
      Step c (.touch n) { c with buffer := { c.buffer with current := n,dirty := true } }
  | count {c : Core} : Step c .count { c with changeSeq := c.changeSeq+1 }
  | mark {c : Core} {k : UInt8} {n : ℤ} (h₀ : 1≤n) (h₁ : n≤c.buffer.last) :
      Step c (.mark k n) { c with
        marks := fun j => if j=k then some n else c.marks j
        history := c.history++[.mark k n] }
  | undo {c : Core} (h : c.undoValid=true) :
      Step c .undo { c with
        buffer := { c.undoBuffer with
          dirty := if c.undoBuffer.lines≠c.buffer.lines then true else c.undoBuffer.dirty }
        marks := c.undoMarks
        undoBuffer := c.buffer
        undoMarks := c.marks
        globalTargets := cleared c
        history := c.history++[Change.undo]
        audit := c.audit++[.undone c.undoBuffer c.buffer.lines] }
  | load {c : Core} {texts : List Bytes} :
      Step c (.load texts) { c with
        buffer := Buffer.reset texts false
        marks := fun _ => none
        undoValid := false
        globalTargets := cleared c
        history := c.history++[.load texts]
        audit := c.audit++[.loaded texts] }
  | clean {c : Core} :
      Step c .clean { c with
        buffer := { c.buffer with dirty := false }
        audit := c.audit++[.written c.inGlobal c.buffer.lines] }
  | enter {c : Core} {targets : List ℤ} (h : c.inGlobal=false)
      (ht : ∀t∈targets,0≤t ∧ t≤c.buffer.last) :
      Step c (.enter targets) { c with inGlobal := true,globalTargets := targets }
  | visit {c : Core} {index : ℕ} {n : ℤ} (h : c.globalTargets[index]?=some n) :
      Step c (.visit index n) { c with
        buffer := { c.buffer with current := n }
        globalTargets := c.globalTargets.set index 0 }
  | leave {c : Core} : Step c .leave { c with inGlobal := false,globalTargets := [] }

def Marks.In (m : Marks) (last : ℤ) : Prop := ∀k n,m k=some n→1≤n ∧ n≤last

/-- Dot, marks and selected lines are in the buffer, and so is what `u` would restore of them. -/
structure InRange (c : Core) : Prop where
  dot : 0≤c.buffer.current ∧ c.buffer.current≤c.buffer.last
  marks : Marks.In c.marks c.buffer.last
  undoDot : c.undoValid=true→
    0≤c.undoBuffer.current ∧ c.undoBuffer.current≤c.undoBuffer.last
  undoMarks : c.undoValid=true→Marks.In c.undoMarks c.undoBuffer.last
  targets : ∀t∈c.globalTargets,0≤t ∧ t≤c.buffer.last
  outside : c.inGlobal=false→c.globalTargets=[]

section
variable {lines texts : List Bytes} {first : ℤ}

theorem length_split {n : ℤ} (h₀ : 1≤n) (h₁ : n≤lines.length) :
    ((lines.take (n-1).toNat++texts++lines.drop n.toNat).length : ℤ) =
      lines.length+(texts.length-1) := by
  simp only [length_append,length_take,length_drop]
  omega

theorem dotAfter_range (lines : List Bytes) (h : 1≤first) :
    0≤dotAfter lines first ∧ dotAfter lines first≤lines.length := by
  unfold dotAfter
  split
  · simp
  · split <;> omega

end

variable {first stop : ℤ} {after count : ℤ}

section
variable {m : Marks} {last : ℤ}

theorem Marks.In.insert (h : Marks.In m last) (h₀ : 0≤count) :
    Marks.In (m.insert after count) (last+count) := by
  intro k n hn
  obtain ⟨n',hn',rfl⟩ := Option.map_eq_some_iff.mp hn
  have := h k n' hn'
  split <;> omega

theorem Marks.In.delete (h : Marks.In m last) (h₀ : 1≤first) (h₂ : stop≤last) :
    Marks.In (m.delete first stop) (last-(stop-first+1)) := by
  intro k n hn
  obtain ⟨n',hn',hif⟩ := Option.bind_eq_some_iff.mp hn
  have := h k n' hn'
  split_ifs at hif <;> simp only [Option.some.injEq] at hif <;> omega

theorem Marks.In.replace {old : Marks} {place : ℤ→ℤ} (h : Marks.In m last)
    (hplace : ∀n,first≤n→n ≤ stop→1≤place n ∧ place n≤last) :
    Marks.In (m.replace old first stop place) last := by
  intro k n hn
  unfold Marks.replace at hn
  cases hf : (old k).filter fun n => first≤n ∧ n ≤ stop with
  | none =>
    rw [hf] at hn
    exact h k n hn
  | some n' =>
    rw [hf] at hn
    have hr := (Option.filter_eq_some_iff.mp hf).2
    simp only [decide_eq_true_eq] at hr
    cases hn
    exact hplace n' hr.1 hr.2

end

section
variable {targets : List ℤ} {last : ℤ}

theorem adjustGlobalInsert_range (h : ∀t∈targets,0≤t ∧ t≤last) (h₀ : 0≤count) :
    ∀t∈adjustGlobalInsert targets after count,0≤t ∧ t≤last+count := by
  intro t ht
  obtain ⟨t',ht',rfl⟩ := mem_map.mp ht
  have := h t' ht'
  split <;> omega

theorem adjustGlobalDelete_range (h : ∀t∈targets,0≤t ∧ t≤last) (h₀ : 1≤first) (h₂ : stop≤last) :
    ∀t∈adjustGlobalDelete targets first stop,0≤t ∧ t≤last-(stop-first+1) := by
  intro t ht
  obtain ⟨t',ht',rfl⟩ := mem_map.mp ht
  have := h t' ht'
  split_ifs <;> omega

end

theorem adjustGlobalInsert_nil (after count : ℤ) : adjustGlobalInsert [] after count=[] := rfl

theorem adjustGlobalDelete_nil (first last : ℤ) : adjustGlobalDelete [] first last=[] := rfl

variable {first last : ℤ} {c : Core} {lines : List Bytes}

theorem moveTo_range {dest n : ℤ} (h₀ : 1≤first) (h₃ : 0≤dest) (h₄ : dest≤n)
    (h₅ : dest<first-1 ∨ last<dest) (h₂ : last≤n) :
    0 ≤ moveTo first last dest ∧ moveTo first last dest≤n-(last-first+1) := by
  unfold moveTo
  split <;> omega

theorem cleared_range (h : c.inGlobal=false→c.globalTargets=[]) : ∀t∈cleared c,t=0 := by
  intro t ht
  unfold cleared at ht
  split_ifs at ht with hg
  · obtain ⟨_,_,rfl⟩ := mem_map.mp ht
    rfl
  · rw [h (by simpa using hg)] at ht
    simp at ht

theorem cleared_outside (h : c.inGlobal=false→c.globalTargets=[])
    (hg : c.inGlobal=false) : cleared c=[] := by
  simp [cleared,h hg]

/-- A join is a deletion and an insertion of one line. -/
theorem length_join (text : Bytes) (h₀ : 1≤first) (h₁ : first≤last) (h₂ : last≤lines.length) :
    ((withAfter (without lines first last) (first-1) [text]).length : ℤ) =
      lines.length-(last-first+1)+1 := by
  have hw := length_without h₀ h₁ h₂
  rw [length_withAfter (by omega),hw]
  rfl

theorem length_move {dest : ℤ} (h₀ : 1≤first) (h₁ : first≤last)
    (h₂ : last≤lines.length) (h₃ : 0≤dest) (h₄ : dest≤lines.length)
    (h₅ : dest<first-1 ∨ last<dest) :
    ((withAfter (without lines first last) (moveTo first last dest)
      (range lines first last)).length : ℤ)=lines.length-(last-first+1)+(last-first+1) := by
  have hw := length_without h₀ h₁ h₂
  have hm := moveTo_range h₀ h₃ h₄ h₅ h₂
  rw [length_withAfter (by omega),hw,length_range h₀ h₁ h₂]

theorem Step.inRange {c' : Core} {a : Act} (hc : InRange c) (h : Step c a c') : InRange c' := by
  obtain ⟨hdot,hmarks,hudot,humarks,htargets,hout⟩ := hc
  cases h with
  | dot h₀ h₁ => exact ⟨⟨h₀,h₁⟩,hmarks,hudot,humarks,htargets,hout⟩
  | save h => exact ⟨hdot,hmarks,fun _ => hdot,fun _ => hmarks,htargets,hout⟩
  | insert hne h₀ h₁ =>
    refine ⟨?_,?_,hudot,humarks,?_,fun hg => by simp [hout hg,adjustGlobalInsert_nil]⟩
    all_goals simp only [Buffer.last,length_withAfter h₁]
    · simp only [Buffer.last] at h₁
      omega
    · exact hmarks.insert (by omega)
    · exact adjustGlobalInsert_range htargets (by omega)
  | delete h₀ h₁ h₂ =>
    refine ⟨dotAfter_range _ h₀,?_,hudot,humarks,?_,
      fun hg => by simp [hout hg,adjustGlobalDelete_nil]⟩
    all_goals simp only [Buffer.last,length_without h₀ h₁ h₂]
    · exact hmarks.delete h₀ h₂
    · exact adjustGlobalDelete_range htargets h₀ h₂
  | join h₀ h₁ h₂ =>
    refine ⟨?_,?_,hudot,humarks,?_,
      fun hg => by simp [hout hg,adjustGlobalDelete_nil,adjustGlobalInsert_nil]⟩
    all_goals simp only [Buffer.last,length_join _ h₀ h₁.le h₂]
    · simp only [Buffer.last] at h₂
      omega
    · refine ((hmarks.delete h₀ h₂).insert (by omega)).replace fun n _ _ => ?_
      omega
    · exact adjustGlobalInsert_range (adjustGlobalDelete_range htargets h₀ h₂) (by omega)
  | move h₀ h₁ h₂ h₃ h₄ h₅ =>
    have hto := moveTo_range h₀ h₃ h₄ h₅ h₂
    refine ⟨?_,?_,hudot,humarks,?_,
      fun hg => by simp [hout hg,adjustGlobalDelete_nil,adjustGlobalInsert_nil]⟩
    all_goals simp only [Buffer.last,length_move h₀ h₁ h₂ h₃ h₄ h₅]
    · simp only [Buffer.last] at hto
      omega
    · refine ((hmarks.delete h₀ h₂).insert (by omega)).replace fun n hn hn' => ?_
      omega
    · exact adjustGlobalInsert_range (adjustGlobalDelete_range htargets h₀ h₂) (by omega)
  | @split n pieces hne h₀ h₁ =>
    have hpos : 0<pieces.length := length_pos_iff.mpr hne
    have hlen := @length_split c.buffer.lines pieces n h₀ h₁
    refine ⟨?_,fun k m hm => ?_,hudot,humarks,fun t ht => ?_,fun hg => by simp [hout hg]⟩
    all_goals simp only [Buffer.last]
    · simp only [Buffer.last] at hdot
      omega
    · obtain ⟨m',hm',rfl⟩ := Option.map_eq_some_iff.mp hm
      have := hmarks k m' hm'
      simp only [Buffer.last] at this
      split <;> omega
    · obtain ⟨t',ht',rfl⟩ := mem_map.mp ht
      have := htargets t' ht'
      simp only [Buffer.last] at this
      split_ifs <;> omega
  | touch h₀ h₁ => exact ⟨⟨le_trans (by decide) h₀,h₁⟩,hmarks,hudot,humarks,htargets,hout⟩
  | count | clean => exact ⟨hdot,hmarks,hudot,humarks,htargets,hout⟩
  | mark h₀ h₁ =>
    refine ⟨hdot,fun j n hn => ?_,hudot,humarks,htargets,hout⟩
    simp only at hn
    split at hn
    · cases hn
      exact ⟨h₀,h₁⟩
    · exact hmarks j n hn
  | undo h =>
    refine ⟨hudot h,humarks h,fun _ => hdot,fun _ => hmarks,fun t ht => ?_,cleared_outside hout⟩
    rw [cleared_range hout t ht]
    exact ⟨le_rfl,Int.natCast_nonneg _⟩
  | load =>
    refine ⟨⟨Int.natCast_nonneg _,le_rfl⟩,fun k n hn => by simp at hn,fun h => by simp at h,
      fun h => by simp at h,fun t ht => ?_,cleared_outside hout⟩
    rw [cleared_range hout t ht]
    exact ⟨le_rfl,Int.natCast_nonneg _⟩
  | enter h ht => exact ⟨hdot,hmarks,hudot,humarks,ht,fun h => by simp at h⟩
  | visit h =>
    refine ⟨htargets _ (mem_of_getElem? h),hmarks,hudot,humarks,fun t ht => ?_,fun hg => ?_⟩
    · rcases mem_or_eq_of_mem_set ht with ht | rfl
      · exact htargets t ht
      · exact ⟨le_rfl,Int.natCast_nonneg _⟩
    · rw [hout hg] at h
      simp at h
  | leave => exact ⟨hdot,hmarks,hudot,humarks,fun t ht => by simp at ht,fun _ => rfl⟩

end Coreutils.EdSteps
