import Coreutils.EdGlobals

/-!
# Undo

The undo state that a command leaves is the state in which it took its snapshot; two `u` after it go
back to that state and return.
-/

namespace Coreutils.EdUndo
open List GoText EdEngine EdAddress EdExecute EdSteps EdTraces EdCommands EdGlobals Programs

def change? : Act→Option Change
  | .save => some .save
  | .insert after texts => some (.insert after texts)
  | .delete first last => some (.delete first last)
  | .join first last => some (.join first last)
  | .move first last dest => some (.move first last dest)
  | .split n pieces => some (.split n pieces)
  | .mark k n => some (.mark k n)
  | .undo => some .undo
  | .load texts => some (.load texts)
  | .dot _ | .touch _ | .count | .clean | .enter _ | .visit _ _ | .leave => none

variable {c c' : Core} {acts : List Act}

theorem history_step {a : Act} (h : Step c a c') : c'.history=c.history++(change? a).toList := by
  cases h <;> simp [change?]

theorem history_path (h : Path Step c acts c') : c'.history=c.history++acts.filterMap change? := by
  induction h with
  | nil => simp
  | @cons c c' c'' a as hs _ ih =>
    rw [ih,history_step hs]
    cases h : change? a <;> simp [h]

def isEdit : Change→Bool
  | .undo | .load _ => false
  | _ => true

/-- What happened to a core consists of edits. -/
def EditsOnly (c c' : Core) : Prop := ∀x∈c'.history.drop c.history.length,isEdit x=true

theorem editsOnly_path (h : Path Step c acts c')
    (hedits : EditsOnly c c') : Act.undo∉acts ∧ ∀texts,Act.load texts∉acts := by
  have hall : ∀a∈acts,∀x,change? a=some x→isEdit x=true := by
    intro a ha x hx
    apply hedits
    rw [history_path h,drop_left]
    exact mem_filterMap.mpr ⟨a,ha,hx⟩
  refine ⟨fun hmem => ?_,fun texts hmem => ?_⟩
  · exact absurd (hall _ hmem _ rfl) (by simp [isEdit])
  · exact absurd (hall _ hmem _ rfl) (by simp [isEdit])

structure Holds (c : Core) (b : Buffer) (m : Marks) : Prop where
  valid : c.undoValid=true
  buffer : c.undoBuffer=b
  marks : c.undoMarks=m

theorem holds_save (h : Step c .save c') : Holds c' c.buffer c.marks := by
  cases h
  exact ⟨rfl,rfl,rfl⟩

def Gentle : Act→Prop
  | .save | .undo | .load _ => False
  | _ => True

theorem holds_gentle {b : Buffer} {m : Marks} (hh : Holds c b m)
    (hacts : ∀a∈acts,Gentle a) (h : Path Step c acts c') : Holds c' b m := by
  refine h.invariant (I := fun d => Holds d b m) hh fun d a d' ha hd hs => ?_
  have := hacts a ha
  cases hs <;> first | exact ⟨hd.valid,hd.buffer,hd.marks⟩ | exact this.elim

theorem gentle_of_editing {a : Act} (h : Editing a) : Gentle a := by cases a <;> trivial

/-- An edit outside a global command that changed lines leaves the state of before it to `u`. -/
theorem holds_edited (h : Edited c c') (hg : c.inGlobal=false)
    (hlines : c'.buffer.lines≠c.buffer.lines) : Holds c' c.buffer c.marks := by
  rcases h with h | ⟨acts,hacts,_,hp⟩
  · obtain ⟨acts,hacts,hp⟩ := h
    exact absurd (lines_path (fun a ha => sameLines_of_isDot (hacts a ha)) hp) hlines
  · rw [saves,if_neg (by simp [hg])] at hp
    cases hp with
    | cons hs hp =>
      exact holds_gentle (holds_save hs) (fun a ha => gentle_of_editing (hacts a ha)) hp

theorem holds_visited (h : Visited c c') (hedits : EditsOnly c c')
    (hlines : c'.buffer.lines≠c.buffer.lines) : Holds c' c.buffer c.marks := by
  obtain ⟨targets,c₁,c₂,c₃,c₄,hsave,henter,⟨⟨acts,hacts,hp⟩,htally⟩,hleave,hend⟩ := h
  rcases hend with ⟨_,rfl⟩ | ⟨hseq,hpath⟩
  · have hno := editsOnly_path (.cons hsave (.cons henter (hp.append (.one hleave)))) hedits
    have hrun : Path Step c₁ (.enter targets::acts++[.leave]) c' :=
      .cons henter (hp.append (.one hleave))
    refine holds_gentle (holds_save hsave) (fun a ha => ?_) hrun
    have hmem : ∀b,b∈acts → b∈Act.save::Act.enter targets::(acts++[.leave]) := by
      intro b hb
      simp [hb]
    simp only [cons_append,mem_cons,mem_append,not_mem_nil,or_false] at ha
    rcases ha with rfl | ha | rfl
    · trivial
    · have hin := hacts a ha
      cases a with
      | undo => exact hno.1 (hmem _ ha)
      | load texts => exact hno.2 texts (hmem _ ha)
      | save => exact hin.elim
      | _ => trivial
    · trivial
  · -- nothing was counted, so no line changed
    exfalso
    apply hlines
    have hsame : c₃.buffer.lines=c₂.buffer.lines := by
      apply htally.2
      cases hsave
      cases henter
      cases hleave
      exact hseq
    have hlast := lines_path (by simp [SameLines]) hpath
    rw [hlast]
    cases hsave
    cases henter
    cases hleave
    exact hsame

section
variable {W : Type} (host : Host W) {e e' : Engine W} {line : Bytes} {q : Bool}

/-- What one line did: its addresses, then its command. -/
theorem execute_ok (hc : InRange (core e)) (hg : e.inGlobal=false)
    (h : execute host line e=.ok q e') :
    ∃addrs rest e₁,parseAddresses host line e=.ok (addrs,rest) e₁ ∧ Trace IsDot (core e) (core e₁) ∧
      (Edited (core e₁) (core e') ∨ Trace Marginal (core e₁) (core e') ∨
        (∃c₁ c₂,Step (core e₁) .undo c₁ ∧ Step c₁ .count c₂ ∧ Trace IsDot c₂ (core e')) ∨
        Loaded (core e₁) (core e') ∨ Visited (core e₁) (core e')) := by
  obtain ⟨addrs,rest,e₁,e₂,hparse,hdid,hcore⟩ := executeWith_ok host h
  have hdots := parseAddresses_trace host hc hparse
  refine ⟨addrs,rest,e₁,hparse,hdots,?_⟩
  rw [hcore]
  cases hdid with
  | edited h => exact .inl h
  | marginal h => exact .inr (.inl h)
  | undone _ _ h₁ h₂ h₃ => exact .inr (.inr (.inl ⟨_,_,h₁,h₂,h₃⟩))
  | loaded _ _ h => exact .inr (.inr (.inr (.inl h)))
  | ran _ _ h =>
    rw [run_modify_bind,bind_ok] at h
    obtain ⟨_,e₃,hglobal,h⟩ := h
    cases h
    have hg₁ : (core e₁).inGlobal=false := (inside_dots hdots).inGlobal.trans hg
    have hvisited := global_visited (e := { e₁ with globalQuit := false }) host
      (executeNested_nests host) (hdots.inRange hc) hg₁ hglobal
    exact .inr (.inr (.inr (.inr hvisited)))

theorem printStyleIf_none : printStyleIf host none e=.ok ⟨⟩ e := by
  rw [printStyleIf,run_get_bind,onlyIf]
  split <;> rfl

theorem execute_u (hv : e.undoValid=true) :
    ∃e₁,execute host (ascii "u") e=.ok false e₁ ∧ e₁.buffer.lines=e.undoBuffer.lines ∧
      e₁.buffer.current=e.undoBuffer.current ∧ e₁.marks=e.undoMarks ∧
      Holds (core e₁) e.buffer e.marks := by
  have hundo : ∃e₁,(undo : Ed W Unit) e=.ok ⟨⟩ e₁ ∧ e₁.buffer.lines=e.undoBuffer.lines ∧
      e₁.buffer.current=e.undoBuffer.current ∧ e₁.marks=e.undoMarks ∧
      Holds (core e₁) e.buffer e.marks := by
    rw [undo,run_get_bind,run_bind_ok (run_refuse (by simp [hv]))]
    exact ⟨_,rfl,rfl,rfl,rfl,hv,rfl,rfl⟩
  obtain ⟨e₁,hrun,hlines,hdot,hmarks,hholds⟩ := hundo
  refine ⟨settle e (.ok false e₁),?_,hlines,?_,hmarks,hholds⟩
  · rw [execute,executeWith,withDefer_ok]
    refine ⟨e₁,?_,rfl⟩
    change andStay (undoCommand host [] []) e=.ok false e₁
    rw [andStay,undoCommand]
    simp only [bind_ok]
    exact ⟨⟨⟩,e₁,⟨⟨⟩,e,rfl,none,e,rfl,⟨⟩,e₁,hrun,printStyleIf_none host⟩,rfl⟩
  · rw [←hdot]
    simp [settle,failed]

def Restores (e e' : Engine W) : Prop :=
  e'.buffer.lines=e.buffer.lines ∧ e'.marks=e.marks ∧ e'.buffer.current=e.buffer.current

def dotAfterAddresses (line : Bytes) (e : Engine W) : ℤ :=
  (final (parseAddresses host line e)).buffer.current

/-- Edits that changed lines leave to `u` the state in which the addresses were evaluated. -/
theorem execute_holds (hc : InRange (core e)) (hg : e.inGlobal=false)
    (h : execute host line e=.ok q e') (hedits : EditsOnly (core e) (core e'))
    (hlines : e'.buffer.lines≠e.buffer.lines) : e'.undoValid=true ∧ e'.undoMarks=e.marks ∧
      e'.undoBuffer={ e.buffer with current := dotAfterAddresses host line e } := by
  obtain ⟨addrs,rest,e₁,hparse,hdots,hdid⟩ := execute_ok host hc hg h
  have hcore₁ := hdots.dots
  have hb : e₁.buffer={ e.buffer with current := dotAfterAddresses host line e } := by
    rw [dotAfterAddresses,hparse]
    exact congrArg Core.buffer hcore₁
  have hm : e₁.marks=e.marks := congrArg Core.marks hcore₁
  have hg₁ : (core e₁).inGlobal=false := (congrArg Core.inGlobal hcore₁).trans hg
  have hedits₁ : EditsOnly (core e₁) (core e') := by
    rw [hcore₁]
    exact hedits
  have hlines₁ : (core e').buffer.lines≠(core e₁).buffer.lines := by
    rw [hcore₁]
    exact hlines
  have hholds : Holds (core e') e₁.buffer e₁.marks := by
    rcases hdid with h | ⟨acts,hacts,hp⟩ | ⟨c₁,c₂,h₁,h₂,acts,hacts,hp⟩ | ⟨texts,c₁,h₁,h₂⟩ | h
    · exact holds_edited h hg₁ hlines₁
    · exact absurd (lines_path (fun a ha => sameLines_of_marginal (hacts a ha)) hp) hlines₁
    · exact absurd (by simp) (editsOnly_path (.cons h₁ (.cons h₂ hp)) hedits₁).1
    · exact absurd (by simp) ((editsOnly_path (.cons h₁ (.one h₂)) hedits₁).2 texts)
    · exact holds_visited h hedits₁ hlines₁
  exact ⟨hholds.valid,hholds.marks.trans hm,hholds.buffer.trans hb⟩

/-- After a command of edits that changed lines, `u` restores the state before exactly when its
addresses left dot where it was, and a second `u` the state after. -/
theorem undo_restores_iff (hc : InRange (core e)) (hg : e.inGlobal=false)
    (h : execute host line e=.ok q e') (hedits : EditsOnly (core e) (core e'))
    (hlines : e'.buffer.lines≠e.buffer.lines) :
    ∃e₁ e₂,execute host (ascii "u") e'=.ok false e₁ ∧ execute host (ascii "u") e₁=.ok false e₂ ∧
      (Restores e e₁ ↔ dotAfterAddresses host line e=e.buffer.current) ∧ Restores e' e₂ := by
  obtain ⟨hvalid,humarks,hubuffer⟩ := execute_holds host hc hg h hedits hlines
  obtain ⟨e₁,hrun₁,hlines₁,hdot₁,hmarks₁,hholds₁⟩ := execute_u host hvalid
  obtain ⟨e₂,hrun₂,hlines₂,hdot₂,hmarks₂,_⟩ := execute_u host hholds₁.valid
  have hub : e₁.undoBuffer=e'.buffer := hholds₁.buffer
  have hum : e₁.undoMarks=e'.marks := hholds₁.marks
  rw [hubuffer] at hlines₁ hdot₁
  refine ⟨e₁,e₂,hrun₁,hrun₂,?_,?_⟩
  · rw [Restores,hlines₁,hmarks₁,humarks,hdot₁]
    simp
  · rw [Restores,hlines₂,hmarks₂,hdot₂,hub,hum]
    exact ⟨rfl,rfl,rfl⟩

end

def bareHost : Host Unit where
  compileRE _ := .ok ⟨fun _ => .ok false,fun _ => .ok []⟩
  read _ w := (.error (ascii "no such file"),w)
  write _ _ w := (none,w)
  append := none
  shell := none

def threeLines : Engine Unit where
  buffer := ⟨[ascii "one",ascii "two",ascii "three"],3,false⟩
  world := ()

theorem threeLines_inRange : InRange (core threeLines) :=
  ⟨by decide,fun k n h => by simp [core,threeLines] at h,fun h => by simp [core,threeLines] at h,
    fun h => by simp [core,threeLines] at h,fun t h => by simp [core,threeLines] at h,fun _ => rfl⟩

/-- The lines are deleted with a comma between the addresses. -/
theorem undo_restores_comma : ∃e' e₁ e₂,execute bareHost (ascii "1,2d") threeLines=.ok false e' ∧
      execute bareHost (ascii "u") e'=.ok false e₁ ∧ execute bareHost (ascii "u") e₁=.ok false e₂ ∧
      Restores threeLines e₁ ∧ Restores e' e₂ := by
  have hrun : execute bareHost (ascii "1,2d") threeLines =
      .ok false (final (execute bareHost (ascii "1,2d") threeLines)) := rfl
  obtain ⟨e₁,e₂,h₁,h₂,hiff,h⟩ := undo_restores_iff bareHost threeLines_inRange rfl hrun
    (by unfold EditsOnly; decide) (by decide)
  exact ⟨_,e₁,e₂,hrun,h₁,h₂,hiff.mpr (by decide),h⟩

/-- With a semicolon dot is set before the snapshot, and `u` leaves it at the first address. -/
theorem not_undo_restores_semicolon :
    ∃e' e₁,execute bareHost (ascii "1;2d") threeLines=.ok false e' ∧
      e'.buffer.lines≠threeLines.buffer.lines ∧ execute bareHost (ascii "u") e'=.ok false e₁ ∧
      e₁.buffer.current=1 ∧ threeLines.buffer.current=3 ∧ ¬ Restores threeLines e₁ := by
  refine ⟨_,_,rfl,by decide,rfl,by decide,rfl,fun h => ?_⟩
  exact absurd h.2.2 (by decide)

end Coreutils.EdUndo
