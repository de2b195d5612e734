import Coreutils.EdTraces

/-!
# The steps of the commands

What the command switch of the engine did when it succeeded.
-/

namespace Coreutils.EdCommands
open GoText EdText EdEngine EdAddress EdExecute EdSteps EdTraces Programs

/-- The steps that leave the lines alone and are not of the undo state. -/
def Marginal : Act→Prop
  | .dot _ | .mark _ _ | .clean => True
  | _ => False

section
variable {W : Type} (host : Host W) {e e' : Engine W} {u : Unit} {arg : Bytes} {cmd : Command}
  {addrs : List ℤ} {q : Bool}

theorem marginal_of_isDot {a : Act} (h : IsDot a) : Marginal a := by cases a <;> trivial

theorem core_last {c : Core} (h : core e=c) : e.buffer.last=c.buffer.last := by
  rw [←h]
  rfl

theorem tryCatch_of_ok {α : Type} {m : Ed W α} {h : EdError→Ed W α} {a : α} {e₁ : Engine W}
    (hm : m e=.ok a e₁) : (tryCatch m h : Ed W α) e=.ok a e₁ := by
  rw [run_tryCatch,hm]

theorem keeps_printIf {c : Prop} [Decidable c] {text : Bytes} :
    Keeps core (onlyIf c (println text) : Ed W Unit) := by
  simp

theorem readFile_edited {after : ℤ} (h : readFile host after arg e=.ok u e') :
    Edited (core e) (core e') := by
  obtain ⟨data,e₁,_,hcore₁,h⟩ := (keeps_readData host _ _).bind_ok h
  obtain ⟨_,e₂,happ,h⟩ := bind_ok.mp h
  have hedit := appendLines_edited happ
  have hcore := keeps_printIf.ok h
  rw [hcore₁] at hedit
  exact hedit.dots (Trace.of_eq hcore)

theorem inputChange_edited {text : List Bytes}
    (h : inputChange cmd addrs text e=.ok u e') : Edited (core e) (core e') := by
  rw [inputChange,run_get_bind] at h
  split at h
  · rw [bind_ok] at h
    obtain ⟨a,_,ha,h⟩ := h
    obtain ⟨_,h₀,h₁,_,rfl⟩ := oneAddress_ok.mp ha
    have hrun := @run_appendLines _ e a text h₀ h₁
    split at hrun
    all_goals
      rw [tryCatch_of_ok hrun] at h
      cases h
      exact appendLines_edited hrun
  · split at h
    · rw [bind_ok] at h
      obtain ⟨a,_,ha,h⟩ := h
      obtain ⟨_,h₀,h₁,_,rfl⟩ := oneAddress_ok.mp ha
      generalize ha' : (if a=0 then 1 else a)=a' at h
      have hr : 0≤a'-1 ∧ a'-1≤e.buffer.last := by split at ha' <;> omega
      have hrun := @run_appendLines _ e (a'-1) text hr.1 hr.2
      have hedit : ∀e₁,appendLines (a'-1) text e=.ok ⟨⟩ e₁→Edited (core e) (core e₁) :=
        fun _ => appendLines_edited
      split_ifs at hrun with htext
      · have hdot := @setCurrent_trace _ { e with buffer := { e.buffer with current := a'-1 } } _
          ⟨⟩ (min a' e.buffer.last) (by omega) (min_le_right _ _) rfl
        rw [tryCatch_of_ok ((run_bind_ok hrun).trans (run_onlyIf htext))] at h
        cases h
        exact (hedit _ hrun).dots hdot
      · rw [tryCatch_of_ok ((run_bind_ok hrun).trans (run_onlyIf_not htext))] at h
        cases h
        exact hedit _ hrun
    · rw [bind_ok] at h
      obtain ⟨⟨first,last⟩,_,ha,h⟩ := h
      obtain ⟨_,h₀,h₁,h₂,_,rfl⟩ := twoAddresses_ok.mp ha
      simp only at h₀ h₁ h₂ h
      generalize hf : (if first=0 then 1 else first)=first' at h
      generalize hl : (if last=0 then 1 else last)=last' at h
      have hr : 1≤first' ∧ first'≤last' ∧ last' ≤ max e.buffer.last 1 := by
        split at hf <;> split at hl <;> omega
      have hrun := @run_changeLines _ e first' last' text hr.1 hr.2.1 hr.2.2
      rw [tryCatch_of_ok hrun] at h
      cases h
      exact changeLines_edited hr.1 hr.2.1 hr.2.2 hrun

theorem input_edited (h : input host cmd addrs arg e=.ok u e') : Edited (core e) (core e') := by
  obtain ⟨style,e₁,_,h₁,h⟩ := (keeps_suffix _).bind_ok h
  obtain ⟨text,e₂,_,h₂,h⟩ := keeps_readInput.bind_ok h
  obtain ⟨_,e₃,hchange,h⟩ := bind_ok.mp h
  rw [←h₁,←h₂]
  exact (inputChange_edited hchange).dots (printStyle_trace host h)

theorem markCommand_trace (h : markCommand host addrs arg e=.ok u e') :
    Trace Marginal (core e) (core e') := by
  rw [markCommand,run_get_bind,bind_ok] at h
  obtain ⟨a,_,ha,h⟩ := h
  obtain ⟨_,h₀,h₁,h₂,rfl⟩ := oneAddress_ok.mp ha
  have hne := h₂ rfl
  cases htrim : trimRightBlank arg with
  | nil =>
    rw [htrim] at h
    simp at h
  | cons k rest =>
    rw [htrim] at h
    obtain ⟨_,_,href,h⟩ := bind_ok.mp h
    obtain ⟨_,rfl⟩ := refuse_ok.mp href
    obtain ⟨style,e₁,_,hcore,h⟩ := (keeps_suffix _).bind_ok h
    refine Trace.trans ?_ ((printStyle_trace host h).mono fun _ => marginal_of_isDot)
    rw [←hcore]
    exact Trace.one (a := .mark k a) trivial (Step.mark (by omega) (core_last hcore ▸ h₁))

theorem write_trace {appendMode : Bool}
    (h : write host addrs arg appendMode e=.ok u e') : Trace Marginal (core e) (core e') := by
  obtain ⟨_,e₁,_,h₁,h⟩ := (keeps_separated _).bind_ok h
  obtain ⟨_,e₂,_,(h₂ : core e₂=core e₁),h⟩ := (keeps_refuse _ _).bind_ok h
  obtain ⟨_,e₃,_,(h₃ : core e₃=core e₂),h⟩ := (keeps_refuse _ _).bind_ok h
  obtain ⟨⟨first,last⟩,e₄,_,h₄,h⟩ := (keeps_writeRange _).bind_ok h
  obtain ⟨_,e₅,_,h₅,h⟩ := (keeps_sendTo host _ _ _).bind_ok h
  have hcore : core e₅=core e := by rw [h₅,h₄,h₃,h₂,h₁]
  have hcore' := keeps_printIf.ok h
  rw [hcore',←hcore]
  by_cases hclean : (!decide ((trimBlank arg).head?=some 33))=true ∧ (!appendMode)=true ∧
      first=1 ∧ last=e₅.buffer.last
  · refine Trace.one (a := .clean) trivial ?_
    simp only [if_pos hclean]
    exact Step.clean
  · refine Trace.of_eq ?_
    simp only [core,if_neg hclean]

theorem undo_step (h : undo e=.ok u e') : ∃c,Step (core e) .undo c ∧ Step c .count (core e') := by
  rw [undo,run_get_bind,bind_ok] at h
  obtain ⟨_,_,href,h⟩ := h
  obtain ⟨hvalid,rfl⟩ := refuse_ok.mp href
  cases h
  have hv : (core e).undoValid=true := by
    change e.undoValid=true
    simpa using hvalid
  exact ⟨_,Step.undo hv,Step.count⟩

theorem run_reloaded {n : ℕ} (h : reloaded host n e=.ok u e') : core e'={ core e with
      changeSeq := (core e).changeSeq+1
      globalTargets := cleared (core e) } := by
  exact keeps_printIf.ok h

theorem load_ok {name : Bytes} {n : ℕ} (h : load host name e=.ok n e') :
    ∃texts,core e'={ core e with
      buffer := Buffer.reset texts false
      marks := fun _ => none
      undoValid := false
      history := (core e).history++[.load texts]
      audit := (core e).audit++[.loaded texts] } := by
  obtain ⟨r,e₁,_,hcore,h⟩ := (keeps_hostRead host _).bind_ok h
  cases r with
  | error t => simp [raise] at h
  | ok data =>
    cases h
    refine ⟨splitText data,?_⟩
    rw [←hcore]
    rfl

def Loaded (c c' : Core) : Prop := ∃texts c₁,Step c (.load texts) c₁ ∧ Step c₁ .count c'

theorem loaded_of_eq (texts : List Bytes) {c c' : Core} (h : c'={ c with
      buffer := Buffer.reset texts false
      marks := fun _ => none
      undoValid := false
      globalTargets := cleared c
      history := c.history++[.load texts]
      audit := c.audit++[.loaded texts]
      changeSeq := c.changeSeq+1 }) : Loaded c c' := by
  rw [h]
  exact ⟨texts,_,Step.load,Step.count⟩

theorem edit_loaded {check : Bool} (h : edit host arg check e=.ok u e') :
    Loaded (core e) (core e') := by
  obtain ⟨_,e₁,_,h₁,h⟩ := (keeps_separated _).bind_ok h
  obtain ⟨_,e₂,_,h₂,h⟩ := (keeps_onlyIf _ keeps_warnModified).bind_ok h
  obtain ⟨_,e₃,_,(h₃ : core e₃=core e₂),h⟩ := (keeps_refuse _ _).bind_ok h
  have hcore₃ : core e₃=core e := by rw [h₃,h₂,h₁]
  rw [←hcore₃]
  generalize (if trimBlank arg=[] then e₂.filename else trimBlank arg)=name at h
  unfold reload at h
  split at h
  · obtain ⟨data,e₄,_,hcore₄,h⟩ := (keeps_shellOutput host _).bind_ok h
    have hfinal := run_reloaded host h
    rw [←hcore₄]
    exact loaded_of_eq (splitText data) hfinal
  · rw [bind_ok] at h
    obtain ⟨n,e₄,hload,h⟩ := h
    rw [run_tryCatch] at hload
    cases hl : load host name e₃ with
    | ok n' e₅ =>
      rw [hl] at hload
      cases hload
      obtain ⟨texts,hcore⟩ := load_ok host hl
      have hfinal := run_reloaded host h
      rw [hcore] at hfinal
      exact loaded_of_eq texts hfinal
    | error err e₅ =>
      rw [hl] at hload
      simp only [run_modify_bind] at hload
      split at hload <;> simp [fileDiagnostic,raise] at hload

theorem promptCommand_trace (h : promptCommand host arg e=.ok u e') :
    Trace IsDot (core e) (core e') := by
  rw [promptCommand,bind_ok] at h
  obtain ⟨style,e₁,hstyle,h⟩ := h
  obtain ⟨_,e₂,hset,h⟩ := bind_ok.mp h
  have hcore : core e₂=core e₁ := by
    cases hset
    rfl
  exact (Trace.of_eq (hcore.trans ((keeps_suffix _).ok hstyle))).trans (printStyleIf_trace host h)

theorem helpCommand_trace {toggle : Bool} (h : helpCommand host toggle arg e=.ok u e') :
    Trace IsDot (core e) (core e') := by
  rw [helpCommand,bind_ok] at h
  obtain ⟨style,e₁,hstyle,h⟩ := h
  obtain ⟨_,e₂,hset,h⟩ := bind_ok.mp h
  rw [run_get_bind,bind_ok] at h
  obtain ⟨_,e₃,hprint,h⟩ := h
  have hcore : core e₃=core e₁ := by
    rw [keeps_printIf.ok hprint]
    cases hset
    rfl
  exact (Trace.of_eq (hcore.trans ((keeps_suffix _).ok hstyle))).trans (printStyleIf_trace host h)

theorem deleteCommand_edited
    (h : deleteCommand host addrs arg e=.ok u e') : Edited (core e) (core e') := by
  obtain ⟨first,last,h₀,h₁,h₂,h⟩ := range_ok h
  obtain ⟨style,e₁,_,hcore,h⟩ := (keeps_suffix _).bind_ok h
  obtain ⟨_,e₂,hdel,h⟩ := bind_ok.mp h
  have hedit := deleteLines_edited h₀ h₁ (core_last hcore ▸ h₂) hdel
  rw [hcore] at hedit
  exact hedit.dots (onlyIf_trace (fun _ h => printStyle_trace host h) h)

theorem joinCommand_edited
    (h : joinCommand host addrs arg e=.ok u e') : Edited (core e) (core e') := by
  obtain ⟨first,last,_,_,_,h⟩ := range_ok h
  obtain ⟨style,e₁,_,hcore,h⟩ := (keeps_suffix _).bind_ok h
  obtain ⟨_,e₂,hjoin,h⟩ := bind_ok.mp h
  have hedit := join_edited hjoin
  rw [hcore] at hedit
  exact hedit.dots (printStyle_trace host h)

theorem moveOrCopy_edited {first last dest : ℤ} (h₀ : 1≤first) (h₁ : first≤last)
    (h₂ : last≤e.buffer.last) (h : moveOrCopy cmd first last dest e=.ok u e') :
    Edited (core e) (core e') := by
  unfold moveOrCopy at h
  split at h
  · exact move_edited h₀ h₁ h₂ h
  · exact copy_edited h

theorem moveCommand_edited
    (h : moveCommand host cmd addrs arg e=.ok u e') : Edited (core e) (core e') := by
  obtain ⟨first,last,h₀,h₁,h₂,h⟩ := range_ok h
  obtain ⟨⟨dest,style⟩,e₁,_,hcore,h⟩ := (keeps_addressAndSuffix host _).bind_ok h
  obtain ⟨_,e₂,hmove,h⟩ := bind_ok.mp h
  have hedit := moveOrCopy_edited h₀ h₁ (core_last hcore ▸ h₂) hmove
  rw [hcore] at hedit
  exact hedit.dots (printStyle_trace host h)

theorem printCommand_trace {style : Style}
    (h : printCommand host style addrs arg e=.ok u e') : Trace IsDot (core e) (core e') := by
  rw [printCommand,bind_ok] at h
  obtain ⟨_,e₁,hstyle,h⟩ := h
  exact (Trace.of_eq ((keeps_suffix _).ok hstyle)).trans (printRange_trace host h)

theorem lineNumber_trace (h : lineNumber host addrs arg e=.ok u e') :
    Trace IsDot (core e) (core e') := by
  obtain ⟨_,e₁,_,h₁,h⟩ := (keeps_suffix _).bind_ok h
  obtain ⟨_,e₂,_,(h₂ : core e₂=core e₁),h⟩ := (keeps_oneAddress _ _ _).bind_ok h
  obtain ⟨_,e₃,_,h₃,h⟩ := (keeps_println _).bind_ok h
  have hcore : core e₃=core e := by rw [h₃,h₂,h₁]
  exact (Trace.of_eq hcore).trans (printStyleIf_trace host h)

theorem substituteCommand_edited
    (h : substituteCommand host addrs arg e=.ok u e') : Edited (core e) (core e') := by
  obtain ⟨first,last,h₀,h₁,h₂,h⟩ := range_ok h
  obtain ⟨arg',e₁,_,hcore,h⟩ := (keeps_readSubstituteArgument _).bind_ok h
  have hedit := substitute_edited host h₀ h₁ (core_last hcore ▸ h₂) h
  rwa [hcore] at hedit

theorem readCommand_edited
    (h : readCommand host addrs arg e=.ok u e') : Edited (core e) (core e') := by
  rw [readCommand,run_get_bind,bind_ok] at h
  obtain ⟨_,_,ha,h⟩ := h
  obtain ⟨_,_,_,_,rfl⟩ := oneAddress_ok.mp ha
  obtain ⟨_,e₁,hsep,h⟩ := bind_ok.mp h
  have hedit := readFile_edited host h
  rwa [(keeps_separated _).ok hsep] at hedit

theorem undoCommand_steps (h : undoCommand host addrs arg e=.ok u e') :
    ∃c₁ c₂,Step (core e) .undo c₁ ∧ Step c₁ .count c₂ ∧ Trace IsDot c₂ (core e') := by
  rw [undoCommand,bind_ok] at h
  obtain ⟨_,_,href,h⟩ := h
  obtain ⟨_,rfl⟩ := refuse_ok.mp href
  obtain ⟨style,e₁,hstyle,h⟩ := bind_ok.mp h
  obtain ⟨_,e₂,hundo,h⟩ := bind_ok.mp h
  obtain ⟨c,hstep,hcount⟩ := undo_step hundo
  rw [(keeps_suffix _).ok hstyle] at hstep
  exact ⟨c,_,hstep,hcount,printStyleIf_trace host h⟩

/-- A successful command did an edit, steps at the margin, an undo, a load, or a global command. -/
inductive Did (global : List ℤ→Bytes→Bool→Bool→Ed W Bool) (addrs : List ℤ) (rest : Bytes)
    (q : Bool) (e e' : Engine W) : Prop
  | edited (h : Edited (core e) (core e'))
  | marginal (h : Trace Marginal (core e) (core e'))
  | undone {letter : UInt8} {arg : Bytes} {c₁ c₂ : Core} (hcmd : rest=letter::arg)
      (hletter : Command.ofByte letter=.u) (h₁ : Step (core e) .undo c₁) (h₂ : Step c₁ .count c₂)
      (h₃ : Trace IsDot c₂ (core e'))
  | loaded {letter : UInt8} {arg : Bytes} (hcmd : rest=letter::arg)
      (hletter : Command.ofByte letter=.e ∨ Command.ofByte letter=.E)
      (h : Loaded (core e) (core e'))
  | ran {letter : UInt8} {arg : Bytes} {wanted interactive : Bool} (hcmd : rest=letter::arg)
      (hletter : (Command.ofByte letter).isGlobal=true)
      (h : global addrs arg wanted interactive e=.ok q e')

theorem andStay_ok {m : Ed W Unit} (h : andStay m e=.ok q e') : m e=.ok ⟨⟩ e' := by
  rw [andStay,bind_ok] at h
  obtain ⟨_,e₁,hm,h⟩ := h
  cases h
  exact hm

theorem withoutAddress_ok {text : String} {m : Ed W Unit}
    (h : withoutAddress addrs text m e=.ok u e') : m e=.ok u e' := by
  rw [withoutAddress,bind_ok] at h
  obtain ⟨_,_,href,h⟩ := h
  obtain ⟨_,rfl⟩ := refuse_ok.mp href
  exact h

theorem writeCommand_trace
    (h : writeCommand host addrs arg e=.ok q e') : Trace Marginal (core e) (core e') := by
  unfold writeCommand at h
  split at h
  all_goals
    obtain ⟨_,e₁,hwrite,h⟩ := bind_ok.mp h
    cases h
    exact write_trace host hwrite

theorem keeps_quitCommand {check : Bool} :
    Keeps core (quitCommand check addrs arg : Ed W Unit) := by
  simp [quitCommand]

theorem dispatch_did {global : List ℤ→Bytes→Bool→Bool→Ed W Bool}
    {rest : Bytes} (h : dispatch host global addrs rest e=.ok q e') :
    Did global addrs rest q e e' := by
  unfold dispatch at h
  cases rest with
  | nil =>
    have hprint := andStay_ok h
    rw [run_get_bind] at hprint
    exact .edited (.inl (printOne_trace host hprint))
  | cons letter arg =>
    cases hc : Command.ofByte letter <;> simp only [hc] at h
    case a | i | c => exact .edited (input_edited host (andStay_ok h))
    case d => exact .edited (deleteCommand_edited host (andStay_ok h))
    case j => exact .edited (joinCommand_edited host (andStay_ok h))
    case k => exact .marginal (markCommand_trace host (andStay_ok h))
    case m | t => exact .edited (moveCommand_edited host (andStay_ok h))
    case p | n | l => exact .edited (.inl (printCommand_trace host (andStay_ok h)))
    case equals => exact .edited (.inl (lineNumber_trace host (andStay_ok h)))
    case s => exact .edited (substituteCommand_edited host (andStay_ok h))
    case w => exact .marginal (writeCommand_trace host h)
    case W => exact .marginal (write_trace host (andStay_ok h))
    case r => exact .edited (readCommand_edited host (andStay_ok h))
    case u =>
      obtain ⟨c₁,c₂,h₁,h₂,h₃⟩ := undoCommand_steps host (andStay_ok h)
      exact .undone rfl hc h₁ h₂ h₃
    case g | v | G | V => exact .ran rfl (by rw [hc]; rfl) h
    case P => exact .edited (.inl (promptCommand_trace host (withoutAddress_ok (andStay_ok h))))
    case bang =>
      exact .edited (.inl (Trace.of_eq ((keeps_shellEscape host _).ok
        (withoutAddress_ok (andStay_ok h)))))
    case e => exact .loaded rfl (.inl hc) (edit_loaded host (withoutAddress_ok (andStay_ok h)))
    case E => exact .loaded rfl (.inr hc) (edit_loaded host (withoutAddress_ok (andStay_ok h)))
    case q | Q =>
      obtain ⟨_,e₁,hq,h⟩ := bind_ok.mp h
      cases h
      exact .edited (.inl (Trace.of_eq (keeps_quitCommand.ok hq)))
    case f =>
      exact .edited (.inl (Trace.of_eq ((keeps_fileName _).ok (withoutAddress_ok (andStay_ok h)))))
    case h | H => exact .edited (.inl (helpCommand_trace host (withoutAddress_ok (andStay_ok h))))
    case unknown => simp at h

end

end Coreutils.EdCommands
