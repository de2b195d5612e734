import Coreutils.EdUndo

/-!
# Failing commands

What a command that fails leaves behind. Most fail before their first change, or put back what they
changed; the four that do not are treated one by one.
-/

namespace Coreutils.EdFailures
open GoText EdText EdEngine EdAddress EdExecute EdSteps EdTraces EdCommands LineRanges Programs

structure Still where
  lines : List Bytes
  dirty : Bool
  marks : Marks
  undoBuffer : Buffer
  undoMarks : Marks
  undoValid : Bool
  changeSeq : ℕ

def Core.still (c : Core) : Still where
  lines := c.buffer.lines
  dirty := c.buffer.dirty
  marks := c.marks
  undoBuffer := c.undoBuffer
  undoMarks := c.undoMarks
  undoValid := c.undoValid
  changeSeq := c.changeSeq

section
variable {W : Type}

def still (e : Engine W) : Still := Core.still (core e)

/-- The buffer, the modified flag, the marks, the current line and what `u` would restore. -/
structure Untouched (e e' : Engine W) : Prop where
  lines : e'.buffer.lines=e.buffer.lines
  dirty : e'.buffer.dirty=e.buffer.dirty
  marks : e'.marks=e.marks
  current : e'.buffer.current=e.buffer.current
  undoValid : e'.undoValid=e.undoValid
  undo : e.undoValid=true→e'.undoBuffer=e.undoBuffer ∧ e'.undoMarks=e.undoMarks

variable (host : Host W) {e e' e₁ : Engine W} {err : EdError} {α : Type} {m : Ed W α}
  {addrs : List ℤ} {arg : Bytes} {cmd : Command} {text : List Bytes}

theorem still_of_core (h : Keeps core m) : Keeps still m := h.map Core.still

theorem untouched_settle (h : still e₁=still e) : Untouched e (settle e (.error err e₁)) := by
  simp only [still,Core.still,core,Still.mk.injEq] at h
  obtain ⟨hl,hd,hm,hb,hu,hv,hseq⟩ := h
  exact ⟨hl,hd,hm,by simp [settle,failed,hseq],hv,fun _ => ⟨hb,hu⟩⟩

@[simp] theorem still_setCurrent (n : ℤ) : Keeps still (setCurrent n : Ed W Unit) :=
  keeps_modify fun _ => rfl

theorem still_parseMore (fuel : ℕ) (out : List ℤ) (s : Bytes) :
    Keeps still (parseMore host fuel out s) := by
  induction fuel generalizing out s with
  | zero => exact keeps_pure _
  | succ fuel ih =>
    unfold parseMore
    split
    · exact keeps_pure _
    · refine Keeps.ite ?_ (keeps_pure _)
      refine keeps_get.bind fun e => (keeps_onlyIf _ (still_setCurrent _)).bind fun _ => ?_
      refine (still_of_core (keeps_parseAddress host _)).bind fun r => ?_
      cases r <;> exact ih _ _

theorem still_parseAddresses (s : Bytes) : Keeps still (parseAddresses host s) := by
  refine (still_of_core (keeps_parseAddress host _)).bind fun r => ?_
  cases r <;> exact still_parseMore host _ _ _

theorem still_printLinesOf (first last : ℤ) (style : Style) :
    Keeps still (printLinesOf host first last style) :=
  (still_of_core (keeps_printFrom host _ _ _)).bind fun _ => still_setCurrent _

theorem still_printOne (addrs : List ℤ) (style : Style) : Keeps still (printOne host addrs style) :=
  keeps_get.bind fun _ => (still_of_core (keeps_oneAddress _ _ _)).bind fun _ =>
    still_printLinesOf host _ _ _

theorem still_printRange (addrs : List ℤ) (style : Style) :
    Keeps still (printRange host addrs style) :=
  keeps_get.bind fun _ => (still_of_core (keeps_twoAddresses _ _ _ _)).bind fun _ =>
    still_printLinesOf host _ _ _

theorem still_printStyle (style : Option Style) : Keeps still (printStyle host style) := by
  cases style with
  | none => exact keeps_pure _
  | some style => exact keeps_get.bind fun _ => still_printOne host _ _

theorem still_printStyleIf (style : Option Style) : Keeps still (printStyleIf host style) :=
  keeps_get.bind fun _ => keeps_onlyIf _ (still_printStyle host _)

theorem printFrom_ok (style : Style) (left : ℕ) (n : ℤ) (e : Engine W) :
    ∃e',printFrom host style left n e=.ok ⟨⟩ e' := by
  induction left generalizing n e with
  | zero => exact ⟨e,rfl⟩
  | succ left ih => exact ih (n+1) _

theorem printOne_ok {n : ℤ} {style : Style} (h₀ : 1≤n) (h₁ : n≤e.buffer.last) :
    ∃e',printOne host [n] style e=.ok ⟨⟩ e' := by
  have ha : (oneAddress [n] e.buffer.current false : Ed W ℤ) e=.ok n e :=
    oneAddress_ok.mpr ⟨rfl,by omega,h₁,fun _ => by omega,rfl⟩
  obtain ⟨e₁,he₁⟩ := printFrom_ok host style (n+1-n).toNat n e
  rw [printOne,run_get_bind,run_bind_ok ha,printLinesOf,run_bind_ok he₁]
  exact ⟨_,rfl⟩

/-- A print after a command fails only when there is no current line. -/
theorem printStyle_error {style : Option Style} (hc : InRange (core e))
    (h : printStyle host style e=.error err e') : e.buffer.current=0 ∧ style.isSome := by
  cases style with
  | none => cases h
  | some style =>
    refine ⟨?_,rfl⟩
    by_contra hne
    have hd : 0≤e.buffer.current ∧ e.buffer.current≤e.buffer.last := hc.dot
    obtain ⟨e₁,he₁⟩ := @printOne_ok _ host e e.buffer.current style (by omega) hd.2
    rw [printStyle,run_get_bind,he₁] at h
    cases h

theorem dotAfter_pos {lines : List Bytes} {first : ℤ} (h : lines≠[]) (h₀ : 1≤first) :
    1≤dotAfter lines first := by
  have : 0<lines.length := List.length_pos_iff.mpr h
  unfold dotAfter
  rw [if_neg h]
  split <;> omega

theorem deleteCommand_error (hc : InRange (core e))
    (h : deleteCommand host addrs arg e=.error err e') : still e'=still e := by
  rcases range_error h with rfl | ⟨first,last,hfirst,h₁,h₂,h⟩
  · rfl
  rcases (keeps_suffix _).bind_error h with hcore | ⟨style,e₁,_,hcore,h⟩
  · exact congrArg Core.still hcore
  have hlast : last≤e₁.buffer.last := core_last hcore ▸ h₂
  have hrun := run_deleteLines hfirst h₁ hlast
  have hrange := (deleteLines_edited hfirst h₁ hlast hrun).inRange (hcore ▸ hc)
  rw [run_bind_ok hrun,run_get_bind] at h
  -- what is left of the buffer has a current line, so the print succeeds
  by_cases hpos : 0<(deleted first last (saved e₁)).buffer.last
  · rw [run_onlyIf hpos] at h
    have hzero := (printStyle_error host hrange h).1
    have hlines : (deleted first last (saved e₁)).buffer.lines≠[] := by
      intro hnil
      simp [Buffer.last,hnil] at hpos
    have := dotAfter_pos hlines hfirst
    exact absurd hzero (by
      change ¬ dotAfter (deleted first last (saved e₁)).buffer.lines first=0
      omega)
  · rw [run_onlyIf_not hpos] at h
    cases h

theorem joinCommand_error (hc : InRange (core e))
    (h : joinCommand host addrs arg e=.error err e') : still e'=still e := by
  rcases range_error h with rfl | ⟨first,last,h₀,h₁,h₂,h⟩
  · rfl
  rcases (keeps_suffix _).bind_error h with hcore | ⟨style,e₁,_,hcore,h⟩
  · exact congrArg Core.still hcore
  have hrun := run_join h₀ h₁ (core_last hcore ▸ h₂)
  have hrange := (join_edited hrun).inRange (hcore ▸ hc)
  rw [run_bind_ok hrun] at h
  split at hrange
  · rename_i heq
    rw [if_pos heq] at h
    exact ((still_printStyle host _).error h).trans (congrArg Core.still hcore)
  · rename_i hlt
    rw [if_neg hlt] at h
    have hzero : first-1+1=0 := (printStyle_error host hrange h).1
    omega

theorem refuse_error {p : Prop} [Decidable p] {text : String}
    (h : (refuse p text : Ed W Unit) e=.error err e') : e'=e := by
  unfold refuse at h
  split at h <;> cases h
  rfl

/-- `m` and `t` fail at once, or leave dot at a line. -/
theorem moveOrCopy_ends {first last dest : ℤ} (h₀ : 1≤first) (h₁ : first≤last)
    (h₂ : last≤e.buffer.last) : (∃err,moveOrCopy cmd first last dest e=.error err e) ∨
      ∃e₁,moveOrCopy cmd first last dest e=.ok ⟨⟩ e₁ ∧ 1≤e₁.buffer.current := by
  by_cases hr : dest<0 ∨ e.buffer.last<dest
  · refine .inl ⟨.message (ascii "invalid address"),?_⟩
    unfold moveOrCopy
    split
    · rw [move,run_get_bind,refuse,if_pos hr]
      rfl
    · rw [copy,run_get_bind,refuse,if_pos hr]
      rfl
  have hlen : ((e.lineRange first last).length : ℤ)=last-first+1 := length_range h₀ h₁ h₂
  unfold moveOrCopy
  split
  · by_cases hsame : dest=last ∨ dest=first-1
    · refine .inr ⟨{ e with buffer := { e.buffer with current := last } },?_,le_trans h₀ h₁⟩
      rw [move,run_get_bind,run_bind_ok (run_refuse hr),if_pos hsame]
      rfl
    by_cases hin : first≤dest ∧ dest<last
    · refine .inl ⟨.message (ascii "invalid destination"),?_⟩
      rw [move,run_get_bind,run_bind_ok (run_refuse hr),if_neg hsame,refuse,if_pos hin]
      rfl
    refine .inr ⟨_,run_move h₀ h₁ h₂ (by omega) (by omega) (by omega),?_⟩
    have hlen' : (((saved e).lineRange first last).length : ℤ)=last-first+1 :=
      length_range h₀ h₁ (by
        rwa [saved_buffer])
    have hto := moveTo_range h₀ (by omega) (by omega)
      (by omega : dest<first-1 ∨ last<dest) h₂
    change 1 ≤ moveTo first last dest+((saved e).lineRange first last).length
    omega
  · rw [copy,run_get_bind,run_bind_ok (run_refuse hr),run_appendLines (by omega) (by omega),
      if_neg (lineRange_ne_nil h₀ h₁ h₂)]
    refine .inr ⟨_,rfl,?_⟩
    change 1≤dest+((e.lineRange first last).length : ℤ)
    omega

theorem moveCommand_error (hc : InRange (core e))
    (h : moveCommand host cmd addrs arg e=.error err e') : still e'=still e := by
  rcases range_error h with rfl | ⟨first,last,h₀,h₁,h₂,h⟩
  · rfl
  rcases (keeps_addressAndSuffix host _).bind_error h with hcore | ⟨⟨dest,style⟩,e₁,_,hcore,h⟩
  · exact congrArg Core.still hcore
  have hlast : last≤e₁.buffer.last := core_last hcore ▸ h₂
  dsimp only at h
  rcases @moveOrCopy_ends _ e₁ cmd first last dest h₀ h₁ hlast with ⟨err',hrun⟩ | ⟨e₂,hrun,hdot⟩
  · rw [run_bind_error hrun] at h
    cases h
    exact congrArg Core.still hcore
  · rw [run_bind_ok hrun] at h
    have hedit := moveOrCopy_edited h₀ h₁ hlast hrun
    have hzero := (printStyle_error host (hedit.inRange (hcore ▸ hc)) h).1
    omega

theorem undoCommand_error (hc : InRange (core e))
    (h : undoCommand host addrs arg e=.error err e') : still e'=still e := by
  rw [undoCommand,bind_error] at h
  rcases h with h | ⟨_,_,href,h⟩
  · exact (still_of_core (keeps_refuse _ _)).error h
  obtain ⟨_,rfl⟩ := refuse_ok.mp href
  rcases (keeps_suffix _).bind_error h with hcore | ⟨style,e₁,_,hcore,h⟩
  · exact congrArg Core.still hcore
  rw [bind_error] at h
  rcases h with h | ⟨_,e₂,hundo,h⟩
  · rw [undo,run_get_bind,bind_error] at h
    rcases h with h | ⟨_,_,_,h⟩
    · rw [refuse_error h]
      exact congrArg Core.still hcore
    · cases h
  · obtain ⟨c,hstep,hcount⟩ := undo_step hundo
    have hrange := hcount.inRange (hstep.inRange (hcore ▸ hc))
    rw [printStyleIf,run_get_bind] at h
    by_cases hpos : 0<e₂.buffer.current
    · rw [run_onlyIf hpos] at h
      have := (printStyle_error host hrange h).1
      omega
    · rw [run_onlyIf_not hpos] at h
      cases h

theorem readCommand_error (h : readCommand host addrs arg e=.error err e') : still e'=still e := by
  rw [readCommand,run_get_bind,bind_error] at h
  rcases h with h | ⟨a,_,ha,h⟩
  · exact (still_of_core (keeps_oneAddress _ _ _)).error h
  obtain ⟨_,h₀,h₁,_,rfl⟩ := oneAddress_ok.mp ha
  rcases (keeps_separated _).bind_error h with hcore | ⟨_,e₁,_,hcore₁,h⟩
  · exact congrArg Core.still hcore
  rcases (keeps_readData host _ _).bind_error h with hcore | ⟨data,e₂,_,hcore₂,h⟩
  · exact congrArg Core.still (hcore.trans hcore₁)
  have hrun := @run_appendLines _ e₂ a (splitText data) h₀ (core_last (hcore₂.trans hcore₁) ▸ h₁)
  split at hrun
  all_goals
    rw [run_bind_ok hrun,run_modify_bind,onlyIf] at h
    split at h <;> cases h

theorem write_error {appendMode : Bool}
    (h : write host addrs arg appendMode e=.error err e') : still e'=still e := by
  suffices hcore : core e'=core e from congrArg Core.still hcore
  refine (keeps_separated _).bind_fails (fun _ e₁ _ h => ?_) h
  refine (keeps_refuse _ _).bind_fails (fun _ e₂ _ h => ?_) h
  refine (keeps_refuse _ _).bind_fails (fun _ e₃ _ h => ?_) h
  refine (keeps_writeRange _).bind_fails (fun _ e₄ _ h => ?_) h
  refine (keeps_sendTo host _ _ _).bind_fails (fun _ e₅ _ h => ?_) h
  rw [run_modify_bind,onlyIf] at h
  split at h <;> cases h

theorem tryCatch_ne_error {m : Ed W Unit} :
    (tryCatch m (fun _ => pure ()) : Ed W Unit) e≠.error err e' := by
  rw [run_tryCatch]
  split <;> simp

theorem inputChange_error (h : inputChange cmd addrs text e=.error err e') : e'=e := by
  have hfirst : ∀{α} {m : Ed W α} {f : α→Ed W Unit},Keeps id m→
      (m >>= fun a => tryCatch (f a) fun _ => pure ()) e=.error err e'→e'=e := by
    intro α m f hm h
    rcases hm.bind_error h with heq | ⟨_,_,_,_,h⟩
    · exact heq
    · exact absurd h tryCatch_ne_error
  rw [inputChange] at h
  split at h
  · exact hfirst (keeps_oneAddress _ _ _) h
  · split at h
    · exact hfirst (keeps_oneAddress _ _ _) h
    · exact hfirst (keeps_twoAddresses _ _ _ _) h

/-- `a` and `i` with text end at a line; without text they only move dot. -/
theorem inputChange_ends {u : Unit}
    (hcmd : cmd=.a ∨ cmd=.i) (h : inputChange cmd addrs text e=.ok u e') :
    still e'=still e ∨ 1≤e'.buffer.current := by
  rw [inputChange,run_get_bind] at h
  have hlen : text≠[]→(1 : ℤ)≤text.length := fun hne => by
    have := List.length_pos_iff.mpr hne
    omega
  rcases hcmd with rfl | rfl
  · rw [if_pos rfl,bind_ok] at h
    obtain ⟨a,_,ha,h⟩ := h
    obtain ⟨_,h₀,h₁,_,rfl⟩ := oneAddress_ok.mp ha
    have hrun := @run_appendLines _ e a text h₀ h₁
    split_ifs at hrun with hne
    · rw [tryCatch_of_ok hrun] at h
      cases h
      exact Or.inl rfl
    rw [tryCatch_of_ok hrun] at h
    cases h
    refine Or.inr ?_
    change 1≤a+(text.length : ℤ)
    have := hlen hne
    omega
  · rw [if_neg (by decide),if_pos rfl,bind_ok] at h
    obtain ⟨a,_,ha,h⟩ := h
    obtain ⟨_,h₀,h₁,_,rfl⟩ := oneAddress_ok.mp ha
    generalize ha' : (if a=0 then 1 else a)=a' at h
    have hr : 0≤a'-1 ∧ a'-1≤e.buffer.last := by split at ha' <;> omega
    have hrun := @run_appendLines _ e (a'-1) text hr.1 hr.2
    split at hrun
    · rename_i hnil
      rw [tryCatch_of_ok ((run_bind_ok hrun).trans (run_onlyIf hnil))] at h
      cases h
      exact Or.inl rfl
    · rename_i hne
      rw [tryCatch_of_ok ((run_bind_ok hrun).trans (run_onlyIf_not hne))] at h
      cases h
      refine Or.inr ?_
      change 1≤a'-1+(text.length : ℤ)
      have := hlen hne
      omega

theorem input_error (hcmd : cmd=.a ∨ cmd=.i)
    (hc : InRange (core e)) (h : input host cmd addrs arg e=.error err e') : still e'=still e := by
  rcases (keeps_suffix _).bind_error h with hcore | ⟨style,e₁,_,hcore₁,h⟩
  · exact congrArg Core.still hcore
  rcases keeps_readInput.bind_error h with hcore | ⟨text,e₂,_,hcore₂,h⟩
  · exact congrArg Core.still (hcore.trans hcore₁)
  have hcore := hcore₂.trans hcore₁
  have hstill : still e₂=still e := congrArg Core.still hcore
  rw [bind_error] at h
  rcases h with h | ⟨_,e₃,hchange,h⟩
  · rw [inputChange_error h,hstill]
  · rcases inputChange_ends hcmd hchange with hsame | hdot
    · rw [(still_printStyle host _).error h,hsame,hstill]
    · have hzero := (printStyle_error host ((inputChange_edited hchange).inRange (hcore ▸ hc)) h).1
      omega

end

end Coreutils.EdFailures
