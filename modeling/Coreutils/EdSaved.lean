import Coreutils.EdMarks

/-!
# The modified flag

While the modified flag is off, the lines should be those last loaded or written as a whole. Only an
undo that changes no line can break this, as it brings back the flag of its snapshot; the snapshot
must be older than a write, which only a global command leaves behind.
-/

namespace Coreutils.EdSaved
open GoText EdEngine EdExecute EdSteps EdTraces EdCommands EdGlobals EdUndo EdMarks Programs

def saved (s : Option (List Bytes)) : Audit→Option (List Bytes)
  | .loaded texts | .written _ texts => some texts
  | .undone _ _ => s

def lastSaved (log : List Audit) : Option (List Bytes) := log.foldl saved none

/-- An undo that brings back a clean snapshot of the lines it finds finds them saved. -/
def Sound (s : Option (List Bytes)) : Audit→Prop
  | .undone b found => b.dirty=false → b.lines=found→s=some found
  | _ => True

def Careful : Option (List Bytes)→List Audit→Prop
  | _,[] => True
  | s,a::log => Sound s a ∧ Careful (saved s a) log

def WritesOutside (log : List Audit) : Prop := ∀texts,Audit.written true texts∉log

/-- If the modified flag is off, the lines are the saved text. -/
def Honest (c : Core) : Prop := c.buffer.dirty=false→lastSaved c.audit=some c.buffer.lines

variable {log : List Audit}

theorem careful_append {s : Option (List Bytes)} {log' : List Audit} :
    Careful s (log++log') ↔ Careful s log ∧ Careful (log.foldl saved s) log' := by
  induction log generalizing s with
  | nil => simp [Careful]
  | cons a log ih => simp [Careful,ih,and_assoc]

theorem careful_snoc {a : Audit} :
    Careful none (log++[a]) ↔ Careful none log ∧ Sound (lastSaved log) a := by
  simp [careful_append,Careful,lastSaved]

@[simp] theorem lastSaved_snoc (log : List Audit) (a : Audit) :
    lastSaved (log++[a])=saved (lastSaved log) a := by
  simp [lastSaved]

theorem writesOutside_snoc {a : Audit} :
    WritesOutside (log++[a]) ↔ WritesOutside log ∧ ∀texts,a≠.written true texts := by
  simp [WritesOutside,forall_and,eq_comm]

section
variable {c c' : Core} {a : Act} {acts : List Act}

theorem honest_step (h : Step c a c') (hc : Careful none c.audit→Honest c)
    (hcareful : Careful none c'.audit) : Honest c' := by
  cases h with
  | insert | delete | join | move | touch => exact fun hd => nomatch hd
  | split _ _ _ hd => exact fun hd' => nomatch hd.symm.trans hd'
  | undo =>
    obtain ⟨-,hsound⟩ := careful_snoc.mp hcareful
    intro hd
    by_cases hsame : c.undoBuffer.lines=c.buffer.lines
    · simp only [ne_eq,hsame] at hd
      simpa [saved,hsame] using hsound hd hsame
    · simp [hsame] at hd
  | load | clean => exact fun _ => lastSaved_snoc _ _
  | _ => exact hc hcareful

theorem honest_path (h : Path Step c acts c') (hc : Careful none c.audit→Honest c) :
    Careful none c'.audit→Honest c' :=
  h.invariant (I := fun d => Careful none d.audit→Honest d) hc fun _ _ _ _ hd hs =>
    honest_step hs hd

def Covered (c : Core) : Prop :=
  c.undoValid=true→c.undoBuffer.dirty=false→lastSaved c.audit=some c.undoBuffer.lines

def Matched (c : Core) : Prop :=
  c.undoValid=true→c.undoBuffer.dirty=false→c.undoBuffer.lines=c.buffer.lines→
    lastSaved c.audit=some c.buffer.lines

/-- What holds while only commands outside a global command write the whole buffer. -/
def Kept (P : Core→Prop) (c : Core) : Prop :=
  WritesOutside c.audit→Careful none c.audit ∧ Honest c ∧ P c

theorem Kept.matched (h : Kept Covered c) : Kept Matched c := by
  intro hw
  obtain ⟨hcareful,hhonest,hcovered⟩ := h hw
  exact ⟨hcareful,hhonest,fun hv hd hl => hl ▸ hcovered hv hd⟩

/-- A new snapshot, or none, is covered. -/
theorem covered_of_fresh (h : Step c a c') (ha : a=.save ∨ a=.undo ∨ ∃texts,a=.load texts)
    (hc : Kept Matched c) : Kept Covered c' := by
  intro hw
  cases h with
  | save =>
    obtain ⟨hcareful,hhonest,-⟩ := hc hw
    exact ⟨hcareful,hhonest,fun _ => hhonest⟩
  | undo hv =>
    obtain ⟨hcareful,hhonest,hmatched⟩ := hc (writesOutside_snoc.mp hw).1
    have hcareful' : Careful none (c.audit++[.undone c.undoBuffer c.buffer.lines]) :=
      careful_snoc.mpr ⟨hcareful,hmatched hv⟩
    refine ⟨hcareful',honest_step (.undo hv) (fun _ => hhonest) hcareful',fun _ hd => ?_⟩
    simpa [saved] using hhonest hd
  | load =>
    obtain ⟨hcareful,-,-⟩ := hc (writesOutside_snoc.mp hw).1
    exact ⟨careful_snoc.mpr ⟨hcareful,trivial⟩,fun _ => lastSaved_snoc _ _,fun hv => nomatch hv⟩
  | _ => simp at ha

/-- Any step but a write outside a global command leaves the snapshot covered. -/
theorem covered_step (h : Step c a c') (ha : a=.clean→c.inGlobal=true) (hc : Kept Covered c) :
    Kept Covered c' := by
  intro hw
  have hstep := h
  cases h with
  | save hg => exact covered_of_fresh (.save hg) (by simp) hc.matched hw
  | undo hv => exact covered_of_fresh (.undo hv) (by simp) hc.matched hw
  | load => exact covered_of_fresh .load (by simp) hc.matched hw
  | clean =>
    rw [ha rfl] at hw
    exact absurd rfl ((writesOutside_snoc.mp hw).2 _)
  | _ =>
    obtain ⟨hcareful,hhonest,hcovered⟩ := hc hw
    exact ⟨hcareful,honest_step hstep (fun _ => hhonest) hcareful,hcovered⟩

theorem covered_path (h : Path Step c acts c') (hacts : Act.clean∉acts) (hc : Kept Covered c) :
    Kept Covered c' := by
  refine h.invariant hc fun _ a _ ha hd hs => covered_step hs ?_ hd
  rintro rfl
  exact absurd ha hacts

theorem matched_marginal (h : Trace Marginal c c') (hc : Kept Matched c) : Kept Matched c' := by
  obtain ⟨acts,hacts,hp⟩ := h
  refine hp.invariant hc fun d a d' ha hd hs => ?_
  have hmarginal := hacts a ha
  cases hs with
  | dot | mark => exact hd
  | clean =>
    intro hw
    obtain ⟨hcareful,-,-⟩ := hd (writesOutside_snoc.mp hw).1
    exact ⟨careful_snoc.mpr ⟨hcareful,trivial⟩,fun _ => lastSaved_snoc _ _,
      fun _ _ _ => lastSaved_snoc _ _⟩
  | _ => exact hmarginal.elim

theorem matched_dots (h : Trace IsDot c c') (hc : Kept Matched c) : Kept Matched c' :=
  matched_marginal (h.mono fun _ => marginal_of_isDot) hc

theorem matched_edited (h : Edited c c') (hg : c.inGlobal=false) (hc : Kept Matched c) :
    Kept Matched c' := by
  rcases h with h | ⟨acts,hacts,-,hp⟩
  · exact matched_dots h hc
  rw [saves,hg] at hp
  cases hp with
  | cons hs hp =>
    exact (covered_path hp (fun ha => hacts _ ha) (covered_of_fresh hs (by simp) hc)).matched

/-- A global command starts from its own snapshot, and inside it no write is outside. -/
theorem matched_visited (h : Visited c c') (hc : Kept Matched c) : Kept Matched c' := by
  obtain ⟨targets,c₁,c₂,c₃,c₄,hsave,henter,⟨⟨acts,hacts,hp⟩,-⟩,hleave,hend⟩ := h
  have hentered := covered_step henter (by simp) (covered_of_fresh hsave (by simp) hc)
  have hinside : c₂.inGlobal=true := by
    cases henter
    rfl
  have hrun : c₃.inGlobal=true ∧ Kept Covered c₃ := by
    refine hp.invariant (I := fun d => d.inGlobal=true ∧ Kept Covered d) ⟨hinside,hentered⟩
      fun d a d' ha hd hs => ⟨?_,covered_step hs (fun _ => hd.1) hd.2⟩
    exact (inGlobal_enclosed (Trace.one (hacts a ha) hs)).trans hd.1
  have hleft := covered_step hleave (by simp) hrun.2
  rcases hend with ⟨-,rfl⟩ | ⟨-,hpath⟩
  · exact hleft.matched
  · exact (covered_path hpath (by simp) hleft).matched

end

section
variable {W : Type} (host : Host W) {e₀ e : Engine W} {lines : List Bytes}

structure Opened (e : Engine W) : Prop extends Started e where
  loaded : e.audit=[.loaded e.buffer.lines]

theorem Opened.honest (h : Opened e) : Honest (core e) := by
  intro _
  simp [core,h.loaded,lastSaved,saved]

theorem Opened.kept (h : Opened e) : Kept Matched (core e) := by
  refine fun _ => ⟨?_,h.honest,fun hv => nomatch h.undoValid.symm.trans hv⟩
  simp [core,h.loaded,Careful,Sound]

theorem matched_execute {e' : Engine W} {line : Bytes} {q : Bool} (hc : InRange (core e))
    (hg : e.inGlobal=false) (hm : Kept Matched (core e)) (h : execute host line e=.ok q e') :
    Kept Matched (core e') := by
  obtain ⟨_,_,e₁,-,hdots,hdid⟩ := execute_ok host hc hg h
  have hg₁ : (core e₁).inGlobal=false := (inside_dots hdots).inGlobal.trans hg
  have hm₁ := matched_dots hdots hm
  rcases hdid with h | h | ⟨c₁,c₂,h₁,h₂,h₃⟩ | ⟨texts,c₁,h₁,h₂⟩ | h
  · exact matched_edited h hg₁ hm₁
  · exact matched_marginal h hm₁
  · have hundone := covered_of_fresh h₁ (by simp) hm₁
    exact matched_dots h₃ (covered_step h₂ (by simp) hundone).matched
  · have hloaded := covered_of_fresh h₁ (by simp) hm₁
    exact (covered_step h₂ (by simp) hloaded).matched
  · exact matched_visited h hm₁

theorem matched_session (hc : InRange (core e₀)) (hg : e₀.inGlobal=false)
    (hm : Kept Matched (core e₀)) (h : Session host e₀ lines e) : Kept Matched (core e) := by
  induction h with
  | nil => exact hm
  | cons hline _ ih =>
    obtain ⟨q,hline⟩ := hline
    obtain ⟨⟨acts,hp⟩,hg₁⟩ := execute_path host hc hg hline
    exact ih (hp.invariant hc fun _ _ _ _ hi hs => hs.inRange hi) hg₁
      (matched_execute host hc hg hm hline)

def play : List Bytes→Engine W→Engine W
  | [],e => e
  | line::lines,e => play lines (final (execute host line e))

def Succeeds : List Bytes→Engine W→Bool
  | [],_ => true
  | line::lines,e =>
    !failed (execute host line e) && Succeeds lines (final (execute host line e))

theorem session_play (h : Succeeds host lines e=true) :
    Session host e lines (play host lines e) := by
  induction lines generalizing e with
  | nil => exact .nil _
  | cons line lines ih =>
    obtain ⟨hline,hrest⟩ := Bool.and_eq_true_iff.mp h
    exact .cons (completed (by simpa using hline)) (ih hrest)

/-- In a session whose undos are sound, lines that do not count as modified are saved; and the undos
are sound if no global command writes the whole buffer. -/
theorem honest_of_careful (h₀ : Opened e₀) (h : Session host e₀ lines e) :
    (Careful none e.audit→Honest (core e)) ∧ (WritesOutside e.audit→Careful none e.audit) := by
  obtain ⟨⟨acts,hp⟩,-⟩ := session_path host h₀.inRange h₀.inGlobal h
  refine ⟨honest_path hp fun _ => h₀.honest,fun hw => ?_⟩
  exact (matched_session host h₀.inRange h₀.inGlobal h₀.kept h hw).1

end

def twoEqual : Engine Unit where
  buffer := ⟨[ascii "a",ascii "a"],2,false⟩
  reader := [(ascii "w f\\\n",none),(ascii "1t1\n",none)]
  audit := [.loaded [ascii "a",ascii "a"]]
  world := ()

theorem opened_twoEqual : Opened twoEqual where
  inRange := ⟨by decide,fun k n h => by simp [core,twoEqual] at h,
    fun h => by simp [core,twoEqual] at h,fun h => by simp [core,twoEqual] at h,
    fun t h => by simp [core,twoEqual] at h,fun _ => rfl⟩
  inGlobal := rfl
  undoValid := rfl
  loaded := rfl

/-- Writes and undos outside a global command. -/
theorem honest_deleted : ∃e,Session bareHost twoEqual [ascii "1d",ascii "w f",ascii "u"] e ∧
    e.buffer.dirty=true ∧ Honest (core e) := by
  obtain ⟨e,hrun,hdirty,haudit⟩ : ∃e,
      Session bareHost twoEqual [ascii "1d",ascii "w f",ascii "u"] e ∧ e.buffer.dirty=true ∧
        e.audit=[.loaded [ascii "a",ascii "a"],.written false [ascii "a"],
          .undone ⟨[ascii "a",ascii "a"],2,false⟩ [ascii "a"]] :=
    ⟨_,session_play bareHost (by decide +kernel),by decide +kernel,by decide +kernel⟩
  have hboth := honest_of_careful bareHost opened_twoEqual hrun
  exact ⟨e,hrun,hdirty,hboth.1 (hboth.2 (by simp [haudit,WritesOutside]))⟩

/-- A global command deletes a line, writes and copies the line back; after an undo the buffer
counts as unmodified, and the copy is not in the file. -/
theorem not_honest_copied : ∃e,
    Session bareHost twoEqual [ascii "1v/x/1d\\",ascii "u"] e ∧ e.buffer.dirty=false ∧
      e.buffer.lines=[ascii "a",ascii "a"] ∧ lastSaved e.audit=some [ascii "a"] ∧
      ¬ Honest (core e) := by
  obtain ⟨e,hrun,hdirty,hlines,hsaved⟩ : ∃e,
      Session bareHost twoEqual [ascii "1v/x/1d\\",ascii "u"] e ∧ e.buffer.dirty=false ∧
        e.buffer.lines=[ascii "a",ascii "a"] ∧ lastSaved e.audit=some [ascii "a"] :=
    ⟨_,session_play bareHost (by decide +kernel),by decide +kernel,by decide +kernel,
      by decide +kernel⟩
  refine ⟨e,hrun,hdirty,hlines,hsaved,fun h => ?_⟩
  have hequal : some e.buffer.lines=some [ascii "a"] := (h hdirty).symm.trans hsaved
  rw [hlines] at hequal
  exact absurd hequal (by decide)

end Coreutils.EdSaved
