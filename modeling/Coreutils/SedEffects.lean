import Coreutils.SedBuffers

/-!
# What the instructions leave alone

The instructions that neither take a line nor queue a text leave the line number and the queue, and
record nothing but what they write. Only those that take a line, and `q`, end the run as at the end
of the file.
-/

namespace Coreutils.SedEffects
open GoText Programs SedVm SedBuffers

/-- A change of the rest of the machine; of the ranges only the one of `k` changes. -/
structure Apart (k : Option ℕ) (v w : Vm) : Prop where
  input : w.nxtl=v.nxtl ∧ w.nxtlNL=v.nxtlNL ∧ w.input=v.input ∧ w.source=v.source ∧
    w.lineno=v.lineno
  output : w.appl=v.appl ∧ w.trace=v.trace ∧ w.out=v.out
  ranges : ∀id,k≠some id→w.ranges id=v.ranges id

variable {k : Option ℕ}

theorem apart_rfl {v w : Vm} (h : w={ v with
      pat := w.pat
      hold := w.hold
      patNL := w.patNL
      ip := w.ip
      modified := w.modified
      lastRE := w.lastRE
      writes := w.writes } := by rfl) : Apart k v w := by
  rw [h]
  exact ⟨⟨rfl,rfl,rfl,rfl,rfl⟩,⟨rfl,rfl,rfl⟩,fun _ _ => rfl⟩

/-- Texts written and changes of the rest of the machine, one after the other. -/
inductive Effect (k : Option ℕ) (v : Vm) : Vm→Prop
  | refl : Effect k v v
  | apart {w x : Vm} : Effect k v w→Apart k w x→Effect k v x
  | write {w : Vm} (s : Bytes) : Effect k v w→
    Effect k v (put (w.out.write s).2 (note (.wrote s) w))

theorem Effect.trans {v w x : Vm} (h : Effect k v w) (h' : Effect k w x) : Effect k v x := by
  induction h' with
  | refl => exact h
  | apart _ ha ih => exact ih.apart ha
  | write s _ ih => exact ih.write s

/-- However it ends, the program has had such an effect, and not as at the end of the file. -/
structure Mild (k : Option ℕ) {α : Type} (m : Sed α) : Prop where
  effect : ∀v,Effect k v (final (m v))
  throws : Throws (·≠.eof) m

section
variable {k : Option ℕ} {α β : Type} {m : Sed α} {f : α→Sed β}

theorem mild_pure (a : α) : Mild k (pure a : Sed α) := ⟨fun _ => .refl,throws_pure a⟩

theorem mild_get : Mild k (get : Sed Vm) := ⟨fun _ => .refl,throws_get⟩

theorem mild_fail (text : Bytes) : Mild k (throw (.failed text) : Sed α) :=
  ⟨fun _ => .refl,throws_throw (by simp)⟩

theorem mild_modify {g : Vm→Vm} (h : ∀v,Apart k v (g v)) : Mild k (modify g : Sed Unit) :=
  ⟨fun v => Effect.refl.apart (h v),throws_modify g⟩

theorem Mild.bind (hm : Mild k m) (hf : ∀a,Mild k (f a)) : Mild k (m >>= f) := by
  refine ⟨fun v => ?_,hm.throws.bind fun a => (hf a).throws⟩
  have h := hm.effect v
  rw [run_bind]
  cases hr : m v with
  | ok a w =>
    rw [hr] at h
    exact h.trans ((hf a).effect w)
  | error e w =>
    rw [hr] at h
    exact h

theorem Mild.ite {c : Prop} [Decidable c] {n : Sed α} (hm : Mild k m) (hn : Mild k n) :
    Mild k (if c then m else n) := by
  split
  · exact hm
  · exact hn

theorem mild_advance : Mild k advance := mild_modify fun _ => apart_rfl

theorem mild_jump (target : ℕ) : Mild k (jump target) := mild_modify fun _ => apart_rfl

theorem mild_orFail (r : Except Bytes α) : Mild k (orFail r) := by
  cases r with
  | ok a => exact mild_pure a
  | error text => exact mild_fail text

end

section
variable {k : Option ℕ}

theorem mild_writeString (s : Bytes) : Mild k (writeString s) := by
  constructor
  · intro v
    rw [writeString,run_emit]
    split <;> exact Effect.refl.write s
  intro v e w h
  rw [writeString,run_emit] at h
  split at h
  · cases h
    simp
  · cases h

theorem mild_writeLine (text : Bytes) (nl : Bool) : Mild k (writeLine text nl) := by
  constructor
  · intro v
    rw [run_writeLine]
    split
    · exact (Effect.refl.write text).trans ((mild_writeString _).effect _)
    · exact Effect.refl.write text
  · intro v e w h
    rw [run_writeLine] at h
    split at h
    · exact (mild_writeString (k := none) _).throws _ _ _ h
    · cases h

theorem mild_writeFile (host : Host) (filename text : Bytes) :
    Mild k (writeFile host filename text) := by
  refine mild_get.bind fun v => (mild_modify fun _ => apart_rfl).bind fun _ => ?_
  split
  · exact mild_fail _
  · exact mild_pure _

theorem mild_isMet (target : ℤ) (c : Cond) : Mild k (isMet target c) := by
  cases c with
  | number | relative | eof => exact mild_get.bind fun _ => mild_pure _
  | regexp re null =>
    exact mild_get.bind fun v => (mild_orFail _).bind fun _ =>
      (mild_modify fun _ => apart_rfl).bind fun _ => mild_pure _

theorem mild_listLoop (isPrint : ℕ→Bool) (fuel : ℕ) (s b : Bytes) :
    Mild k (listLoop isPrint fuel s b) := by
  induction fuel generalizing s b with
  | zero => exact mild_writeString _
  | succ fuel ih =>
    cases s with
    | nil => exact mild_writeString _
    | cons c s =>
      exact (ih _ _).ite (((mild_writeString _).bind fun _ => ih _ _).ite (ih _ _))

theorem mild_cmdTwocond (id : ℕ) (start stop : Cond) (metloc unmetloc : ℕ) :
    Mild (some id) (cmdTwocond id start stop metloc unmetloc) := by
  have hcommit : ∀r target,Mild (some id) (modify fun v =>
      { v with ranges := Function.update v.ranges id r,ip := target } : Sed Unit) := by
    refine fun r target => mild_modify fun v => ⟨⟨rfl,rfl,rfl,rfl,rfl⟩,⟨rfl,rfl,rfl⟩,?_⟩
    exact fun id' h => Function.update_of_ne (fun h' => h (by rw [h'])) _ _
  refine mild_get.bind fun v => Mild.ite ?_ ?_
  · exact (mild_isMet _ _).bind fun _ => (hcommit _ _).ite (hcommit _ _)
  · exact (mild_isMet _ _).bind fun _ => (hcommit _ _).ite (hcommit _ _)

theorem mild_cmdSubstitute (host : Host) (s : Substitute) : Mild k (cmdSubstitute host s) := by
  refine mild_get.bind fun v => (mild_orFail _).bind fun r => ?_
  cases r with
  | none => exact mild_modify fun _ => apart_rfl
  | some pat =>
    exact (mild_modify fun _ => apart_rfl).bind fun _ =>
      ((mild_writeLine _ _).ite (mild_pure _)).bind fun _ =>
        (mild_writeFile _ _ _).ite (mild_pure _)

end

/-- The range an instruction owns. -/
def Instr.range? : Instr→Option ℕ
  | .twocond id _ _ _ _ => some id
  | _ => none

/-- A property of line number, queue, buffer and record that survives a text being written. -/
structure Frame (I : Vm→Prop) : Prop where
  other : ∀{v w : Vm},I v→w.lineno=v.lineno→w.appl=v.appl→w.trace=v.trace→
    w.out=v.out→I w
  write : ∀{v : Vm} (s : Bytes),I v→I (put (v.out.write s).2 (note (.wrote s) v))

def Instr.Special : Instr→Prop
  | .fillNext | .fillNextAppend | .appender _ | .reader _ => True
  | _ => False

def Instr.Stops : Instr→Prop
  | .quit | .fillNext | .fillNextAppend => True
  | _ => False

variable {i : Instr}

theorem mild_exec (host : Host) (h : ¬ Instr.Special i) (hs : ¬ Instr.Stops i) :
    Mild (Instr.range? i) (exec host i) := by
  cases i with
  | changedBranch target =>
    exact mild_get.bind fun _ => Mild.ite (mild_modify fun _ => apart_rfl) mild_advance
  | print | printFirstLine =>
    exact mild_advance.bind fun _ => mild_get.bind fun _ => mild_writeLine _ _
  | deleteFirstLine =>
    refine mild_modify fun v => ?_
    split <;> exact apart_rfl
  | lineno => exact mild_advance.bind fun _ => mild_get.bind fun _ => mild_writeString _
  | list => exact mild_advance.bind fun _ => mild_get.bind fun _ => mild_listLoop _ _ _ _
  | simplecond cond metloc unmetloc =>
    exact (mild_isMet 0 cond).bind fun _ => (mild_jump metloc).ite (mild_jump unmetloc)
  | twocond id start stop metloc unmetloc => exact mild_cmdTwocond id start stop metloc unmetloc
  | changer text guard =>
    exact (mild_jump 0).bind fun _ => mild_get.bind fun _ =>
      (mild_writeString _).ite (mild_pure _)
  | inserter text => exact mild_advance.bind fun _ => mild_writeString text
  | writer filename =>
    exact mild_advance.bind fun _ => mild_get.bind fun _ => mild_writeFile _ _ _
  | substitute s => exact mild_cmdSubstitute host s
  | swap | get | hold | getapp | holdapp | branch | translate =>
    exact mild_modify fun _ => apart_rfl
  | quit => exact absurd trivial hs
  | fillNext | fillNextAppend | appender | reader => exact absurd trivial h

theorem exec_queues (host : Host) (h : Instr.Special i) (hs : ¬ Instr.Stops i) :
    ∃t : Vm→Option Bytes,exec host i=advance >>= fun _ => get >>= fun v => queueFile (t v) := by
  cases i with
  | appender text => exact ⟨fun _ => some text,rfl⟩
  | reader filename => exact ⟨fun v => host.readFile v.writes filename,rfl⟩
  | fillNext | fillNextAppend => exact absurd trivial hs
  | _ => exact h.elim

theorem throws_exec (host : Host) (h : ¬ Instr.Stops i) : Throws (·≠.eof) (exec host i) := by
  by_cases hs : Instr.Special i
  · obtain ⟨t,ht⟩ := exec_queues host hs h
    rw [ht]
    refine (throws_modify _).bind fun _ => throws_get.bind fun v => ?_
    cases t v with
    | some text => exact throws_modify _
    | none => exact throws_pure _
  · exact (mild_exec host hs h).throws

section
variable {I : Vm→Prop} (hI : Frame I)
include hI

theorem Frame.effect {v w : Vm} (hv : I v) (h : Effect k v w) : I w := by
  induction h with
  | refl => exact hv
  | apart _ ha ih => exact hI.other ih ha.input.2.2.2.2 ha.output.1 ha.output.2.1 ha.output.2.2
  | write s _ ih => exact hI.write s ih

theorem preserves_other {g : Vm→Vm} (h : ∀v,(g v).lineno=v.lineno ∧ (g v).appl=v.appl ∧
    (g v).trace=v.trace ∧ (g v).out=v.out) : Preserves I (modify g : Sed Unit) :=
  preserves_modify fun v hv =>
    let ⟨h₁,h₂,h₃,h₄⟩ := h v
    hI.other hv h₁ h₂ h₃ h₄

theorem preserves_advance : Preserves I advance :=
  preserves_other hI fun _ => ⟨rfl,rfl,rfl,rfl⟩

theorem preserves_exec (host : Host) (h : ¬ Instr.Special i) : Preserves I (exec host i) := by
  by_cases hs : Instr.Stops i
  · cases i with
    | quit =>
      exact preserves_modify_bind (fun _ hv => hI.other hv rfl rfl rfl rfl) (preserves_throw _)
    | _ => first | exact absurd trivial h | exact hs.elim
  · exact fun v hv => hI.effect hv ((mild_exec host h hs).effect v)

end

theorem throws_fetch : Throws (·≠.eof) fetch := by
  refine throws_get.bind fun v => (throws_modify _).bind fun _ => ?_
  split
  · exact throws_throw (by simp)
  · exact throws_pure _

end Coreutils.SedEffects
