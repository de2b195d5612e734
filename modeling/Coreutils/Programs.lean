import Mathlib.Logic.Basic

/-!
# Programs with a state and errors

What a program that may end in an error did, taken apart at its binds; what it leaves unchanged; and
the steps its successful runs take on a view of the state.
-/

namespace Coreutils.Programs

abbrev Prog (σ ε α : Type) := EStateM ε σ α

section
variable {σ ε α β τ : Type} {m n : Prog σ ε α} {f : α→Prog σ ε β} {s s' : σ} {a : α} {e : ε}
  {deferred : σ→EStateM.Result ε σ α→σ} {part : σ→τ} {g : σ→σ} {c : Prop} {I : σ→Prop}
  {put : τ→σ→σ} {p : ε→Prop} [Decidable c]

def final : EStateM.Result ε σ α→σ
  | .ok _ s | .error _ s => s

@[simp] theorem final_ok (a : α) : final (.ok a s : EStateM.Result ε σ α)=s := rfl

@[simp] theorem final_error (e : ε) : final (.error e s : EStateM.Result ε σ α)=s := rfl

def failed : EStateM.Result ε σ α→Bool
  | .ok _ _ => false
  | .error _ _ => true

theorem completed {r : EStateM.Result ε σ α} (h : failed r=false) : ∃a,r=.ok a (final r) := by
  cases r with
  | ok a s => exact ⟨a,rfl⟩
  | error e s => cases h

/-- Run `m`, and then change the state however `m` ended, as a deferred function does. -/
def withDefer (m : Prog σ ε α) (deferred : σ→EStateM.Result ε σ α→σ) : Prog σ ε α := fun s =>
  match m s with
  | .ok a t => .ok a (deferred s (.ok a t))
  | .error e t => .error e (deferred s (.error e t))

@[simp] theorem run_pure (a : α) : (pure a : Prog σ ε α) s=.ok a s := rfl

@[simp] theorem run_throw (e : ε) : (throw e : Prog σ ε α) s=.error e s := rfl

@[simp] theorem run_get : (get : Prog σ ε σ) s=.ok s s := rfl

@[simp] theorem run_set (t : σ) : (set t : Prog σ ε PUnit) s=.ok ⟨⟩ t := rfl

@[simp] theorem run_modify (g : σ→σ) : (modify g : Prog σ ε PUnit) s=.ok ⟨⟩ (g s) := rfl

theorem run_bind : (m >>= f) s=match m s with
    | .ok a t => f a t
    | .error e t => .error e t := by
  change EStateM.bind m f s=_
  unfold EStateM.bind
  cases m s <;> rfl

theorem run_bind_ok {t : σ} (h : m s=.ok a t) : (m >>= f) s=f a t := by rw [run_bind,h]

theorem run_bind_error {t : σ} (h : m s=.error e t) : (m >>= f) s=.error e t := by rw [run_bind,h]

@[simp] theorem run_get_bind (g : σ→Prog σ ε β) : (get >>= g) s=g s s := rfl

@[simp] theorem run_set_bind (t : σ) (g : PUnit→Prog σ ε β) : (set t >>= g) s=g ⟨⟩ t := rfl

@[simp] theorem run_modify_bind (h : σ→σ) (g : PUnit→Prog σ ε β) :
    (modify h >>= g) s=g ⟨⟩ (h s) := rfl

theorem run_tryCatch (h : ε→Prog σ ε α) : (tryCatch m h : Prog σ ε α) s=match m s with
    | .ok a t => .ok a t
    | .error e t => h e t := by
  change EStateM.tryCatch m h s=_
  unfold EStateM.tryCatch
  cases m s <;> rfl

theorem bind_ok {b : β} : (m >>= f) s=.ok b s' ↔ ∃a t,m s=.ok a t ∧ f a t=.ok b s' := by
  rw [run_bind]
  cases m s with
  | ok a t => simp [and_assoc]
  | error e t => simp

theorem bind_error : (m >>= f) s=.error e s' ↔
    m s=.error e s' ∨ ∃a t,m s=.ok a t ∧ f a t=.error e s' := by
  rw [run_bind]
  cases m s with
  | ok a t => simp [and_assoc]
  | error e t => simp

theorem withDefer_ok :
    withDefer m deferred s=.ok a s' ↔ ∃t,m s=.ok a t ∧ s'=deferred s (.ok a t) := by
  unfold withDefer
  cases m s with
  | ok b t =>
    simp only [EStateM.Result.ok.injEq]
    constructor
    · rintro ⟨rfl,rfl⟩
      exact ⟨t,⟨rfl,rfl⟩,rfl⟩
    · rintro ⟨t',⟨rfl,rfl⟩,rfl⟩
      exact ⟨rfl,rfl⟩
  | error e t => simp

theorem withDefer_error : withDefer m deferred s=.error e s' ↔
      ∃t,m s=.error e t ∧ s'=deferred s (.error e t) := by
  unfold withDefer
  cases m s with
  | ok b t => simp
  | error e' t =>
    simp only [EStateM.Result.error.injEq]
    constructor
    · rintro ⟨rfl,rfl⟩
      exact ⟨t,⟨rfl,rfl⟩,rfl⟩
    · rintro ⟨t',⟨rfl,rfl⟩,rfl⟩
      exact ⟨rfl,rfl⟩

/-- However it ends, the program leaves a part of the state as it was. -/
def Keeps (part : σ→τ) (m : Prog σ ε α) : Prop := ∀s,part (final (m s))=part s

@[simp] theorem keeps_pure (a : α) : Keeps part (pure a : Prog σ ε α) := fun _ => rfl

@[simp] theorem keeps_throw (e : ε) : Keeps part (throw e : Prog σ ε α) := fun _ => rfl

@[simp] theorem keeps_get : Keeps part (get : Prog σ ε σ) := fun _ => rfl

@[simp] theorem keeps_modify (h : ∀s,part (g s)=part s) :
    Keeps part (modify g : Prog σ ε PUnit) := h

@[simp] theorem Keeps.bind (hm : Keeps part m) (hf : ∀a,Keeps part (f a)) :
    Keeps part (m >>= f) := by
  intro s
  have h := hm s
  rw [run_bind]
  cases hr : m s with
  | ok a t =>
    rw [hr] at h
    exact (hf a t).trans h
  | error e t =>
    rw [hr] at h
    exact h

@[simp] theorem keeps_map (hm : Keeps part m) (g : α→β) : Keeps part (g <$> m) := by
  exact hm.bind fun _ => keeps_pure _

theorem keeps_modify_bind {f : PUnit→Prog σ ε β} (hg : ∀s,part (g s)=part s)
    (hf : Keeps part (f ⟨⟩)) : Keeps part (modify g >>= f) :=
  Keeps.bind (keeps_modify hg) fun _ => hf

@[simp] theorem Keeps.tryCatch {h : ε→Prog σ ε α} (hm : Keeps part m)
    (hh : ∀e,Keeps part (h e)) : Keeps part (tryCatch m h : Prog σ ε α) := by
  intro s
  have h' := hm s
  rw [run_tryCatch]
  cases hr : m s with
  | ok a t =>
    rw [hr] at h'
    exact h'
  | error e t =>
    rw [hr] at h'
    exact (hh e t).trans h'

@[simp] theorem Keeps.ite (hm : Keeps part m)
    (hn : Keeps part n) : Keeps part (if c then m else n) := by
  split
  · exact hm
  · exact hn

section
variable (h : Keeps part m)
include h

/-- A program that keeps a part keeps every function of it. -/
theorem Keeps.map {υ : Type} (g : τ→υ) : Keeps (fun s => g (part s)) m :=
  fun s => congrArg g (h s)

theorem Keeps.ok (hr : m s=.ok a s') : part s'=part s := by
  have := h s
  rwa [hr] at this

theorem Keeps.error (hr : m s=.error e s') : part s'=part s := by
  have := h s
  rwa [hr] at this

theorem Keeps.bind_ok {b : β} (hr : (m >>= f) s=.ok b s') :
    ∃a t,m s=.ok a t ∧ part t=part s ∧ f a t=.ok b s' := by
  obtain ⟨a,t,hm,hf⟩ := Programs.bind_ok.mp hr
  exact ⟨a,t,hm,h.ok hm,hf⟩

theorem Keeps.bind_error (hr : (m >>= f) s=.error e s') :
    part s'=part s ∨ ∃a t,m s=.ok a t ∧ part t=part s ∧ f a t=.error e s' := by
  rcases Programs.bind_error.mp hr with hm | ⟨a,t,hm,hf⟩
  · exact .inl (h.error hm)
  · exact .inr ⟨a,t,hm,h.ok hm,hf⟩

theorem Keeps.bind_fails (hf : ∀a t,part t=part s→f a t=.error e s'→part s'=part t)
    (hr : (m >>= f) s=.error e s') : part s'=part s := by
  rcases h.bind_error hr with hp | ⟨a,t,-,ht,hrest⟩
  · exact hp
  · exact (hf a t ht hrest).trans ht

end

/-- However it ends, the program keeps a property of the state. -/
def Preserves (I : σ→Prop) (m : Prog σ ε α) : Prop := ∀s,I s→I (final (m s))

theorem preserves_pure (a : α) : Preserves I (pure a : Prog σ ε α) := fun _ h => h

theorem preserves_throw (e : ε) : Preserves I (throw e : Prog σ ε α) := fun _ h => h

theorem preserves_get : Preserves I (get : Prog σ ε σ) := fun _ h => h

theorem preserves_modify (h : ∀s,I s→I (g s)) : Preserves I (modify g : Prog σ ε PUnit) := h

theorem Preserves.bind (hm : Preserves I m) (hf : ∀a,Preserves I (f a)) :
    Preserves I (m >>= f) := by
  intro s hs
  have h := hm s hs
  rw [run_bind]
  cases hr : m s with
  | ok a t =>
    rw [hr] at h
    exact hf a t h
  | error e t =>
    rw [hr] at h
    exact h

theorem preserves_modify_bind {f : PUnit→Prog σ ε β} (hg : ∀s,I s→I (g s))
    (hf : Preserves I (f ⟨⟩)) : Preserves I (modify g >>= f) :=
  Preserves.bind (preserves_modify hg) fun _ => hf

theorem Preserves.ite (hm : Preserves I m)
    (hn : Preserves I n) : Preserves I (if c then m else n) := by
  split
  · exact hm
  · exact hn

theorem Preserves.withDefer (hm : Preserves I m)
    (hd : ∀s r,I (final r)→I (deferred s r)) : Preserves I (withDefer m deferred) := by
  intro s hs
  have h := hm s hs
  unfold Programs.withDefer
  cases hr : m s with
  | ok a t =>
    rw [hr] at h
    exact hd s _ h
  | error e t =>
    rw [hr] at h
    exact hd s _ h

def mapState (g : σ→σ) : EStateM.Result ε σ α→EStateM.Result ε σ α
  | .ok a s => .ok a (g s)
  | .error e s => .error e (g s)

@[simp] theorem mapState_ok (a : α) : mapState g (.ok a s : EStateM.Result ε σ α)=.ok a (g s) := rfl

@[simp] theorem mapState_error (e : ε) :
    mapState g (.error e s : EStateM.Result ε σ α)=.error e (g s) := rfl

/-- The program neither looks at the part of the state that `put` sets nor changes it. -/
def Blind (put : τ→σ→σ) (m : Prog σ ε α) : Prop := ∀t s,m (put t s)=mapState (put t) (m s)

@[simp] theorem blind_pure (a : α) : Blind put (pure a : Prog σ ε α) := fun _ _ => rfl

@[simp] theorem blind_throw (e : ε) : Blind put (throw e : Prog σ ε α) := fun _ _ => rfl

theorem blind_modify (h : ∀t s,g (put t s)=put t (g s)) :
    Blind put (modify g : Prog σ ε PUnit) := by
  intro t s
  simp [h]

theorem Blind.bind (hm : Blind put m) (hf : ∀a,Blind put (f a)) : Blind put (m >>= f) := by
  intro t s
  rw [run_bind,run_bind,hm t s]
  cases m s with
  | ok a s' => exact hf a t s'
  | error e s' => rfl

/-- A program that reads the state, but of it nothing that `put` sets. -/
theorem blind_get_bind {f : σ→Prog σ ε β} (h : ∀t s,f (put t s)=f s)
    (hf : ∀s,Blind put (f s)) : Blind put (get >>= f) := by
  intro t s
  rw [run_get_bind,h t s]
  exact hf s t s

theorem Blind.ite (hm : Blind put m) (hn : Blind put n) : Blind put (if c then m else n) := by
  split
  · exact hm
  · exact hn

/-- Every error of the program has a property. -/
def Throws (p : ε→Prop) (m : Prog σ ε α) : Prop := ∀s e s',m s=.error e s'→p e

@[simp] theorem throws_pure (a : α) : Throws p (pure a : Prog σ ε α) := by
  intro s e s' h
  cases h

theorem throws_throw (he : p e) : Throws p (throw e : Prog σ ε α) := by
  intro s e' s' h
  cases h
  exact he

@[simp] theorem throws_modify (g : σ→σ) : Throws p (modify g : Prog σ ε PUnit) := by
  intro s e s' h
  cases h

@[simp] theorem throws_get : Throws p (get : Prog σ ε σ) := by
  intro s e s' h
  cases h

theorem Throws.bind (hm : Throws p m) (hf : ∀a,Throws p (f a)) : Throws p (m >>= f) := by
  intro s e s' h
  rcases bind_error.mp h with h | ⟨a,t,-,h⟩
  · exact hm _ _ _ h
  · exact hf a _ _ _ h

theorem Throws.ite (hm : Throws p m) (hn : Throws p n) : Throws p (if c then m else n) := by
  split
  · exact hm
  · exact hn

end

section
variable {κ act : Type} {step : κ→act→κ→Prop} {c c' : κ}

inductive Path (step : κ→act→κ→Prop) : κ→List act→κ→Prop
  | nil (c : κ) : Path step c [] c
  | cons {c c' c'' : κ} {a : act} {as : List act} :
      step c a c'→Path step c' as c''→Path step c (a::as) c''

theorem Path.one {a : act} (h : step c a c') : Path step c [a] c' := .cons h (.nil c')

theorem Path.eq_of_nil (h : Path step c [] c') : c'=c := by
  cases h
  rfl

theorem Path.append {c'' : κ} {as bs : List act} (h : Path step c as c')
    (h' : Path step c' bs c'') : Path step c (as++bs) c'' := by
  induction h with
  | nil => exact h'
  | cons hstep _ ih => exact .cons hstep (ih h')

/-- What every step of a path keeps holds at its end. -/
theorem Path.invariant {I : κ→Prop} {as : List act} (h : Path step c as c') (hc : I c)
    (hstep : ∀c a c',a∈as→I c→step c a c'→I c') : I c' := by
  induction h with
  | nil => exact hc
  | cons hs _ ih =>
    exact ih (hstep _ _ _ (by simp) hc hs) fun c a c' ha => hstep c a c' (by simp [ha])

end

end Coreutils.Programs
