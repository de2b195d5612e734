import Mathlib.Data.List.Basic

/-!
# Programs that may fault

An outcome is a value, an error or a fault. A traced computation also keeps the arguments of its
calls to an operation that may fault. When nothing else in it faults, it faults exactly when the
operation does on one of them.
-/

namespace Coreutils.Faults

variable {ι ε α β : Type}

inductive Outcome (ε α : Type) where
  | ok (a : α)
  | error (e : ε)
  | fault
  deriving DecidableEq,Repr

namespace Outcome

def bind (x : Outcome ε α) (f : α→Outcome ε β) : Outcome ε β :=
  match x with
  | .ok a => f a
  | .error e => .error e
  | .fault => .fault

instance : Monad (Outcome ε) where
  pure := .ok
  bind := bind

@[simp] theorem ok_bind (a : α) (f : α→Outcome ε β) : (Outcome.ok a >>= f)=f a := rfl

@[simp] theorem error_bind (e : ε) (f : α→Outcome ε β) :
    ((Outcome.error e : Outcome ε α) >>= f)=.error e := rfl

@[simp] theorem fault_bind (f : α→Outcome ε β) : ((Outcome.fault : Outcome ε α) >>= f)=.fault :=
  rfl

/-- No fault, and a result only as described. -/
structure Safe (x : Outcome ε α) (post : α→Prop) : Prop where
  ne_fault : x≠.fault
  post : ∀a,x=.ok a→post a

variable {post : α→Prop} {x : Outcome ε α}

theorem safe_ok {a : α} (h : post a) : Safe (.ok a : Outcome ε α) post where
  ne_fault := by simp
  post := by rintro _ ⟨⟩; exact h

theorem safe_error (e : ε) : Safe (.error e : Outcome ε α) post where
  ne_fault := by simp
  post := by rintro _ ⟨⟩

theorem Safe.bind {f : α→Outcome ε β} {post' : β→Prop}
    (hx : Safe x post) (hf : ∀a,post a→Safe (f a) post') : Safe (x >>= f) post' := by
  cases x with
  | ok a => exact hf a (hx.post a rfl)
  | error e => exact safe_error e
  | fault => exact absurd rfl hx.ne_fault

theorem safe_ite {c : Prop} [Decidable c] {y : Outcome ε α}
    (hx : c→Safe x post) (hy : ¬ c→Safe y post) : Safe (if c then x else y) post := by
  split
  · next h => exact hx h
  · next h => exact hy h

theorem Safe.mono {post' : α→Prop} (hx : Safe x post) (h : ∀a,post a→post' a) : Safe x post' :=
  ⟨hx.ne_fault,fun a ha => h a (hx.post a ha)⟩

end Outcome

/-- An outcome with the arguments of the calls made on the way to it. -/
structure Traced (ι ε α : Type) where
  calls : List ι
  outcome : Outcome ε α

namespace Traced

def bind (m : Traced ι ε α) (f : α→Traced ι ε β) : Traced ι ε β :=
  match m.outcome with
  | .ok a => ⟨m.calls++(f a).calls,(f a).outcome⟩
  | .error e => ⟨m.calls,.error e⟩
  | .fault => ⟨m.calls,.fault⟩

instance : Monad (Traced ι ε) where
  pure a := ⟨[],.ok a⟩
  bind := bind

def lift (x : Outcome ε α) : Traced ι ε α := ⟨[],x⟩

def throw (e : ε) : Traced ι ε α := lift (.error e)

def call (op : ι→Outcome ε α) (i : ι) : Traced ι ε α := ⟨[i],op i⟩

def attempt (op : ι→Outcome ε α) (i : ι) : Traced ι ε (Except ε α) :=
  ⟨[i],match op i with
    | .ok a => .ok (.ok a)
    | .error e => .ok (.error e)
    | .fault => .fault⟩

/-- A fault exactly where one of the calls is faulty, and a result only as described. -/
structure Exact (faulty : ι→Prop) (m : Traced ι ε α) (post : α→Prop) : Prop where
  fault_iff : m.outcome=.fault ↔ ∃i∈m.calls,faulty i
  post : ∀a,m.outcome=.ok a→post a

variable {faulty : ι→Prop} {post : α→Prop} {post' : β→Prop} {i : ι} {m : Traced ι ε α}
  {f : α→Traced ι ε β} {op : ι→Outcome ε α}

theorem exact_lift {x : Outcome ε α} (hx : x.Safe post) :
    Exact faulty (lift x : Traced ι ε α) post where
  fault_iff := by simp [lift,hx.ne_fault]
  post := hx.post

theorem exact_pure {a : α} (h : post a) : Exact faulty (pure a : Traced ι ε α) post :=
  exact_lift (Outcome.safe_ok h)

theorem exact_throw (e : ε) : Exact faulty (throw e : Traced ι ε α) post :=
  exact_lift (Outcome.safe_error e)

theorem exact_call (hop : op i=.fault ↔ faulty i)
    (hpost : ∀a,op i=.ok a→post a) : Exact faulty (call op i) post where
  fault_iff := by simp [call,hop]
  post := hpost

theorem exact_attempt (hop : op i=.fault ↔ faulty i)
    {post : Except ε α→Prop} (herror : ∀e,post (.error e))
    (hpost : ∀a,op i=.ok a→post (.ok a)) : Exact faulty (attempt op i) post := by
  have hcalls : (attempt op i).calls=[i] := rfl
  cases h : op i with
  | ok a =>
    have hout : (attempt op i).outcome=.ok (.ok a) := by simp [attempt,h]
    refine ⟨by simp [hcalls,hout,←hop,h],fun b hb => ?_⟩
    obtain rfl : Except.ok a=b := by simpa [hout] using hb
    exact hpost a h
  | error e =>
    have hout : (attempt op i).outcome=.ok (.error e) := by simp [attempt,h]
    refine ⟨by simp [hcalls,hout,←hop,h],fun b hb => ?_⟩
    obtain rfl : Except.error e=b := by simpa [hout] using hb
    exact herror e
  | fault =>
    have hout : (attempt op i).outcome=.fault := by simp [attempt,h]
    exact ⟨by simp [hcalls,hout,←hop,h],fun b hb => by simp [hout] at hb⟩

theorem Exact.bind (hm : Exact faulty m post)
    (hf : ∀a,post a→Exact faulty (f a) post') : Exact faulty (m >>= f) post' := by
  change Exact faulty (Traced.bind m f) post'
  have hiff := hm.fault_iff
  unfold Traced.bind
  cases h : m.outcome with
  | ok a =>
    have hfa := hf a (hm.post a h)
    have hnone : ¬ ∃i∈m.calls,faulty i := by simp [←hiff,h]
    refine ⟨?_,hfa.post⟩
    simp [hfa.fault_iff,or_and_right,exists_or,hnone]
  | error | fault => exact ⟨by simpa [h] using hiff,by rintro _ ⟨⟩⟩

/-- What a sequence of computations has done when it has a result. -/
theorem bind_ok {b : β} (h : (m >>= f).outcome=.ok b) :
    ∃a,m.outcome=.ok a ∧ (f a).outcome=.ok b ∧ (m >>= f).calls=m.calls++(f a).calls := by
  change (Traced.bind m f).outcome=.ok b at h
  change ∃a,_ ∧ _ ∧ (Traced.bind m f).calls=_
  unfold Traced.bind at h ⊢
  split at h
  · next a ha => exact ⟨a,ha,h,rfl⟩
  · cases h
  · cases h

theorem mem_calls_bind (h : i∈m.calls) (f : α→Traced ι ε β) : i∈(m >>= f).calls := by
  change i∈(Traced.bind m f).calls
  unfold Traced.bind
  split
  · exact List.mem_append_left _ h
  · exact h
  · exact h

theorem Exact.mono (hm : Exact faulty m post) {post' : α→Prop}
    (h : ∀a,post a→post' a) : Exact faulty m post' :=
  ⟨hm.fault_iff,fun a ha => h a (hm.post a ha)⟩

theorem exact_ite {c : Prop} [Decidable c] {m' : Traced ι ε α} (hm : c→Exact faulty m post)
    (hm' : ¬ c→Exact faulty m' post) : Exact faulty (if c then m else m') post := by
  split
  · next h => exact hm h
  · next h => exact hm' h

end Traced

end Coreutils.Faults
