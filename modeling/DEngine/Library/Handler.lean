import Mathlib.Order.Defs.Unbundled

/-!
# Fallible handlers

A handler works on a state and may fail half way; what it did to the state
before it failed stays. The rules say what a handler ensures, outcome by outcome
(`Ensures`), and let a property that composes along the steps of a handler be
proved step by step (`Ensures.chain`).
-/

namespace DEngine.Library

/-- A computation on a state that may fail and keeps the state it left. -/
def Handler (σ ε α : Type) := σ → Except ε α × σ

namespace Handler

variable {σ ε α β : Type}

instance : Monad (Handler σ ε) where
  pure a := fun s => (.ok a, s)
  bind x f := fun s =>
    match x s with
    | (.ok a, t) => f a t
    | (.error e, t) => (.error e, t)

def get : Handler σ ε σ := fun s => (.ok s, s)

def modify (f : σ → σ) : Handler σ ε Unit := fun s => (.ok (), f s)

def fail (e : ε) : Handler σ ε α := fun s => (.error e, s)

/-- Run a handler and go on with its outcome, failed or not. -/
def attempt (x : Handler σ ε α) : Handler σ ε (Except ε α) := fun s => (.ok (x s).1, (x s).2)

/-- Run the handlers of a list in order; a failure ends the sequence. -/
def each (f : α → Handler σ ε Unit) : List α → Handler σ ε Unit
  | [] => pure ()
  | a :: rest => do
    f a
    each f rest

theorem get_bind_apply (f : σ → Handler σ ε α) (s : σ) : (get >>= f) s = f s s := rfl

/-- Every outcome of the handler from `s` meets the postcondition. -/
def Ensures (x : Handler σ ε α) (s : σ) (Q : Except ε α → σ → Prop) : Prop :=
  Q (x s).1 (x s).2

section Rules

variable {x : Handler σ ε α} {f : α → Handler σ ε β} {s : σ}

theorem Ensures.mono {Q Q' : Except ε α → σ → Prop} (h : Ensures x s Q)
    (himp : ∀ r t, Q r t → Q' r t) : Ensures x s Q' :=
  himp _ _ h

@[simp] theorem ensures_modify {g : σ → σ} {Q : Except ε Unit → σ → Prop} :
    Ensures (modify g) s Q ↔ Q (.ok ()) (g s) := Iff.rfl

@[simp] theorem ensures_attempt {Q : Except ε (Except ε α) → σ → Prop} :
    Ensures (attempt x) s Q ↔ Ensures x s fun r t => Q (.ok r) t := Iff.rfl

variable {Q : Except ε β → σ → Prop}

theorem ensures_bind :
    Ensures (x >>= f) s Q ↔
      Ensures x s fun r t =>
        match r with
        | .ok a => Ensures (f a) t Q
        | .error e => Q (.error e) t := by
  have hrun : (x >>= f) s =
      match x s with
      | (.ok a, t) => f a t
      | (.error e, t) => (.error e, t) := rfl
  unfold Ensures
  rw [hrun]
  cases hx : x s with
  | mk r => cases r <;> rfl

/-- Sequencing: failures keep the postcondition, and every success goes on to meet it. -/
theorem Ensures.bind {R : Except ε α → σ → Prop}
    (hx : Ensures x s R) (herr : ∀ e t, R (.error e) t → Q (.error e) t)
    (hok : ∀ a t, R (.ok a) t → Ensures (f a) t Q) : Ensures (x >>= f) s Q := by
  refine ensures_bind.mpr (hx.mono ?_)
  intro r t hr
  cases r with
  | error e => exact herr e t hr
  | ok a => exact hok a t hr

/-- A property of the state that the first step establishes and the others keep. -/
theorem Ensures.keep {P : σ → Prop} (hx : Ensures x s fun _ t => P t)
    (hf : ∀ a t, P t → Ensures (f a) t fun _ u => P u) : Ensures (x >>= f) s fun _ u => P u :=
  hx.bind (fun _ _ h => h) hf

/-- The handler succeeds, with a value and a state that meet the condition. -/
def Returns (x : Handler σ ε α) (s : σ) (R : α → σ → Prop) : Prop :=
  Ensures x s fun r t => ∃ a, r = .ok a ∧ R a t

/-- What follows a handler that succeeds. -/
theorem Returns.bind {R : α → σ → Prop} (hx : Returns x s R)
    (hf : ∀ a t, R a t → Ensures (f a) t Q) : Ensures (x >>= f) s Q := by
  refine Ensures.bind hx ?_ ?_
  · rintro e t ⟨a, hok, -⟩
    cases hok
  · rintro a t ⟨b, hok, hr⟩
    cases hok
    exact hf a t hr

@[simp] theorem ensures_get_bind {g : σ → Handler σ ε β} :
    Ensures (get >>= g) s Q ↔ Ensures (g s) s Q := Iff.rfl

@[simp] theorem ensures_modify_bind {g : σ → σ} {k : Unit → Handler σ ε β} :
    Ensures (modify g >>= k) s Q ↔ Ensures (k ()) (g s) Q := Iff.rfl

end Rules

section Chains

variable {R : σ → σ → Prop} {x : Handler σ ε α} {f : α → Handler σ ε β} {s : σ}

/-- A transitive relation between the states before and behind is proved step by step. -/
theorem Ensures.chain [IsTrans σ R] (hx : Ensures x s fun _ t => R s t)
    (hf : ∀ a t, R s t → Ensures (f a) t fun _ u => R t u) : Ensures (x >>= f) s fun _ u => R s u :=
  hx.bind (fun _ _ h => h) fun a t h => (hf a t h).mono fun _ _ hu => IsTrans.trans _ _ _ h hu

/-- A reflexive and transitive relation that every handler of a list keeps is kept by the
sequence. -/
theorem Ensures.each [Std.Refl R] [IsTrans σ R] {g : α → Handler σ ε Unit} {items : List α}
    (hg : ∀ a ∈ items, ∀ t, R s t → Ensures (g a) t fun _ u => R t u) :
    Ensures (Handler.each g items) s fun _ t => R s t := by
  induction items generalizing s with
  | nil => exact Std.Refl.refl s
  | cons a rest ih =>
    refine Ensures.chain (hg a List.mem_cons_self s (Std.Refl.refl s)) fun _ t hst => ih ?_
    exact fun b hb u htu => hg b (List.mem_cons_of_mem a hb) u (IsTrans.trans _ _ _ hst htu)

end Chains

end Handler

end DEngine.Library
