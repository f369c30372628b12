import Mathlib.Logic.Basic

/-!
# Programs that stop where they fail

A program over `EStateM` keeps the effects it had before it failed.  `Ensures P x Q E` says that
`x`, started where `P` holds, ends in a result and a state that satisfy `Q`, or fails in a state
that satisfies `E`; the rules below follow the way programs are built.
-/

namespace Effects

variable {ε σ α β : Type}

/-- The state a program leaves, whether it returns or fails. -/
def left : EStateM.Result ε σ α → σ
  | .ok _ s => s
  | .error _ s => s

def Ensures (P : σ → Prop) (x : EStateM ε σ α) (Q : α → σ → Prop) (E : σ → Prop) : Prop :=
  ∀ s, P s →
    match x s with
    | .ok a s' => Q a s'
    | .error _ s' => E s'

/-- Go on after an error that does not matter. -/
def forgive (x : EStateM ε σ PUnit) (pardon : ε → σ → Bool) : EStateM ε σ PUnit := fun s =>
  match x s with
  | .ok a s' => .ok a s'
  | .error e s' => if pardon e s' then .ok () s' else .error e s'

variable {P : σ → Prop} {Q : α → σ → Prop} {R : β → σ → Prop} {E : σ → Prop}
  {x : EStateM ε σ α} {f : α → EStateM ε σ β}

theorem bind_eq (s : σ) : (x >>= f) s = match x s with
      | .ok a s' => f a s'
      | .error e s' => .error e s' := by
  change EStateM.bind x f s = _
  unfold EStateM.bind
  cases x s <;> rfl

theorem bind_ok {a : α} {s s' : σ} (h : x s = .ok a s') : (x >>= f) s = f a s' := by
  rw [bind_eq, h]

theorem bind_error {e : ε} {s s' : σ} (h : x s = .error e s') : (x >>= f) s = .error e s' := by
  rw [bind_eq, h]

theorem get_bind (f : σ → EStateM ε σ β) (s : σ) : ((get : EStateM ε σ σ) >>= f) s = f s s := rfl

theorem Ensures.bind (hx : Ensures P x Q E) (hf : ∀ a, Ensures (Q a) (f a) R E) :
    Ensures P (x >>= f) R E := by
  intro s hs
  grind [bind_eq, Ensures]

theorem Ensures.pure {a : α} (h : ∀ s, P s → Q a s) :
    Ensures P (Pure.pure a : EStateM ε σ α) Q E := by
  intro s hs
  exact h s hs

theorem Ensures.get_bind {f : σ → EStateM ε σ β}
    (h : ∀ s, P s → Ensures (fun t => t = s) (f s) R E) :
    Ensures P ((get : EStateM ε σ σ) >>= f) R E := by
  intro s hs
  exact h s hs s rfl

theorem Ensures.ite {c : Prop} [Decidable c] {y : EStateM ε σ α} (hx : c → Ensures P x Q E)
    (hy : ¬c → Ensures P y Q E) : Ensures P (if c then x else y) Q E := by
  split
  · next h => exact hx h
  · next h => exact hy h

theorem Ensures.throw {e : ε} (h : ∀ s, P s → E s) :
    Ensures P (MonadExcept.throw e : EStateM ε σ α) Q E := by
  intro s hs
  exact h s hs

theorem Ensures.mono {P' E' : σ → Prop} {Q' : α → σ → Prop} (h : Ensures P x Q E)
    (hP : ∀ s, P' s → P s) (hQ : ∀ a s, Q a s → Q' a s) (hE : ∀ s, E s → E' s) :
    Ensures P' x Q' E' := by
  intro s hs
  grind [Ensures]

/-- Consequence for the precondition alone; `post` and `fails` are the other two. -/
theorem Ensures.pre {P' : σ → Prop} (h : Ensures P x Q E) (hP : ∀ s, P' s → P s) :
    Ensures P' x Q E :=
  h.mono hP (fun _ _ h => h) fun _ h => h

theorem Ensures.post {Q' : α → σ → Prop} (h : Ensures P x Q E) (hQ : ∀ a s, Q a s → Q' a s) :
    Ensures P x Q' E :=
  h.mono (fun _ h => h) hQ fun _ h => h

theorem Ensures.fails {E' : σ → Prop} (h : Ensures P x Q E) (hE : ∀ s, E s → E' s) :
    Ensures P x Q E' :=
  h.mono (fun _ h => h) (fun _ _ h => h) hE

theorem Ensures.forgive {x : EStateM ε σ PUnit} {pardon : ε → σ → Bool} {Q : PUnit → σ → Prop}
    (hok : ∀ s a s', P s → x s = .ok a s' → Q a s')
    (hpardon : ∀ s e s', P s → x s = .error e s' → pardon e s' = true → Q () s')
    (herror : ∀ s e s', P s → x s = .error e s' → E s') :
    Ensures P (Effects.forgive x pardon) Q E := by
  grind [Effects.forgive, Ensures]

theorem Ensures.ok_of {a : α} {s s' : σ} (h : Ensures P x Q E) (hs : P s) (hx : x s = .ok a s') :
    Q a s' := by
  have hresult := h s hs
  rw [hx] at hresult
  exact hresult

/-- A loop keeps what each round keeps. -/
theorem Ensures.foldlM {step : β → α → EStateM ε σ β} {I : β → σ → Prop}
    (hstep : ∀ b a, Ensures (I b) (step b a) I E) (l : List α) (b : β) :
    Ensures (I b) (l.foldlM step b) I E := by
  induction l generalizing b with
  | nil => exact .pure fun s hs => hs
  | cons a l ih =>
    rw [List.foldlM_cons]
    exact (hstep b a).bind ih

/-- A loop whose invariant speaks of the elements it has read. -/
theorem Ensures.foldlM_along {step : β → α → EStateM ε σ β} {I : List α → β → σ → Prop}
    {l : List α} (hstep : ∀ done a rest b, l = done ++ a :: rest →
      Ensures (I done b) (step b a) (I (done ++ [a])) E) (b : β) :
    Ensures (I [] b) (l.foldlM step b) (I l) E := by
  suffices hrest : ∀ rest done b, l = done ++ rest →
      Ensures (I done b) (rest.foldlM step b) (I l) E from hrest l [] b rfl
  intro rest
  induction rest with
  | nil =>
    intro done b hl
    obtain rfl : l = done := by simpa using hl
    exact .pure fun s hs => hs
  | cons a rest ih =>
    intro done b hl
    rw [List.foldlM_cons]
    exact (hstep done a rest b hl).bind fun b' => ih (done ++ [a]) b' (by simpa using hl)

theorem Ensures.forM {step : α → EStateM ε σ PUnit} {I : σ → Prop} {l : List α}
    (hstep : ∀ a ∈ l, Ensures I (step a) (fun _ => I) E) :
    Ensures I (l.forM step) (fun _ => I) E := by
  induction l with
  | nil => exact .pure fun s hs => hs
  | cons a l ih =>
    rw [List.forM_eq_forM, List.forM_cons]
    exact (hstep a List.mem_cons_self).bind fun _ => ih fun x hx =>
      hstep x (List.mem_cons_of_mem _ hx)

theorem Ensures.left_of {Q' : σ → Prop} (h : Ensures P x (fun _ => Q') Q') {s : σ} (hs : P s) :
    Q' (left (x s)) := by
  have hx := h s hs
  cases hxs : x s with
  | ok a s' | error e s' =>
    rw [hxs] at hx
    exact hx

end Effects
