import Liveness.Fault

/-!
# Computations that may end in a fault

What is proved of a computation is said of its result, and of the conditions under
which it may have none. A computation on a state is treated in the same way, and what
is said of the state afterwards is said in both cases, since what was done before a
fault stays done.
-/

namespace Liveness

variable {α β ι σ : Type}

/-- The fault is about a counterexample: one that is reported, or that could not be put
together. -/
def Fault.IsCounterexample : Fault → Prop
  | .error (.violated _) => True
  | .error (.reconstruction _) => True
  | _ => False

/-- If there is a result it satisfies `Q`; there may be none only if `E` holds. -/
def Outcome.Meets (r : Outcome α) (Q : α → Prop) (E : Prop) : Prop :=
  match r with
  | .ok a => Q a
  | .error _ => E

namespace Outcome

theorem Meets.of_eq {r : Outcome α} {Q : α → Prop} {E : Prop} (h : Meets r Q E) {a : α} (ha : r = .ok a) :
    Q a := by
  subst ha
  exact h

/-- A computation that may not fail has a result. -/
theorem Meets.exists_eq {r : Outcome α} {Q : α → Prop} {E : Prop} (h : Meets r Q E) (hE : ¬ E) :
    ∃ a, r = .ok a ∧ Q a := by
  cases r with
  | ok a => exact ⟨a, rfl, h⟩
  | error e => exact absurd h hE

theorem Meets.mono {r : Outcome α} {Q Q' : α → Prop} {E : Prop} (h : Meets r Q E) (hQ : ∀ a, Q a → Q' a) :
    Meets r Q' E := by
  cases r with
  | ok a => exact hQ a h
  | error e => exact h

theorem Meets.bind {r : Outcome α} {f : α → Outcome β} {Q : α → Prop} {Q' : β → Prop} {E : Prop}
    (h : Meets r Q E) (hf : ∀ a, Q a → Meets (f a) Q' E) : Meets (r >>= f) Q' E := by
  cases r with
  | ok a => exact hf a h
  | error e => exact h

/-- A loop over a list keeps what each of its steps keeps. -/
theorem meets_foldlM {f : β → ι → Outcome β} {E : Prop} {P : List ι → β → Prop}
    (hf : ∀ x xs b, P (x :: xs) b → Meets (f b x) (P xs) E) (xs : List ι) :
    ∀ b, P xs b → Meets (xs.foldlM f b) (P []) E := by
  induction xs with
  | nil => exact fun b h => h
  | cons x xs ih => exact fun b h => (hf x xs b h).bind ih

/-- A loop over a list that collects its results. -/
theorem meets_mapM {f : ι → Outcome β} {Q : β → Prop} {E : Prop} {xs : List ι} (hf : ∀ x ∈ xs, Meets (f x) Q E) :
    Meets (xs.mapM f) (fun ys => ∀ y ∈ ys, Q y) E := by
  induction xs with
  | nil => exact fun y hy => by cases hy
  | cons x xs ih =>
    rw [List.mapM_cons]
    refine (hf x (by simp)).bind fun y hy => ?_
    refine (ih fun z hz => hf z (by simp [hz])).bind fun ys hys => ?_
    intro z hz
    rcases List.mem_cons.mp hz with rfl | hz
    · exact hy
    · exact hys z hz

end Outcome

namespace Change

/-- From the state `s` on: a result satisfies `Q` together with the state after it, a fault
satisfies `E` together with the state it leaves. -/
def Meets (c : Change σ α) (s : σ) (Q : α → σ → Prop) (E : Fault → σ → Prop) : Prop :=
  match c s with
  | (.ok a, s') => Q a s'
  | (.error f, s') => E f s'

variable {c : Change σ α} {s : σ} {Q : α → σ → Prop} {E : Fault → σ → Prop}

theorem Meets.of_ok (h : Meets c s Q E) {a : α} {s' : σ} (hc : c s = (.ok a, s')) : Q a s' := by
  rw [Meets, hc] at h
  exact h

theorem Meets.of_error (h : Meets c s Q E) {f : Fault} {s' : σ} (hc : c s = (.error f, s')) : E f s' := by
  rw [Meets, hc] at h
  exact h

/-- A computation that may not fail has a result. -/
theorem Meets.exists_ok (h : Meets c s Q E) (hE : ∀ f s', ¬ E f s') : ∃ a s', c s = (.ok a, s') ∧ Q a s' := by
  unfold Meets at h
  rcases hc : c s with ⟨e | a, s'⟩
  · rw [hc] at h
    exact absurd h (hE e s')
  · rw [hc] at h
    exact ⟨a, s', rfl, h⟩

/-- Of any computation something is known that says nothing. -/
theorem meets_true (c : Change σ α) (s : σ) : Meets c s (fun _ _ => True) (fun _ _ => True) := by
  unfold Meets
  split <;> trivial

theorem eq_of_fst {r : Except Fault α × σ} {o : Outcome α} (h : r.1 = o) : r = (o, r.2) := Prod.ext h rfl

theorem eq_ok_of_toOption {r : Except Fault α × σ} {a : α} (h : r.1.toOption = some a) : r = (.ok a, r.2) := by
  rcases r with ⟨f | b, s⟩
  · cases h
  · rw [Option.some.inj h]

/-- What a result and a fault have in common is true of the state afterwards. -/
theorem Meets.state {P : σ → Prop} (h : Meets c s Q E) (hQ : ∀ a s', Q a s' → P s') (hE : ∀ f s', E f s' → P s') :
    P (c s).2 := by
  unfold Meets at h
  split at h
  · rename_i hc
    rw [hc]
    exact hQ _ _ h
  · rename_i hc
    rw [hc]
    exact hE _ _ h

theorem Meets.mono {Q' : α → σ → Prop} {E' : Fault → σ → Prop} (h : Meets c s Q E) (hQ : ∀ a s', Q a s' → Q' a s')
    (hE : ∀ f s', E f s' → E' f s') : Meets c s Q' E' := by
  unfold Meets at h ⊢
  split at h
  · exact hQ _ _ h
  · exact hE _ _ h

theorem Meets.imp {Q' : α → σ → Prop} (h : Meets c s Q E) (hQ : ∀ a s', Q a s' → Q' a s') : Meets c s Q' E :=
  h.mono hQ fun _ _ hf => hf

/-- What is known of a computation in two ways is known at once. -/
theorem Meets.and {Q' : α → σ → Prop} {E' : Fault → σ → Prop} (h : Meets c s Q E) (h' : Meets c s Q' E') :
    Meets c s (fun a s' => Q a s' ∧ Q' a s') (fun f s' => E f s' ∧ E' f s') := by
  unfold Meets at h h' ⊢
  rcases hc : c s with ⟨e | a, s'⟩
  · rw [hc] at h h'
    exact ⟨h, h'⟩
  · rw [hc] at h h'
    exact ⟨h, h'⟩

theorem bind_apply (c : Change σ α) (f : α → Change σ β) (s : σ) :
    (c >>= f) s = match c s with
      | (.ok a, s') => f a s'
      | (.error e, s') => (.error e, s') := by
  change (ExceptT.bindCont f (c s).1) (c s).2 = _
  rcases c s with ⟨_ | a, s'⟩ <;> rfl

theorem bind_of_error {f : α → Change σ β} {e : Fault} (h : (c s).1 = .error e) :
    (c >>= f) s = (.error e, (c s).2) := by
  rw [bind_apply, eq_of_fst h]

theorem get_bind_apply (f : σ → Change σ β) (s : σ) : ((get : Change σ σ) >>= f) s = f s s := rfl

theorem bind_eq_of_eq {c c' : Change σ α} {s : σ} (h : c s = c' s) (f : α → Change σ β) :
    (c >>= f) s = (c' >>= f) s := by
  rw [bind_apply, bind_apply, h]

/-- What follows starts from the state after the first part; a fault of the first part is
the fault of the whole. -/
theorem Meets.bind {f : α → Change σ β} {Q' : β → σ → Prop} (h : Meets c s Q E)
    (hf : ∀ a s', Q a s' → Meets (f a) s' Q' E) : Meets (c >>= f) s Q' E := by
  unfold Meets at h ⊢
  rw [bind_apply]
  rcases hc : c s with ⟨e | a, s'⟩
  · rw [hc] at h
    exact h
  · rw [hc] at h
    exact hf a s' h

/-- Two computations that start alike are the same if they go on alike from wherever the first
part leads. -/
theorem Meets.bind_eq {f g : α → Change σ β} (h : Meets c s Q E) (hfg : ∀ a s', Q a s' → f a s' = g a s') :
    (c >>= f) s = (c >>= g) s := by
  unfold Meets at h
  rw [bind_apply, bind_apply]
  rcases hc : c s with ⟨e | a, s'⟩
  · rfl
  · rw [hc] at h
    exact hfg a s' h

theorem Meets.pure {a : α} (h : Q a s) : Meets (Pure.pure a) s Q E := h

theorem Meets.throw {f : Fault} (h : E f s) : Meets (throw f : Change σ α) s Q E := h

/-- A computation that changes nothing leaves the state as it is. -/
theorem Meets.lift {r : Outcome α} (hok : ∀ a, r = .ok a → Q a s) (herror : ∀ f, r = .error f → E f s) :
    Meets (Outcome.lift r) s Q E := by
  cases r with
  | ok a => exact hok a rfl
  | error f => exact herror f rfl

theorem Meets.get {Q : σ → σ → Prop} (h : Q s s) : Meets (MonadState.get : Change σ σ) s Q E := h

theorem Meets.modify {f : σ → σ} {Q : Unit → σ → Prop} (h : Q () (f s)) : Meets (modify f : Change σ Unit) s Q E := h

/-- A loop over a list keeps what each of its steps keeps. -/
theorem meets_foldlM {f : β → ι → Change σ β} {P : List ι → β → σ → Prop}
    (hf : ∀ x xs b s, P (x :: xs) b s → Meets (f b x) s (P xs) E) (xs : List ι) :
    ∀ b s, P xs b s → Meets (xs.foldlM f b) s (P []) E := by
  induction xs with
  | nil => exact fun b s h => h
  | cons x xs ih =>
    intro b s h
    rw [List.foldlM_cons]
    exact (hf x xs b s h).bind ih

/-- A loop over a list whose steps all keep the same thing. -/
theorem meets_foldlM_mem {f : β → ι → Change σ β} {P : β → σ → Prop} {xs : List ι}
    (hf : ∀ x ∈ xs, ∀ b s, P b s → Meets (f b x) s P E) : ∀ b s, P b s → Meets (xs.foldlM f b) s P E := by
  induction xs with
  | nil => exact fun b s h => h
  | cons x xs ih =>
    intro b s h
    rw [List.foldlM_cons]
    exact (hf x (by simp) b s h).bind (ih fun y hy => hf y (by simp [hy]))

/-- Two loops without results are the same if their turns are, on all states that the turns keep. -/
theorem forM_eq {f g : ι → Change σ Unit} {P : σ → Prop} {xs : List ι}
    (hf : ∀ x ∈ xs, ∀ s, P s → f x s = g x s ∧ Meets (f x) s (fun _ => P) E) :
    ∀ s, P s → xs.forM f s = xs.forM g s := by
  induction xs with
  | nil => exact fun s _ => rfl
  | cons x xs ih =>
    intro s h
    obtain ⟨heq, hmeets⟩ := hf x (by simp) s h
    have hrest : (f x >>= fun _ => xs.forM f) s = (f x >>= fun _ => xs.forM g) s :=
      hmeets.bind_eq fun _ s' h' => ih (fun y hy => hf y (by simp [hy])) s' h'
    exact hrest.trans (bind_eq_of_eq heq _)

/-- A loop over a list that collects things and loses none: in the end there is all that its
turns have to bring. -/
theorem meets_foldlM_collect {κ : Type} {f : β → ι → Change σ β} (P : β → σ → Prop) (view : β → List κ)
    (brings : ι → κ → Prop) {xs : List ι}
    (hf : ∀ x ∈ xs, ∀ b s, P b s →
      Meets (f b x) s (fun b' s' => P b' s' ∧ view b ⊆ view b' ∧ ∀ l, brings x l → l ∈ view b') E) :
    ∀ b s, P b s → Meets (xs.foldlM f b) s
      (fun b' s' => P b' s' ∧ view b ⊆ view b' ∧ ∀ x ∈ xs, ∀ l, brings x l → l ∈ view b') E := by
  induction xs with
  | nil => exact fun b s h => ⟨h, List.Subset.refl _, fun x hx => by cases hx⟩
  | cons x xs ih =>
    intro b s h
    rw [List.foldlM_cons]
    refine (hf x (by simp) b s h).bind ?_
    rintro b₁ s₁ ⟨h₁, hsub₁, hx₁⟩
    refine (ih (fun y hy => hf y (by simp [hy])) b₁ s₁ h₁).mono ?_ fun _ _ he => he
    rintro b₂ s₂ ⟨h₂, hsub₂, hxs₂⟩
    refine ⟨h₂, fun l hl => hsub₂ (hsub₁ hl), fun y hy l hl => ?_⟩
    rcases List.mem_cons.mp hy with rfl | hy
    · exact hsub₂ (hx₁ l hl)
    · exact hxs₂ y hy l hl

/-! ### Two runs -/

/-- Two runs that end with the same result, in states that are related: unless the first one ends with
a fault in `E`, or the second one with a fault in `E'`. -/
def Alike (R : σ → σ → Prop) (E E' : Fault → Prop) (x x' : Except Fault α × σ) : Prop :=
  (∃ f, x.1 = .error f ∧ E f) ∨ (∃ f, x'.1 = .error f ∧ E' f) ∨ x.1 = x'.1 ∧ R x.2 x'.2

/-- Runs of the computation that start in related states are alike. -/
def Parallel (R : σ → σ → Prop) (E E' : Fault → Prop) (c : Change σ α) : Prop :=
  ∀ s s', R s s' → Alike R E E' (c s) (c s')

section

variable {R : σ → σ → Prop} {E E' : Fault → Prop}

theorem alike_of_eq {r : Except Fault α} {s s' : σ} (h : R s s') : Alike R E E' (r, s) (r, s') := .inr (.inr ⟨rfl, h⟩)

/-- Two runs stay alike if they go on alike from related states. -/
theorem Alike.bind {c c' : Change σ α} {f f' : α → Change σ β} {s s' : σ} (h : Alike R E E' (c s) (c' s'))
    (hf : ∀ a t t', R t t' → Alike R E E' (f a t) (f' a t')) : Alike R E E' ((c >>= f) s) ((c' >>= f') s') := by
  obtain ⟨g, hg, hE⟩ | ⟨g, hg, hE⟩ | ⟨hresult, hstate⟩ := h
  · exact .inl ⟨g, by rw [bind_of_error hg], hE⟩
  · exact .inr (.inl ⟨g, by rw [bind_of_error hg], hE⟩)
  rcases hc : c s with ⟨e | a, t⟩ <;> rw [hc] at hresult hstate
  · rw [bind_of_error hresult.symm, bind_apply, hc]
    exact alike_of_eq hstate
  · rw [bind_apply, bind_apply, hc, eq_of_fst hresult.symm]
    exact hf a t _ hstate

namespace Parallel

theorem pure (a : α) : Parallel R E E' (Pure.pure a) := fun _ _ h => alike_of_eq h

theorem throw (f : Fault) : Parallel R E E' (MonadExcept.throw f : Change σ α) := fun _ _ h => alike_of_eq h

theorem lift (r : Outcome α) : Parallel R E E' (Outcome.lift r) := fun _ _ h => alike_of_eq h

theorem of_modify {f : σ → σ} (hf : ∀ s s', R s s' → R (f s) (f s')) : Parallel R E E' (modify f : Change σ Unit) :=
  fun s s' h => alike_of_eq (hf s s' h)

theorem bind {c : Change σ α} {f : α → Change σ β} (hc : Parallel R E E' c) (hf : ∀ a, Parallel R E E' (f a)) :
    Parallel R E E' (c >>= f) :=
  fun s s' h => (hc s s' h).bind hf

theorem ite {p : Prop} [Decidable p] {c c' : Change σ α} (h : Parallel R E E' c) (h' : Parallel R E E' c') :
    Parallel R E E' (if p then c else c') := by
  split
  · exact h
  · exact h'

theorem foldlM {f : β → ι → Change σ β} (hf : ∀ b x, Parallel R E E' (f b x)) (xs : List ι) :
    ∀ b, Parallel R E E' (xs.foldlM f b) := by
  induction xs with
  | nil => exact fun b => pure b
  | cons x xs ih =>
    intro b
    rw [List.foldlM_cons]
    exact (hf b x).bind ih

theorem forM {f : ι → Change σ Unit} (hf : ∀ x, Parallel R E E' (f x)) (xs : List ι) :
    Parallel R E E' (xs.forM f) := by
  induction xs with
  | nil => exact pure ()
  | cons x xs ih => exact (hf x).bind fun _ => ih

end Parallel

end

end Change

end Liveness
