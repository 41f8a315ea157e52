import Mathlib.Data.List.Forall2

/-!
# Programs that keep their state when they fail

Rules for programs of `EStateM`.  A successful run of a sequence is a successful run of each of
its parts.  One program simulates another if it succeeds with the same value wherever the other
does, and a program is memoized if it need not do anything when it has run before.
-/

namespace FailingPrograms

variable {ε σ α β : Type}

theorem bind_eq_ok {x : EStateM ε σ α} {f : α → EStateM ε σ β} {s t : σ} {b : β} :
    (x >>= f) s = .ok b t ↔ ∃ a u, x s = .ok a u ∧ f a u = .ok b t := by
  change EStateM.bind x f s = .ok b t ↔ _
  cases run : x s with
  | ok a u => simp [EStateM.bind, run]
  | error e u => simp [EStateM.bind, run]

theorem pure_eq_ok {a b : α} {s t : σ} :
    (pure a : EStateM ε σ α) s = .ok b t ↔ a = b ∧ s = t := by
  change EStateM.Result.ok a s = .ok b t ↔ _
  rw [EStateM.Result.ok.injEq]

theorem bind_run {x : EStateM ε σ α} {f : α → EStateM ε σ β} {s t : σ} {a : α}
    (run : x s = .ok a t) : (x >>= f) s = f a t := by
  change EStateM.bind x f s = _
  rw [EStateM.bind, run]

theorem get_run (s : σ) : (get : EStateM ε σ σ) s = .ok s s :=
  rfl

theorem not_throw_eq_ok {e : ε} {s t : σ} {a : α} : (throw e : EStateM ε σ α) s ≠ .ok a t := by
  rintro ⟨⟩

theorem liftExcept_eq_ok {result : Except ε α} {s t : σ} {a : α} :
    (liftExcept result : EStateM ε σ α) s = .ok a t ↔ result = .ok a ∧ s = t := by
  cases result with
  | ok value =>
      rw [Except.ok.injEq]
      exact pure_eq_ok
  | error e => exact ⟨fun run => absurd run not_throw_eq_ok, fun both => nomatch both.1⟩

/-! ## Parts of programs -/

/-- A program whose failure is no failure, although what it has done stays. -/
def attempt (x : EStateM ε σ α) : EStateM ε σ (Option α) := fun s =>
  match x s with
  | .ok a t => .ok (some a) t
  | .error _ t => .ok none t

/-- A program that fails in another way. -/
def failingWith (e : ε) (x : EStateM ε σ α) : EStateM ε σ α := fun s =>
  match x s with
  | .ok a t => .ok a t
  | .error _ t => .error e t

/-- A program that works on a part of the state. -/
def focus {τ : Type} (part : σ → τ) (store : τ → σ → σ) (x : EStateM ε τ α) : EStateM ε σ α :=
  fun s =>
    match x (part s) with
    | .ok a t => .ok a (store t s)
    | .error e t => .error e (store t s)

theorem failingWith_eq_ok {e : ε} {x : EStateM ε σ α} {s t : σ} {a : α} :
    failingWith e x s = .ok a t ↔ x s = .ok a t := by
  cases run : x s with
  | ok b u => simp only [failingWith, run]
  | error d u => simp only [failingWith, run, reduceCtorEq]

theorem focus_eq_ok {τ : Type} {part : σ → τ} {store : τ → σ → σ} {x : EStateM ε τ α} {s t : σ}
    {a : α} : focus part store x s = .ok a t ↔ ∃ u, x (part s) = .ok a u ∧ t = store u s := by
  cases run : x (part s) with
  | ok b u =>
      simp only [focus, run, EStateM.Result.ok.injEq]
      constructor
      · rintro ⟨rfl, rfl⟩
        exact ⟨u, ⟨rfl, rfl⟩, rfl⟩
      · rintro ⟨v, ⟨rfl, rfl⟩, rfl⟩
        exact ⟨rfl, rfl⟩
  | error d u => simp only [focus, run, reduceCtorEq, false_and, exists_false]

/-! ## Loops -/

theorem forM_cons_eq_ok {body : α → EStateM ε σ Unit} {item : α} {items : List α} {s t : σ} :
    (item :: items).forM body s = .ok () t ↔
      ∃ u, body item s = .ok () u ∧ items.forM body u = .ok () t := by
  constructor
  · intro run
    obtain ⟨⟨⟩, u, first, rest⟩ := bind_eq_ok.mp run
    exact ⟨u, first, rest⟩
  · rintro ⟨u, first, rest⟩
    exact bind_eq_ok.mpr ⟨(), u, first, rest⟩

/-- What holds of the items that are done holds of all of them in the end. -/
theorem forM_keeps {body : α → EStateM ε σ Unit} {holds : List α → σ → Prop}
    (step : ∀ done item s t, holds done s → body item s = .ok () t → holds (done ++ [item]) t)
    {items done : List α} {s t : σ} (start : holds done s)
    (run : items.forM body s = .ok () t) : holds (done ++ items) t := by
  induction items generalizing done s with
  | nil =>
      obtain ⟨-, rfl⟩ := pure_eq_ok.mp run
      rw [List.append_nil]
      exact start
  | cons item items ih =>
      obtain ⟨u, first, rest⟩ := forM_cons_eq_ok.mp run
      rw [List.append_cons]
      exact ih (step done item s u start first) rest

/-- Items that are passed over need not be there. -/
theorem forM_skip (skip : α → Bool) (body : α → EStateM ε σ Unit) (items : List α) :
    (items.forM fun item => if skip item then pure () else body item) =
      (items.filter fun item => !skip item).forM body := by
  induction items with
  | nil => rfl
  | cons item items ih =>
      rw [List.filter_cons]
      change ((if skip item then pure () else body item) >>= fun _ => _) = _
      rw [ih]
      cases skip item with
      | true => rfl
      | false => rfl

/-- What holds of the items that are done and of their values holds of all of them in the end. -/
theorem mapM_keeps {body : α → EStateM ε σ β} {holds : List α → List β → σ → Prop}
    {items : List α}
    (step : ∀ done item later values value s t, items = done ++ item :: later →
      holds done values s → body item s = .ok value t →
      holds (done ++ [item]) (values ++ [value]) t)
    {s t : σ} {values : List β} (start : holds [] [] s)
    (run : items.mapM body s = .ok values t) : holds items values t := by
  have general : ∀ (later done : List α) (values values' : List β) (s : σ),
      items = done ++ later → holds done values s → later.mapM body s = .ok values' t →
      holds items (values ++ values') t := by
    intro later
    induction later with
    | nil =>
        intro done values values' s split start run
        rw [List.mapM_nil] at run
        obtain ⟨rfl, rfl⟩ := pure_eq_ok.mp run
        rw [List.append_nil] at split ⊢
        exact split ▸ start
    | cons item later ih =>
        intro done values values' s split start run
        rw [List.mapM_cons] at run
        obtain ⟨value, u, first, run⟩ := bind_eq_ok.mp run
        obtain ⟨others, u', rest, run⟩ := bind_eq_ok.mp run
        obtain ⟨rfl, rfl⟩ := pure_eq_ok.mp run
        rw [List.append_cons]
        exact ih (done ++ [item]) (values ++ [value]) others u (by rw [split, List.append_cons])
          (step done item later values value s u split start first) rest
  exact general items [] [] values s rfl start run

/-! ## Simulation -/

/-- Where the first program succeeds, the second one does with the same value, and the states
stay related. -/
def Simulates (related : σ → σ → Prop) (x y : EStateM ε σ α) : Prop :=
  ∀ s s', related s s' → ∀ a t, x s = .ok a t → ∃ t', y s' = .ok a t' ∧ related t t'

namespace Simulates

variable {related : σ → σ → Prop}

theorem pure (a : α) : Simulates related (pure a : EStateM ε σ α) (pure a) := by
  intro s s' start b t run
  obtain ⟨rfl, rfl⟩ := pure_eq_ok.mp run
  exact ⟨s', rfl, start⟩

theorem throw (e : ε) (y : EStateM ε σ α) : Simulates related (throw e) y :=
  fun _ _ _ _ _ run => absurd run not_throw_eq_ok

/-- The rest needs to be simulated for values of the first part only. -/
theorem bind_of {x y : EStateM ε σ α} {f g : α → EStateM ε σ β} {value : α → Prop}
    (first : Simulates related x y)
    (values : ∀ s s' a t, related s s' → x s = .ok a t → value a)
    (next : ∀ a, value a → Simulates related (f a) (g a)) :
    Simulates related (x >>= f) (y >>= g) := by
  intro s s' start b t run
  obtain ⟨a, u, firstRun, nextRun⟩ := bind_eq_ok.mp run
  obtain ⟨u', firstRun', between⟩ := first s s' start a u firstRun
  obtain ⟨t', nextRun', finish⟩ := next a (values s s' a u start firstRun) u u' between b t nextRun
  exact ⟨t', bind_eq_ok.mpr ⟨a, u', firstRun', nextRun'⟩, finish⟩

theorem bind {x y : EStateM ε σ α} {f g : α → EStateM ε σ β} (first : Simulates related x y)
    (next : ∀ a, Simulates related (f a) (g a)) : Simulates related (x >>= f) (y >>= g) :=
  first.bind_of (fun _ _ _ _ _ _ => trivial) fun a _ => next a

theorem modify {f g : σ → σ} (keeps : ∀ s s', related s s' → related (f s) (g s')) :
    Simulates related (modify f : EStateM ε σ Unit) (modify g) := by
  intro s s' start a t run
  obtain ⟨⟨⟩, rfl⟩ : () = a ∧ f s = t := pure_eq_ok.mp run
  exact ⟨g s', rfl, keeps s s' start⟩

theorem liftExcept (result : Except ε α) :
    Simulates related (liftExcept result : EStateM ε σ α) (liftExcept result) := by
  intro s s' start a t run
  obtain ⟨rfl, rfl⟩ := liftExcept_eq_ok.mp run
  exact ⟨s', rfl, start⟩

/-- A program that goes on with what it finds in the state. -/
theorem get_bind {f g : σ → EStateM ε σ α}
    (next : ∀ s s', related s s' → ∀ a t, f s s = .ok a t →
      ∃ t', g s' s' = .ok a t' ∧ related t t') :
    Simulates related (get >>= f) (get >>= g) :=
  next

theorem forM {body body' : α → EStateM ε σ Unit} (items : List α)
    (each : ∀ item, Simulates related (body item) (body' item)) :
    Simulates related (items.forM body) (items.forM body') := by
  induction items with
  | nil => exact Simulates.pure ()
  | cons item items ih => exact (each item).bind fun _ => ih

theorem mapM {body body' : α → EStateM ε σ β} (items : List α)
    (each : ∀ item, Simulates related (body item) (body' item)) :
    Simulates related (items.mapM body) (items.mapM body') := by
  induction items with
  | nil => exact Simulates.pure []
  | cons item items ih =>
      rw [List.mapM_cons, List.mapM_cons]
      exact (each item).bind fun _ => ih.bind fun _ => Simulates.pure _

end Simulates

/-! ## Memoized programs -/

/-- The value that is found in the state, or else is computed. -/
def cached (slot : σ → Option α) (compute : EStateM ε σ α) : EStateM ε σ α := fun s =>
  match slot s with
  | some value => .ok value s
  | none => compute s

theorem cached_of_some {slot : σ → Option α} {s : σ} {a : α} (found : slot s = some a)
    (compute : EStateM ε σ α) : cached slot compute s = .ok a s := by
  simp only [cached, found]

theorem cached_of_none {slot : σ → Option α} {s : σ} (missing : slot s = none)
    (compute : EStateM ε σ α) : cached slot compute s = compute s := by
  simp only [cached, missing]

/-- A run that finds nothing computes the value. -/
theorem cached_run {slot : σ → Option α} {compute : EStateM ε σ α} {s t : σ} {a : α}
    (run : cached slot compute s = .ok a t) (missing : slot s = none) : compute s = .ok a t := by
  rw [cached_of_none missing] at run
  exact run

theorem Simulates.cached {related : σ → σ → Prop} {slot : σ → Option α}
    (same : ∀ s s', related s s' → slot s = slot s') {compute compute' : EStateM ε σ α}
    (computes : Simulates related compute compute') :
    Simulates related (cached slot compute) (cached slot compute') := by
  intro s s' start a t run
  cases found : slot s with
  | none =>
      rw [cached_of_none found] at run
      rw [cached_of_none ((same s s' start).symm.trans found)]
      exact computes s s' start a t run
  | some value =>
      rw [cached_of_some found] at run
      cases run
      exact ⟨s', cached_of_some ((same s s' start).symm.trans found) _, start⟩

/-- A run only adds to the state, and where all of that is found, the program gives the same value
and changes nothing. -/
def Memoized (le : σ → σ → Prop) (x : EStateM ε σ α) : Prop :=
  ∀ s a t, x s = .ok a t → le s t ∧ ∀ s', le t s' → x s' = .ok a s'

namespace Memoized

variable {le : σ → σ → Prop}

theorem pure (refl : ∀ s, le s s) (a : α) : Memoized le (pure a : EStateM ε σ α) := by
  intro s b t run
  obtain ⟨rfl, rfl⟩ := pure_eq_ok.mp run
  exact ⟨refl s, fun s' _ => rfl⟩

theorem throw (e : ε) : Memoized le (throw e : EStateM ε σ α) :=
  fun _ _ _ run => absurd run not_throw_eq_ok

theorem bind (trans : ∀ s t u, le s t → le t u → le s u) {x : EStateM ε σ α}
    {f : α → EStateM ε σ β} (first : Memoized le x) (next : ∀ a, Memoized le (f a)) :
    Memoized le (x >>= f) := by
  intro s b t run
  obtain ⟨a, u, firstRun, nextRun⟩ := bind_eq_ok.mp run
  obtain ⟨firstLe, firstAgain⟩ := first s a u firstRun
  obtain ⟨nextLe, nextAgain⟩ := next a u b t nextRun
  refine ⟨trans s u t firstLe nextLe, fun s' later => ?_⟩
  exact bind_eq_ok.mpr ⟨a, s', firstAgain s' (trans u t s' nextLe later), nextAgain s' later⟩

theorem liftExcept (refl : ∀ s, le s s) (result : Except ε α) :
    Memoized le (liftExcept result : EStateM ε σ α) := by
  intro s a t run
  obtain ⟨rfl, rfl⟩ := liftExcept_eq_ok.mp run
  exact ⟨refl s, fun s' _ => rfl⟩

/-- A program that leaves its value in the state, where it stays. -/
theorem cached (refl : ∀ s, le s s) {slot : σ → Option α}
    (stays : ∀ s t a, le s t → slot s = some a → slot t = some a) {compute : EStateM ε σ α}
    (computes : ∀ s a t, slot s = none → cached slot compute s = .ok a t →
      le s t ∧ slot t = some a) :
    Memoized le (cached slot compute) := by
  intro s a t run
  cases found : slot s with
  | none =>
      obtain ⟨grows, stored⟩ := computes s a t found run
      exact ⟨grows, fun s' later => cached_of_some (stays t s' a later stored) compute⟩
  | some value =>
      rw [cached_of_some found] at run
      cases run
      exact ⟨refl s, fun s' later => cached_of_some (stays s s' _ later found) compute⟩

theorem mapM (refl : ∀ s, le s s) (trans : ∀ s t u, le s t → le t u → le s u)
    {body : α → EStateM ε σ β} (items : List α) (each : ∀ item, Memoized le (body item)) :
    Memoized le (items.mapM body) := by
  induction items with
  | nil => exact Memoized.pure refl []
  | cons item items ih =>
      rw [List.mapM_cons]
      exact (each item).bind trans fun _ => ih.bind trans fun _ => Memoized.pure refl _

end Memoized

end FailingPrograms
