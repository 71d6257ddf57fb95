import Splice.Error
/-!
# Computations that follow one another

Most laws of this library compare two runs: of a loop and a recursion, of one tree in two scopes, of a tree and of what
a pass made of it, of an evaluation and of the same evaluation under observation.  `Run.Follows` is the one relation
that they are all stated with.  It relates the states of the two runs and their values, and says what the second run may
do where the first one stops: the same, or anything at all if the stop is among those that are given up (`slack`).

There is one lemma for each way to combine computations, so a comparison of two programs of one shape is a comparison of
their parts.
-/
namespace Splice.Run

variable {σ τ σ' τ' α β γ δ : Type} {slack : Halt → Prop} {R : σ → τ → Prop} {Q : α → β → Prop}

/-- **`y` follows `x`**: from related states, `y` has a value where `x` has one, and the two are related; where `x`
stops, `y` stops for the same reason, unless that reason is given up.  The states that they leave are related again. -/
def Follows (slack : Halt → Prop) (R : σ → τ → Prop) (Q : α → β → Prop) (x : Run σ α) (y : Run τ β) : Prop :=
  ∀ s t, R s t →
    match x s with
    | .ok a s' => ∃ b t', y t = .ok b t' ∧ Q a b ∧ R s' t'
    | .error h s' => slack h ∨ ∃ t', y t = .error h t' ∧ R s' t'

/-- No stop is given up. -/
def strictly : Halt → Prop := fun _ => False

/-- Only values count. -/
def onValues : Halt → Prop := fun _ => True

/-- The two values are one, with this property. -/
def Same (P : α → Prop) (a b : α) : Prop := a = b ∧ P a

/-- Both values are missing, or both are there and related. -/
def Given (Q : α → β → Prop) : Option α → Option β → Prop
  | none, none => True
  | some a, some b => Q a b
  | _, _ => False

def final (x : Run σ α) (s : σ) : σ :=
  match x s with
  | .ok _ s' => s'
  | .error _ s' => s'

/-! ## Outcomes -/

theorem outcome_eq_ok_iff {x : Run σ α} {s : σ} {a : α} : x.outcome s = .ok a ↔ ∃ s', x s = .ok a s' := by
  unfold outcome
  cases x s <;> simp

theorem outcome_eq_error_iff {x : Run σ α} {s : σ} {e : Halt} : x.outcome s = .error e ↔ ∃ s', x s = .error e s' := by
  unfold outcome
  cases x s <;> simp

theorem bind_of_ok {x : Run σ α} {f : α → Run σ β} {s s' : σ} {a : α} (h : x s = .ok a s') : (x >>= f) s = f a s' := by
  show EStateM.bind x f s = _
  unfold EStateM.bind
  rw [h]

theorem bind_of_error {x : Run σ α} {f : α → Run σ β} {s s' : σ} {e : Halt} (h : x s = .error e s') :
    (x >>= f) s = .error e s' := by
  show EStateM.bind x f s = _
  unfold EStateM.bind
  rw [h]

theorem bind_eq_ok_iff {x : Run σ α} {f : α → Run σ β} {s s'' : σ} {b : β} :
    (x >>= f) s = .ok b s'' ↔ ∃ a s', x s = .ok a s' ∧ f a s' = .ok b s'' := by
  constructor
  · intro h
    cases hx : x s with
    | ok a s' => exact ⟨a, s', rfl, (bind_of_ok hx).symm.trans h⟩
    | error e s' => exact nomatch (bind_of_error hx).symm.trans h
  · rintro ⟨a, s', hx, hf⟩
    exact (bind_of_ok hx).trans hf

theorem map_eq_ok_iff {x : Run σ α} {f : α → β} {s s' : σ} {b : β} :
    (f <$> x) s = .ok b s' ↔ ∃ a, x s = .ok a s' ∧ f a = b := by
  rw [← bind_pure_comp, bind_eq_ok_iff]
  constructor
  · rintro ⟨a, t, hx, hb⟩
    cases hb
    exact ⟨a, hx, rfl⟩
  · rintro ⟨a, hx, rfl⟩
    exact ⟨a, s', hx, rfl⟩

theorem outcome_map_eq_ok_iff {x : Run σ α} {f : α → β} {s : σ} {b : β} :
    (f <$> x).outcome s = .ok b ↔ ∃ a, x.outcome s = .ok a ∧ f a = b := by
  simp only [outcome_eq_ok_iff, map_eq_ok_iff]
  exact ⟨fun ⟨s', a, hx, hb⟩ => ⟨a, ⟨s', hx⟩, hb⟩, fun ⟨a, ⟨s', hx⟩, hb⟩ => ⟨s', a, hx, hb⟩⟩

theorem blaming_eq_ok_iff {x : Run σ α} {reword : Error → Error} {s s' : σ} {a : α} :
    x.blaming reword s = .ok a s' ↔ x s = .ok a s' := by
  unfold blaming
  split
  case h_1 hx => simp [hx]
  case h_2 => rfl

theorem inside_eq_ok_iff {enter : σ → τ} {leave : σ → τ → σ} {x : Run τ α} {s s' : σ} {a : α} :
    x.inside enter leave s = .ok a s' ↔ ∃ t, x (enter s) = .ok a t ∧ leave s t = s' := by
  unfold inside
  cases x (enter s) with
  | ok b t => simp [and_assoc]
  | error halt t => simp

theorem inside_eq_error_iff {enter : σ → τ} {leave : σ → τ → σ} {x : Run τ α} {s s' : σ} {e : Halt} :
    x.inside enter leave s = .error e s' ↔ ∃ t, x (enter s) = .error e t ∧ leave s t = s' := by
  unfold inside
  cases x (enter s) with
  | ok b t => simp
  | error halt t => simp [and_assoc]

theorem attempt_eq_ok_iff {r : Except Error α} {s s' : σ} {a : α} : attempt r s = .ok a s' ↔ r = .ok a ∧ s = s' := by
  cases r with
  | ok b =>
    show EStateM.Result.ok b s = .ok a s' ↔ _
    simp
  | error e =>
    show EStateM.Result.error (Halt.error e) s = .ok a s' ↔ _
    simp

theorem lift_eq_ok_iff {r : Except Halt α} {s s' : σ} {a : α} : lift r s = .ok a s' ↔ r = .ok a ∧ s = s' := by
  cases r with
  | ok b =>
    show EStateM.Result.ok b s = .ok a s' ↔ _
    simp
  | error halt =>
    show EStateM.Result.error halt s = .ok a s' ↔ _
    simp

theorem bind_congr_at {x y : Run σ α} {f : α → Run σ β} {s : σ} (h : x s = y s) : (x >>= f) s = (y >>= f) s := by
  cases hy : y s with
  | ok a s' => rw [bind_of_ok (h.trans hy), bind_of_ok hy]
  | error e s' => rw [bind_of_error (h.trans hy), bind_of_error hy]

/-- What follows a step may use what the step gave, to be the image of another continuation. -/
theorem bind_eq_map_bind {x : Run σ α} {f : α → Run σ γ} {f' : α → Run σ β} {g : β → γ} {s : σ}
    (h : ∀ a s', x s = .ok a s' → f a s' = (g <$> f' a) s') : (x >>= f) s = (g <$> (x >>= f')) s := by
  rw [map_bind]
  cases hx : x s with
  | ok a s' => rw [bind_of_ok hx, bind_of_ok hx, h a s' hx]
  | error e s' => rw [bind_of_error hx, bind_of_error hx]

/-! ## What a run that follows does -/

theorem Follows.of_ok {x : Run σ α} {y : Run τ β} (h : Follows slack R Q x y) {s s' : σ} {t : τ} {a : α} (hst : R s t)
    (hx : x s = .ok a s') : ∃ b t', y t = .ok b t' ∧ Q a b ∧ R s' t' := by
  have := h s t hst
  rwa [hx] at this

theorem Follows.of_error_of_not_slack {x : Run σ α} {y : Run τ β} (h : Follows slack R Q x y) {s s' : σ} {t : τ}
    {e : Halt} (hst : R s t) (hx : x s = .error e s') (he : ¬ slack e) : ∃ t', y t = .error e t' ∧ R s' t' := by
  have := h s t hst
  rw [hx] at this
  exact this.resolve_left he

theorem Follows.of_error {x : Run σ α} {y : Run τ β} (h : Follows strictly R Q x y) {s s' : σ} {t : τ} {e : Halt}
    (hst : R s t) (hx : x s = .error e s') : ∃ t', y t = .error e t' ∧ R s' t' :=
  h.of_error_of_not_slack hst hx id

theorem Follows.outcome_eq {x : Run σ α} {y : Run τ α} (h : Follows strictly R (· = ·) x y) {s : σ} {t : τ}
    (hst : R s t) : y.outcome t = x.outcome s := by
  unfold outcome
  cases hx : x s with
  | ok a s' =>
    obtain ⟨b, t', hy, rfl, -⟩ := h.of_ok hst hx
    simp only [hy]
  | error e s' =>
    obtain ⟨t', hy, -⟩ := h.of_error hst hx
    simp only [hy]

theorem Follows.exists_outcome_ok_iff {x : Run σ α} {y : Run τ β} (h : Follows strictly R Q x y) {s : σ} {t : τ}
    (hst : R s t) : (∃ a, x.outcome s = .ok a) ↔ ∃ b, y.outcome t = .ok b := by
  unfold outcome
  cases hx : x s with
  | ok a s' =>
    obtain ⟨b, t', hy, -⟩ := h.of_ok hst hx
    simp only [hy, Except.ok.injEq, exists_eq']
  | error e s' =>
    obtain ⟨t', hy, -⟩ := h.of_error hst hx
    simp only [hy, reduceCtorEq, exists_false]

theorem Follows.outcome_error_iff {x : Run σ α} {y : Run τ β} (h : Follows strictly R Q x y) {s : σ} {t : τ}
    (hst : R s t) {e : Halt} : x.outcome s = .error e ↔ y.outcome t = .error e := by
  unfold outcome
  cases hx : x s with
  | ok a s' =>
    obtain ⟨b, t', hy, -⟩ := h.of_ok hst hx
    simp only [hy, reduceCtorEq]
  | error e' s' =>
    obtain ⟨t', hy, -⟩ := h.of_error hst hx
    simp only [hy, Except.error.injEq]

theorem Follows.final {x : Run σ α} {y : Run τ β} (h : Follows strictly R Q x y) {s : σ} {t : τ} (hst : R s t) :
    R (x.final s) (y.final t) := by
  unfold Run.final
  cases hx : x s with
  | ok a s' =>
    obtain ⟨b, t', hy, -, hr⟩ := h.of_ok hst hx
    simpa only [hy] using hr
  | error e s' =>
    obtain ⟨t', hy, hr⟩ := h.of_error hst hx
    simpa only [hy] using hr

theorem final_inside (enter : σ → τ) (leave : σ → τ → σ) (x : Run τ α) (s : σ) :
    (x.inside enter leave).final s = leave s (x.final (enter s)) := by
  simp only [Run.final, inside]
  cases x (enter s) <;> rfl

/-- Two runs that follow each other on equal values from equal states are one computation. -/
theorem Follows.eq {x y : Run σ α} (h : Follows strictly (· = ·) (· = ·) x y) : x = y := by
  funext s
  cases hx : x s with
  | ok a s' =>
    obtain ⟨b, t', hy, rfl, rfl⟩ := h.of_ok rfl hx
    exact hy.symm
  | error e s' =>
    obtain ⟨t', hy, rfl⟩ := h.of_error rfl hx
    exact hy.symm

theorem bind_congr_of_follows {P : α → Prop} {x : Run σ α} (h : Follows onValues (· = ·) (Same P) x x)
    {f g : α → Run σ β} (hfg : ∀ a, P a → f a = g a) : x >>= f = x >>= g := by
  funext s
  cases hx : x s with
  | ok a s' =>
    obtain ⟨_, _, _, ⟨_, ha⟩, _⟩ := h.of_ok rfl hx
    rw [bind_of_ok hx, bind_of_ok hx, hfg a ha]
  | error e s' => rw [bind_of_error hx, bind_of_error hx]

/-! ## Weakening -/

theorem Follows.mono {Q' : α → β → Prop} {slack' : Halt → Prop} {x : Run σ α} {y : Run τ β} (h : Follows slack R Q x y)
    (hslack : ∀ e, slack e → slack' e) (hQ : ∀ a b, Q a b → Q' a b) : Follows slack' R Q' x y := by
  intro s t hst
  have := h s t hst
  split at this
  · obtain ⟨b, t', hy, hab, hr⟩ := this
    exact ⟨b, t', hy, hQ _ _ hab, hr⟩
  · exact this.imp_left (hslack _)

theorem Follows.weaken {Q' : α → β → Prop} {x : Run σ α} {y : Run τ β} (h : Follows slack R Q x y)
    (hQ : ∀ a b, Q a b → Q' a b) : Follows slack R Q' x y := h.mono (fun _ he => he) hQ

/-! ## One lemma for each combination -/

theorem follows_pure {a : α} {b : β} (h : Q a b) : Follows slack R Q (pure a) (pure b) :=
  fun _ t hst => ⟨b, t, rfl, h, hst⟩

theorem follows_throw (e : Halt) : Follows slack R Q (throw e : Run σ α) (throw e : Run τ β) :=
  fun _ t hst => .inr ⟨t, rfl, hst⟩

theorem follows_fail (e : Error) : Follows slack R Q (fail e : Run σ α) (fail e : Run τ β) := follows_throw (.error e)

theorem follows_of_slack {e : Halt} (h : slack e) (y : Run τ β) : Follows slack R Q (throw e : Run σ α) y :=
  fun _ _ _ => .inl h

theorem follows_attempt {P : α → Prop} {r : Except Error α} (h : ∀ a, r = .ok a → P a) :
    Follows slack R (Same P) (attempt r : Run σ α) (attempt r : Run τ α) := by
  cases r with
  | ok a => exact follows_pure ⟨rfl, h a rfl⟩
  | error e => exact follows_fail e

theorem follows_attemptOn {P : α → Prop} {x : EStateM Error σ α} (h : ∀ s a s', x s = .ok a s' → P a) :
    Follows slack (· = ·) (Same P) (attemptOn x) (attemptOn x) := by
  rintro s _ rfl
  unfold attemptOn
  cases hx : x s with
  | ok a s' => exact ⟨a, s', rfl, ⟨rfl, h s a s' hx⟩, rfl⟩
  | error e s' => exact .inr ⟨s', rfl, rfl⟩

theorem follows_bind {Q' : γ → δ → Prop} {x : Run σ α} {y : Run τ β} {f : α → Run σ γ} {g : β → Run τ δ}
    (hx : Follows slack R Q x y) (hf : ∀ a b, Q a b → Follows slack R Q' (f a) (g b)) :
    Follows slack R Q' (x >>= f) (y >>= g) := by
  intro s t hst
  have hxs := hx s t hst
  cases hx' : x s with
  | ok a s' =>
    rw [hx'] at hxs
    obtain ⟨b, t', hy, hab, hr⟩ := hxs
    rw [bind_of_ok hx', bind_of_ok hy]
    exact hf a b hab s' t' hr
  | error e s' =>
    rw [hx'] at hxs
    rw [bind_of_error hx']
    exact hxs.imp_right fun ⟨t', hy, hr⟩ => ⟨t', bind_of_error hy, hr⟩

theorem follows_map {Q' : γ → δ → Prop} {x : Run σ α} {y : Run τ β} {f : α → γ} {g : β → δ}
    (hx : Follows slack R Q x y) (hf : ∀ a b, Q a b → Q' (f a) (g b)) : Follows slack R Q' (f <$> x) (g <$> y) := by
  rw [← bind_pure_comp, ← bind_pure_comp]
  exact follows_bind hx fun a b hab => follows_pure (hf a b hab)

theorem follows_of_map {Q' : γ → β → Prop} {x : Run σ α} {y : Run τ β} {f : α → γ}
    (h : Follows slack R (fun a b => Q' (f a) b) x y) : Follows slack R Q' (f <$> x) y := by
  rw [← bind_pure_comp, ← bind_pure y]
  exact follows_bind h fun a b hab => follows_pure hab

theorem follows_inside {S : σ' → τ' → Prop} {enter : σ → σ'} {leave : σ → σ' → σ} {enter' : τ → τ'}
    {leave' : τ → τ' → τ} {x : Run σ' α} {y : Run τ' β} (henter : ∀ s t, R s t → S (enter s) (enter' t))
    (hleave : ∀ s t s' t', R s t → S s' t' → R (leave s s') (leave' t t')) (hx : Follows slack S Q x y) :
    Follows slack R Q (x.inside enter leave) (y.inside enter' leave') := by
  intro s t hst
  have hxs := hx _ _ (henter s t hst)
  unfold inside
  cases hx' : x (enter s) with
  | ok a s' =>
    rw [hx'] at hxs
    obtain ⟨b, t', hy, hab, hr⟩ := hxs
    exact ⟨b, leave' t t', by simp only [hy], hab, hleave s t s' t' hst hr⟩
  | error e s' =>
    rw [hx'] at hxs
    rcases hxs with he | ⟨t', hy, hr⟩
    · exact .inl he
    · exact .inr ⟨leave' t t', by simp only [hy], hleave s t s' t' hst hr⟩

theorem inside_id (y : Run τ β) : y.inside id (fun _ t => t) = y := by
  funext t
  cases ht : y t with
  | ok b t' => simp only [inside, id, ht]
  | error e t' => simp only [inside, id, ht]

/-- A part that runs on a piece of the state follows a run on that piece alone. -/
theorem follows_of_inside {S : σ' → τ → Prop} {enter : σ → σ'} {leave : σ → σ' → σ} {x : Run σ' α} {y : Run τ β}
    (henter : ∀ s t, R s t → S (enter s) t) (hleave : ∀ s t s' t', R s t → S s' t' → R (leave s s') t')
    (hx : Follows slack S Q x y) : Follows slack R Q (x.inside enter leave) y := by
  rw [← inside_id y]
  exact follows_inside henter hleave hx

/-- A first step that the other run does not take. -/
theorem follows_of_step {x : Run σ γ} {f : γ → Run σ α} {y : Run τ β}
    (hx : ∀ s t, R s t → ∃ c s', x s = .ok c s' ∧ R s' t) (h : ∀ c, Follows slack R Q (f c) y) :
    Follows slack R Q (x >>= f) y := by
  intro s t hst
  obtain ⟨c, s', hc, hr⟩ := hx s t hst
  rw [bind_of_ok hc]
  exact h c s' t hr

/-- First steps that the other run does not take, with what is known of their value. -/
theorem follows_of_pure {Q' : α → δ → Prop} {P : γ → β → Prop} {x : Run σ γ} {f : γ → Run σ α} {b : β} {y : Run τ δ}
    (hx : Follows slack R P x (pure b)) (h : ∀ c, P c b → Follows slack R Q' (f c) y) :
    Follows slack R Q' (x >>= f) y := by
  intro s t hst
  have hxs := hx s t hst
  cases hx' : x s with
  | ok c s' =>
    rw [hx'] at hxs
    obtain ⟨_, _, hb, hc, hr⟩ := hxs
    cases hb
    rw [bind_of_ok hx']
    exact h c hc s' t hr
  | error e s' =>
    rw [hx'] at hxs
    rw [bind_of_error hx']
    exact .inl (hxs.resolve_right fun ⟨_, hb, _⟩ => nomatch hb)

theorem follows_of_get {f : σ → Run σ α} {y : Run τ β} (h : ∀ s t, R s t → Follows slack R Q (f s) y) :
    Follows slack R Q (get >>= f) y :=
  fun s t hst => h s t hst s t hst

/-- A change that the other state does not see; what follows may need it. -/
theorem follows_of_modify {S : σ → τ → Prop} {change : σ → σ} {x : Run σ α} {y : Run τ β}
    (hchange : ∀ s t, R s t → S (change s) t) (hback : ∀ s t, S s t → R s t) (h : Follows slack S Q x y) :
    Follows slack R Q (modify change >>= fun _ => x) y := by
  intro s t hst
  have := h (change s) t (hchange s t hst)
  show match x (change s) with
    | .ok a s' => ∃ b t', y t = .ok b t' ∧ Q a b ∧ R s' t'
    | .error h s' => slack h ∨ ∃ t', y t = .error h t' ∧ R s' t'
  cases hx : x (change s) with
  | ok a s' =>
    rw [hx] at this
    obtain ⟨b, t', hy, hab, hr⟩ := this
    exact ⟨b, t', hy, hab, hback _ _ hr⟩
  | error e s' =>
    rw [hx] at this
    exact this.imp_right fun ⟨t', hy, hr⟩ => ⟨t', hy, hback _ _ hr⟩

theorem follows_refl (x : Run σ α) : Follows slack (· = ·) (· = ·) x x := by
  rintro s _ rfl
  cases hx : x s with
  | ok a s' => exact ⟨a, s', rfl, rfl, rfl⟩
  | error e s' => exact .inr ⟨s', rfl, rfl⟩

theorem follows_outcome (x : Run Unit α) : Follows onValues (· = ·) (Same fun a => x.outcome () = .ok a) x x := by
  rintro s _ rfl
  cases hx : x s with
  | ok a s' => exact ⟨a, s', rfl, ⟨rfl, outcome_eq_ok_iff.2 ⟨s', hx⟩⟩, rfl⟩
  | error e s' => exact .inl trivial

/-- What is known of the values of a run is known strictly: the run stops where it stops. -/
theorem Follows.self {P : α → Prop} {x : Run σ α} (h : Follows onValues (· = ·) (Same P) x x) :
    Follows strictly (· = ·) (Same P) x x := by
  rintro s _ rfl
  have hs := h s s rfl
  cases hx : x s with
  | ok a s' =>
    rw [hx] at hs
    exact hs
  | error e s' => exact .inr ⟨s', rfl, rfl⟩

theorem follows_ite {p : Prop} [Decidable p] {x x' : Run σ α} {y y' : Run τ β} (h : p → Follows slack R Q x y)
    (h' : ¬ p → Follows slack R Q x' y') : Follows slack R Q (if p then x else x') (if p then y else y') := by
  split
  · exact h ‹_›
  · exact h' ‹_›

/-! ## Computations that never stop -/

/-- From every state there is a value, and it is as stated. -/
def Gives (P : α → Prop) (x : Run σ α) : Prop := ∀ s, ∃ a s', x s = .ok a s' ∧ P a

theorem gives_pure {P : α → Prop} {a : α} (h : P a) : Gives P (pure a : Run σ α) := fun s => ⟨a, s, rfl, h⟩

theorem gives_bind {P : α → Prop} {P' : γ → Prop} {x : Run σ α} {f : α → Run σ γ} (hx : Gives P x)
    (hf : ∀ a, P a → Gives P' (f a)) : Gives P' (x >>= f) := by
  intro s
  obtain ⟨a, s', hxs, ha⟩ := hx s
  obtain ⟨c, s'', hfs, hc⟩ := hf a ha s'
  exact ⟨c, s'', (bind_of_ok hxs).trans hfs, hc⟩

end Splice.Run
