import Flatword.Lower.Statement

/-!
# Runs of lowering steps

`outcome m r s` is what a step makes of a state, and `Gives m r s a t` says that it succeeds. The
lemmas below turn the run of a composed step into the runs of its parts, so that no later proof
opens the monad.
-/

namespace Flatword

section Runs

variable {ρ ε σ α β : Type}

/-- What a step that reads `r` makes of the state `s`. -/
def outcome (m : ReaderT ρ (ExceptT ε (StateM σ)) α) (r : ρ) (s : σ) : Except ε α × σ :=
  ((m.run r).run).run s

/-- A step that reads `r` leads from the state `s` to the state `t` and gives `a`. -/
def Gives (m : ReaderT ρ (ExceptT ε (StateM σ)) α) (r : ρ) (s : σ) (a : α) (t : σ) : Prop :=
  outcome m r s = (.ok a, t)

variable {m m' : ReaderT ρ (ExceptT ε (StateM σ)) α} {r : ρ} {s t u : σ} {a : α}

/-! ## Outcomes -/

@[simp]
theorem outcome_pure (a : α) :
    outcome (pure a : ReaderT ρ (ExceptT ε (StateM σ)) α) r s = (.ok a, s) := rfl

@[simp]
theorem outcome_get : outcome (get : ReaderT ρ (ExceptT ε (StateM σ)) σ) r s = (.ok s, s) := rfl

@[simp]
theorem outcome_set (t : σ) :
    outcome (set t : ReaderT ρ (ExceptT ε (StateM σ)) PUnit) r s = (.ok ⟨⟩, t) := rfl

@[simp]
theorem outcome_modify (g : σ → σ) :
    outcome (modify g : ReaderT ρ (ExceptT ε (StateM σ)) PUnit) r s = (.ok ⟨⟩, g s) := rfl

@[simp]
theorem outcome_read : outcome (read : ReaderT ρ (ExceptT ε (StateM σ)) ρ) r s = (.ok r, s) := rfl

@[simp]
theorem outcome_throw (e : ε) :
    outcome (throw e : ReaderT ρ (ExceptT ε (StateM σ)) α) r s = (.error e, s) := rfl

@[simp]
theorem outcome_withReader (g : ρ → ρ) : outcome (withReader g m) r s = outcome m (g r) s := rfl

theorem outcome_bind (k : α → ReaderT ρ (ExceptT ε (StateM σ)) β) :
    outcome (m >>= k) r s =
      match outcome m r s with
      | (.ok a, u) => outcome (k a) r u
      | (.error e, u) => (.error e, u) := by
  simp only [outcome, ReaderT.run_bind, ExceptT.run_bind, StateT.run_bind]
  rcases ((m.run r).run).run s with ⟨_ | a, u⟩ <;> rfl

/-! ## Successful runs -/

theorem Gives.unique {b : α} (h : Gives m r s a t) (h' : Gives m r s b u) : a = b ∧ t = u := by
  unfold Gives at h h'
  rw [h] at h'
  simpa using h'

@[simp]
theorem gives_pure {b : α} :
    Gives (pure b : ReaderT ρ (ExceptT ε (StateM σ)) α) r s a t ↔ b = a ∧ s = t := by
  simp [Gives]

@[simp]
theorem gives_bind {k : α → ReaderT ρ (ExceptT ε (StateM σ)) β} {b : β} :
    Gives (m >>= k) r s b t ↔ ∃ a u, Gives m r s a u ∧ Gives (k a) r u b t := by
  unfold Gives
  rw [outcome_bind]
  rcases outcome m r s with ⟨_ | a, u⟩ <;> simp [and_assoc]

@[simp]
theorem gives_map {g : α → β} {b : β} :
    Gives (g <$> m) r s b t ↔ ∃ a, Gives m r s a t ∧ g a = b := by
  rw [← bind_pure_comp]
  simp only [gives_bind, gives_pure]
  constructor
  · rintro ⟨a, u, hm, rfl, rfl⟩
    exact ⟨a, hm, rfl⟩
  · rintro ⟨a, hm, rfl⟩
    exact ⟨a, t, hm, rfl, rfl⟩

@[simp]
theorem gives_get :
    Gives (get : ReaderT ρ (ExceptT ε (StateM σ)) σ) r s t u ↔ s = t ∧ s = u := by
  simp [Gives]

@[simp]
theorem gives_set {v : σ} {x : PUnit} :
    Gives (set v : ReaderT ρ (ExceptT ε (StateM σ)) PUnit) r s x t ↔ v = t := by
  simp [Gives]

@[simp]
theorem gives_modify {g : σ → σ} {x : PUnit} :
    Gives (modify g : ReaderT ρ (ExceptT ε (StateM σ)) PUnit) r s x t ↔ g s = t := by
  simp [Gives]

@[simp]
theorem gives_read {q : ρ} :
    Gives (read : ReaderT ρ (ExceptT ε (StateM σ)) ρ) r s q t ↔ r = q ∧ s = t := by
  simp [Gives]

@[simp]
theorem gives_throw {e : ε} :
    ¬ Gives (throw e : ReaderT ρ (ExceptT ε (StateM σ)) α) r s a t := by
  simp [Gives]

@[simp]
theorem gives_withReader {g : ρ → ρ} :
    Gives (withReader g m) r s a t ↔ Gives m (g r) s a t :=
  Iff.rfl

theorem gives_get_bind {k : σ → ReaderT ρ (ExceptT ε (StateM σ)) β} {b : β} :
    Gives (get >>= k) r s b t ↔ Gives (k s) r s b t :=
  Iff.rfl

theorem gives_read_bind {k : ρ → ReaderT ρ (ExceptT ε (StateM σ)) β} {b : β} :
    Gives (read >>= k) r s b t ↔ Gives (k r) r s b t :=
  Iff.rfl

theorem gives_ite {c : Prop} [Decidable c] :
    Gives (if c then m else m') r s a t ↔ c ∧ Gives m r s a t ∨ ¬ c ∧ Gives m' r s a t := by
  by_cases h : c <;> simp [h]

theorem eq_ok_of_toOption {x : Except ε α} (h : x.toOption = some a) : x = .ok a := by
  cases x with
  | error e => simp [Except.toOption] at h
  | ok b => simpa [Except.toOption] using h

theorem gives_of_toOption (h : (outcome m r s).1.toOption = some a) : Gives m r s a (outcome m r s).2 :=
  Prod.ext (eq_ok_of_toOption h) rfl

end Runs

namespace Lower

variable {cause : Cause} {x : Unit} {α : Type} {f : Frame} {s t : Scope} {a : α}

@[simp]
theorem outcome_fail (cause : Cause) :
    outcome (fail cause : Lower α) f s = (.error (.atLine f.line cause), s) := rfl

@[simp]
theorem gives_fail : ¬ Gives (fail cause : Lower α) f s a t := by
  simp [Gives]

@[simp]
theorem gives_orFail {o : Option α} : Gives (orFail o cause) f s a t ↔ o = some a ∧ s = t := by
  cases o <;> simp [orFail]

@[simp]
theorem gives_modifySession {g : Session → Session} :
    Gives (modifySession g) f s x t ↔ { s with session := g s.session } = t := by
  simp [modifySession]

@[simp]
theorem gives_onSide {b : Bool} {m : Lower α} :
    Gives (onSide b m) f s a t ↔ Gives m { f with leftSide := b } s a t := by
  simp [onSide]

theorem gives_takePost {code : Code} :
    Gives takePost f s code t ↔ code = s.post ∧ t = { s with post := [] } := by
  simp only [takePost, gives_bind, gives_get, gives_set, gives_pure]
  constructor
  · rintro ⟨_, _, ⟨rfl, rfl⟩, _, _, rfl, rfl, rfl⟩
    exact ⟨rfl, rfl⟩
  · rintro ⟨rfl, rfl⟩
    exact ⟨s, s, ⟨rfl, rfl⟩, (), _, rfl, rfl, rfl⟩

theorem gives_checkUsed {e : Expr} {value : Slot} (h : Gives (checkUsed e value) f s x t) : t = s := by
  unfold checkUsed at h
  split at h
  · simp at h
  · exact (gives_pure.mp h).2.symm

theorem releaseOperand_pool {slot : Slot} (h : Gives (releaseOperand slot) f s x t) :
    ∃ pool, t = { s with pool } := by
  simp only [releaseOperand, Lower.release, gives_bind, gives_modify] at h
  obtain ⟨_, _, rfl, h⟩ := h
  split at h
  · exact ⟨_, (gives_modify.mp h).symm⟩
  · exact ⟨_, (gives_pure.mp h).2.symm⟩

end Lower

end Flatword
