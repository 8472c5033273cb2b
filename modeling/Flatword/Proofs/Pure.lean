import Flatword.Proofs.Pointer

/-!
# Pure expressions

Expressions over constants, plain variables, the binary operators, `-` and `~`. They follow no
pointer, so their code computes their value wherever it is run, and leaves it in a constant or in a
plain word.
-/

namespace Flatword

namespace Expr

/-- An expression whose variables are outside of some places. -/
inductive IsPure (vars : String → Option Nat) (S : Set Nat) : Expr → Prop
  | operand {e} (h : e.IsOperand vars S) : IsPure vars S e
  | neg {e line} (h : IsPure vars S e) : IsPure vars S (.unary .neg e line)
  | bitNot {e line} (h : IsPure vars S e) : IsPure vars S (.unary .bitNot e line)
  | binary {op left right line} (hl : IsPure vars S left)
      (hr : IsPure vars S right) : IsPure vars S (.binary op left right line)

variable {vars words : String → Option Nat} {S : Set Nat} {e : Expr}

theorem IsPure.steady (h : e.IsPure vars S) (alu : Alu) {μ μ' : Memory} (hμ : AgreeOutside S μ μ') :
    e.eval alu vars μ' = e.eval alu vars μ := by
  induction h with
  | operand h =>
    cases h with
    | constant => rfl
    | lookup h ha => simp [eval, h, hμ _ ha]
  | neg _ ih | bitNot _ ih => simp [eval, ih]
  | binary _ _ ihl ihr => simp [eval, ihl, ihr]

theorem IsPure.isPointed (h : e.IsPure vars S)
    (hwords : ∀ {name a}, vars name = some a → words name = some a) :
    e.IsPointed words S ∧ ∀ alu μ, e.worth alu words μ = e.eval alu vars μ ∧
      e.reached alu words μ = [] := by
  induction h with
  | operand h =>
    cases h with
    | constant hw => exact ⟨.constant hw, by simp [worth, eval, reached]⟩
    | lookup h ha =>
      exact ⟨.word (hwords h) ha, by simp [worth, pathWorth, eval, reached, pathReached, h, hwords h]⟩
  | neg _ ih => exact ⟨.neg ih.1, by simp [worth, eval, reached, ih.2]⟩
  | bitNot _ ih => exact ⟨.bitNot ih.1, by simp [worth, eval, reached, ih.2]⟩
  | binary _ _ ihl ihr => exact ⟨.binary ihl.1 ihr.1, by simp [worth, eval, reached, ihl.2, ihr.2]⟩

end Expr

theorem Scope.Ready.plain?_of_long? {m : Machine} {s : Scope} (hs : s.Ready m)
    {function : Option String} {name : String} {a : Nat} (h : s.ground.long? function name = some a) :
    s.ground.plain? function name = some a := by
  obtain ⟨slot, hslot, h⟩ := Option.bind_eq_some_iff.mp h
  split at h
  · next hk =>
    have ho := (hs.slots slot (Ground.mem_of_find? hslot) (by simp [hk])).1
    simp [Ground.plain?, hslot, Slot.isPlain, Kind.isRegular, hk, ho, h]
  · simp at h

namespace Lower

variable {m : Machine} {f : Frame} {o s t : Scope} {v : Lowered} {e : Expr}

theorem Carried.computed {value : Memory → Word} {safe : Memory → Prop}
    (h : Pending m s value safe v t) (hform : v.slot.isPlain = true ∨ v.slot.isConstant = true)
    (hsafe : ∀ μ, safe μ) : Computed m s.scratch s value v t where
  continues := h.rests.continues
  jumps := h.rests.jumps
  spare := h.rests.spare
  labels := h.labels
  waits a ha := h.waits a (.inl ha)
  held a ha := h.held a (.inl ha)
  operand := by
    obtain ⟨o, ho, hruns⟩ := h.operand
    have hread : v.slot.Denotes m o.read := by
      cases ho with
      | constant hc ha hw => exact .constant hc ha hw
      | word hk ha =>
        refine .word (hform.resolve_right fun hc => ?_) ha
        rcases hk with hp | hk <;> simp_all [Slot.isPlain, Slot.isConstant, Kind.isRegular]
      | behind _ ho => simp [Slot.isPlain, Slot.isConstant, ho] at hform
      | indexed _ ho => simp [Slot.isPlain, Slot.isConstant, ho] at hform
    refine ⟨o.read, hread, fun μ hμ => ?_⟩
    obtain ⟨μ', hruns, hagree, hvalue, -⟩ := hruns μ hμ (hsafe μ)
    exact ⟨μ', hruns, hagree, hvalue⟩

theorem isPlain_or_isConstant (ho : o.Ready m) (he : e.IsPure (o.ground.long? f.function) o.scratch)
    (hs : o.Continues s) (h : Gives e.lower f s v t) :
    v.slot.isPlain = true ∨ v.slot.isConstant = true := by
  have hpending {e : Expr} {s : Scope} {v : Lowered} {t : Scope}
      (he : e.IsPure (o.ground.long? f.function) o.scratch) (hs : o.Continues s)
      (h : Gives e.lower f s v t) :=
    pending_of_isPointed ho (he.isPointed ho.plain?_of_long?).1 rfl hs h
  cases he with
  | operand he =>
    cases he with
    | constant hw =>
      simp only [Expr.lower, Expr.lowering, Lowering.ofConstant, gives_pure] at h
      obtain ⟨rfl, -⟩ := h
      right
      split <;> rfl
    | lookup hvar => exact .inl (lookup_long (hs.ready ho) (hs.ground ▸ hvar) h).2.2.1
  | neg he => exact (pending_lowerNegate (hs.ready ho) (hpending he hs) h).2
  | bitNot he => exact (pending_lowerComplement (hs.ready ho) (hpending he hs) h).2
  | binary hl hr =>
    refine .inl (pending_lowerBinary (hs.ready ho) (hpending hl hs)
      (fun hu => hpending hr (hs.trans hu)) (fun hμ hlands => ?_) h).2
    obtain ⟨hworth, hreached⟩ := (hr.isPointed ho.plain?_of_long?).1.steady
      (hμ.mono (hs.scratch ▸ s.spare_subset_scratch)) hlands
    exact ⟨hworth, fun c hc => hlands c (hreached ▸ hc)⟩

/-- The code of every pure expression computes its value, in any scope whose scratch places are not
among its variables. -/
theorem reliable_of_isPure (ho : o.Ready m) (he : e.IsPure (o.ground.long? f.function) o.scratch) :
    Reliable m f o o.scratch e where
  steady := he.steady m.alu
  computed {s v t} hs h := by
    obtain ⟨hpointed, hsame⟩ := he.isPointed ho.plain?_of_long?
    have hpending : Pending m s (e.eval m.alu (o.ground.long? f.function)) (fun _ => True) v t :=
      (pending_of_isPointed ho hpointed rfl hs h).congr (fun μ _ a ha => by simp [hsame] at ha)
        fun μ _ => (hsame m.alu μ).1.symm
    exact hs.scratch ▸ hpending.computed (isPlain_or_isConstant ho he hs h) fun _ => trivial

end Lower

end Flatword
