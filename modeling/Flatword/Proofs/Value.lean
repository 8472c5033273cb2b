import Flatword.Proofs.Operand

/-!
# The values of expressions

The value of an expression over words is given by the memory alone. `Computed` says that code leaves
this value in the operand that lowering gives, and that nothing but spare places has changed.
-/

namespace Flatword

namespace Ground

/-- The slot that a name stands for, first among those of the function. -/
def find? (g : Ground) (function : Option String) (name : String) : Option Slot :=
  let named (scope : String) := g.slots.find? fun s => s.name = name && s.scope = scope
  (function.bind named).or (named "")

theorem mem_of_find? {g : Ground} {function : Option String} {name : String} {slot : Slot}
    (h : g.find? function name = some slot) : slot ∈ g.slots := by
  rcases Option.or_eq_some_iff.mp h with hlocal | ⟨-, hglobal⟩
  · obtain ⟨scope, -, hfind⟩ := Option.bind_eq_some_iff.mp hlocal
    exact List.mem_of_find?_eq_some hfind
  · exact List.mem_of_find?_eq_some hglobal

/-- The address of the plain variable that a name stands for. -/
def long? (g : Ground) (function : Option String) (name : String) : Option Nat :=
  (g.find? function name).bind fun slot => if slot.kind = .long then slot.address else none

end Ground

namespace Expr

/-- The value of an expression over constants and plain variables, whose addresses are given. -/
def eval (alu : Alu) (vars : String → Option Nat) (μ : Memory) : Expr → Word
  | constant hex _ _ => (Hex.value? hex).getD 0
  | lookup name _ _ => ((vars name).map μ).getD 0
  | unary .neg operand _ => 0 - operand.eval alu vars μ
  | unary .bitNot operand _ => ~~~ operand.eval alu vars μ
  | binary op left right _ => alu.apply op (left.eval alu vars μ) (right.eval alu vars μ)
  | _ => 0

def isValue : Expr → Bool
  | constant hex _ _ => (Hex.value? hex).isSome
  | lookup _ _ _ | unary .neg _ _ | unary .bitNot _ _ | binary _ _ _ _ => true
  | _ => false

/-- A constant of one word, or a plain variable outside of some places. -/
inductive IsOperand (vars : String → Option Nat) (S : Set Nat) : Expr → Prop
  | constant {hex fixed line w} (h : Hex.value? hex = some w) :
      IsOperand vars S (.constant hex fixed line)
  | lookup {name line a} (h : vars name = some a) (ha : a ∉ S) :
      IsOperand vars S (.lookup name [] line)

end Expr

namespace Lower

variable {a : Nat} {v : Lowered} {line : Line} {name : String}

/-- The value of an expression waits in an operand, computed by code that changes spare places
only. If the operand lies in one of the places `S`, that place was spare before. -/
structure Computed (m : Machine) (S : Set Nat) (s : Scope) (value : Memory → Word) (v : Lowered)
    (t : Scope) : Prop where
  continues : s.Continues t
  jumps : t.session.jumps = s.session.jumps
  spare : t.spare ⊆ s.spare
  labels : v.code.labels = []
  waits : ∀ a, v.slot.address = some a → a ∉ t.spare
  held : ∀ a, v.slot.address = some a → a ∈ S → a ∈ s.spare
  operand : ∃ read, v.slot.Denotes m read ∧ ∀ μ, s.ground.HoldIn μ →
    ∃ μ', m.Runs v.code μ μ' ∧ AgreeOutside s.spare μ μ' ∧ read μ' = value μ

/-- An expression whose value is computed right in every scope that continues a given one. The value
does not depend on the places in `S`. -/
structure Reliable (m : Machine) (f : Frame) (o : Scope) (S : Set Nat) (e : Expr) : Prop where
  steady : ∀ {μ μ'}, AgreeOutside S μ μ' →
    e.eval m.alu (o.ground.long? f.function) μ' = e.eval m.alu (o.ground.long? f.function) μ
  computed : ∀ {s v t}, o.Continues s → Gives e.lower f s v t →
    Computed m S s (e.eval m.alu (o.ground.long? f.function)) v t

variable {m : Machine} {f : Frame} {o s t : Scope} {S : Set Nat}

theorem lookup_find? {x : Slot} (h : Gives (lookup name) f s x t) :
    s.ground.find? f.function name = some x.unmarked := by
  simp only [lookup, gives_bind, gives_get, gives_read] at h
  obtain ⟨s₁, s₂, ⟨rfl, rfl⟩, frame, s₃, ⟨rfl, rfl⟩, h⟩ := h
  have hnamed (scope : String) :
      s.ground.slots.find? (fun slot => slot.name = name && slot.scope = scope) =
        (s.session.table.findNamed? name scope).map Slot.unmarked := by
    rw [Scope.ground, List.find?_map]
    rfl
  split at h
  · next slot hfound =>
    obtain ⟨rfl, -⟩ := noteUse_notes h
    simp only [Ground.find?, hnamed]
    rcases Option.or_eq_some_iff.mp hfound with hlocal | ⟨hlocal, hglobal⟩
    · obtain ⟨function, hfunction, hlocal⟩ := Option.bind_eq_some_iff.mp hlocal
      simp [hfunction, hlocal]
    · rw [hglobal, Option.or_eq_some_iff]
      refine .inr ⟨?_, rfl⟩
      cases hf : f.function with
      | none => rfl
      | some function => simpa [hf] using hlocal
  · simp at h

theorem reliable_constant {hex : String} {fixed : Bool} {w : Word} (hw : Hex.value? hex = some w) :
    Reliable m f o S (.constant hex fixed line) where
  steady _ := rfl
  computed {s v t} _ h := by
    simp only [Expr.lower, Expr.lowering, Lowering.ofConstant, gives_pure] at h
    obtain ⟨rfl, rfl⟩ := h
    have hslot : (if fixed then { Slot.constant hex with type := .fixed } else Slot.constant hex
        : Slot).Denotes m fun _ => w := by
      have hvalue : (Slot.constant hex).value? = some w := by
        simpa [Slot.constant, Slot.value?] using hw
      split
      · exact .constant rfl rfl hvalue
      · exact .constant rfl rfl hvalue
    have haddress : (if fixed then { Slot.constant hex with type := .fixed } else
        Slot.constant hex : Slot).address = none := by split <;> rfl
    refine ⟨.refl s, rfl, subset_rfl, rfl, ?_, ?_, _, hslot, fun μ _ => ?_⟩
    · simp [haddress]
    · simp [haddress]
    · exact ⟨μ, .nil, .refl _ μ, by simp [Expr.eval, hw]⟩

theorem lookup_long (hs : s.Ready m) (ha : s.ground.long? f.function name = some a)
    (h : Gives (Expr.lookup name [] line).lower f s v t) :
    v.code = [] ∧ v.slot.kind = .long ∧ v.slot.isPlain = true ∧ v.slot.IsAt m a ∧ s.Knows v.slot ∧
      s.Notes t := by
  simp only [Expr.lower, Expr.lowering, Lowering.ofValue, Expr.pathSteps, lowerLookup, gives_bind,
    gives_read, List.isEmpty_nil, if_true, gives_pure] at h
  obtain ⟨_, _, ⟨rfl, rfl⟩, x, t, hx, rfl, rfl⟩ := h
  obtain ⟨hknows, hnotes⟩ := lookup_notes hx
  have hunmarked : x.unmarked.kind = x.kind ∧ x.unmarked.address = x.address := ⟨rfl, rfl⟩
  simp only [Ground.long?, lookup_find? hx, Option.bind_some, hunmarked] at ha
  split at ha
  · next hk =>
    obtain ⟨hoffset, b, hb⟩ := hs.slots _ hknows (by simp [hunmarked, hk])
    obtain rfl := Option.some.inj (ha.symm.trans hb.1)
    have hoffset : x.offset = none := hoffset
    exact ⟨rfl, hk, by simp [Slot.isPlain, Kind.isRegular, hk, hoffset], hb, hknows, hnotes⟩
  · simp at ha

theorem reliable_lookup (ho : o.Ready m) (hS : o.workspace ⊆ S)
    (h : o.ground.long? f.function name = some a) (ha : a ∉ S) :
    Reliable m f o S (.lookup name [] line) where
  steady hμ := by simp [Expr.eval, h, hμ a ha]
  computed {s v t} hs hv := by
    obtain ⟨hcode, -, hplain, hat, -, hnotes⟩ := lookup_long (hs.ready ho) (hs.ground ▸ h) hv
    have hspace : a ∉ s.workspace := fun hmem => ha (hS (hs.workspace hmem))
    refine ⟨.of_notes hnotes, hnotes.jumps, hnotes.spare.subset, by rw [hcode]; rfl, ?_, ?_, _,
      .word hplain hat, fun μ _ => ⟨μ, by rw [hcode]; exact .nil, .refl _ μ, ?_⟩⟩
    · rintro b hb hmem
      obtain rfl := Option.some.inj (hat.1.symm.trans hb)
      exact hspace (s.spare_subset_workspace (hnotes.spare ▸ hmem))
    · rintro b hb hmem
      obtain rfl := Option.some.inj (hat.1.symm.trans hb)
      exact absurd hmem ha
    · simp [Expr.eval, h]

theorem reliable_of_isOperand {e : Expr} (ho : o.Ready m) (hS : o.workspace ⊆ S) (he : e.IsOperand (o.ground.long? f.function) S) :
    e.isValue = true ∧ Reliable m f o S e := by
  cases he with
  | constant hw => exact ⟨by simp [Expr.isValue, hw], reliable_constant hw⟩
  | lookup h ha => exact ⟨rfl, reliable_lookup ho hS h ha⟩

theorem Computed.offset {value : Memory → Word} (h : Computed m S s value v t) :
    v.slot.offset = none := by
  obtain ⟨read, hread, -⟩ := h.operand
  exact hread.offset

theorem Computed.pair {value₁ value₂ : Memory → Word} {v₁ v₂ : Lowered} {u : Scope}
    (hs : s.Ready m) (h₁ : Computed m S s value₁ v₁ t) (h₂ : Computed m S t value₂ v₂ u)
    (hsteady : ∀ {μ μ'}, AgreeOutside s.spare μ μ' → value₂ μ' = value₂ μ) :
    ∃ read₁ read₂, v₁.slot.Denotes m read₁ ∧ v₂.slot.Denotes m read₂ ∧
      ∀ μ, s.ground.HoldIn μ → ∃ μ', m.Runs (v₁.code ++ v₂.code) μ μ' ∧
        AgreeOutside s.spare μ μ' ∧ read₁ μ' = value₁ μ ∧ read₂ μ' = value₂ μ := by
  obtain ⟨read₁, hread₁, hcode₁⟩ := h₁.operand
  obtain ⟨read₂, hread₂, hcode₂⟩ := h₂.operand
  refine ⟨read₁, read₂, hread₁, hread₂, fun μ hμ => ?_⟩
  obtain ⟨μ₁, hruns₁, hagree₁, hvalue₁⟩ := hcode₁ μ hμ
  have hμ₁ : t.ground.HoldIn μ₁ :=
    h₁.continues.ground ▸ hs.holdIn (hagree₁.mono s.spare_subset_scratch) hμ
  obtain ⟨μ₂, hruns₂, hagree₂, hvalue₂⟩ := hcode₂ μ₁ hμ₁
  refine ⟨μ₂, hruns₁.append hruns₂, hagree₁.trans (hagree₂.mono h₁.spare), ?_, ?_⟩
  · rw [hread₁.stays h₁.waits hagree₂, hvalue₁]
  · rw [hvalue₂, hsteady hagree₁]

end Lower

end Flatword
