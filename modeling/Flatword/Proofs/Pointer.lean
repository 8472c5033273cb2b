import Flatword.Proofs.Context
import Flatword.Proofs.Pending

/-!
# Pure expressions with pointers

As long as no pointer leads to a scratch place, the code of an expression over constants, plain variables,
operators and the words that pointers lead to computes its value and holds no register but those of the
operand that it gives.
-/

namespace Flatword

/-- The address of the plain word that a name stands for. -/
def Ground.plain? (g : Ground) (function : Option String) (name : String) : Option Nat :=
  (g.find? function name).bind fun slot => if slot.isPlain then slot.address else none

namespace Expr

mutual

/-- The value of an expression over words and pointers, where the addresses of variables are given. -/
def worth (alu : Alu) (vars : String → Option Nat) (μ : Memory) : Expr → Word
  | constant hex _ _ => (Hex.value? hex).getD 0
  | lookup name path _ => pathWorth alu vars μ (((vars name).map μ).getD 0) path
  | unary .neg operand _ => 0 - worth alu vars μ operand
  | unary .bitNot operand _ => ~~~ worth alu vars μ operand
  | unary .deref operand _ => μ (worth alu vars μ operand).toNat
  | binary op left right _ => alu.apply op (worth alu vars μ left) (worth alu vars μ right)
  | _ => 0

def pathWorth (alu : Alu) (vars : String → Option Nat) (μ : Memory) (base : Word) :
    List Access → Word
  | [] => base
  | .index index :: rest =>
    pathWorth alu vars μ (μ (base + worth alu vars μ index).toNat) rest
  | _ :: rest => pathWorth alu vars μ base rest

end

mutual

/-- The addresses that the pointers in an expression lead to. -/
def reached (alu : Alu) (vars : String → Option Nat) (μ : Memory) : Expr → List Nat
  | lookup name path _ => pathReached alu vars μ (((vars name).map μ).getD 0) path
  | unary .deref operand _ => (operand.worth alu vars μ).toNat :: reached alu vars μ operand
  | unary _ operand _ => reached alu vars μ operand
  | binary _ left right _ => reached alu vars μ left ++ reached alu vars μ right
  | _ => []

def pathReached (alu : Alu) (vars : String → Option Nat) (μ : Memory) (base : Word) :
    List Access → List Nat
  | [] => []
  | .index index :: rest =>
    reached alu vars μ index ++ (base + index.worth alu vars μ).toNat ::
      pathReached alu vars μ (μ (base + index.worth alu vars μ).toNat) rest
  | _ :: rest => pathReached alu vars μ base rest

end

/-- An expression over words and pointers, whose variables are outside of some places. -/
inductive IsPointed (vars : String → Option Nat) (S : Set Nat) : Expr → Prop
  | constant {hex fixed line w} (h : Hex.value? hex = some w) :
      IsPointed vars S (.constant hex fixed line)
  | word {name line a} (h : vars name = some a) (ha : a ∉ S) :
      IsPointed vars S (.lookup name [] line)
  | index {name index line a} (h : vars name = some a)
      (ha : a ∉ S) (hindex : IsPointed vars S index) :
      IsPointed vars S (.lookup name [.index index] line)
  | deref {name line line' a} (h : vars name = some a) (ha : a ∉ S) :
      IsPointed vars S (.unary .deref (.lookup name [] line) line')
  | neg {e line} (h : IsPointed vars S e) : IsPointed vars S (.unary .neg e line)
  | bitNot {e line} (h : IsPointed vars S e) : IsPointed vars S (.unary .bitNot e line)
  | binary {op left right line} (hl : IsPointed vars S left)
      (hr : IsPointed vars S right) : IsPointed vars S (.binary op left right line)

/-- All pointers in an expression lead to words that may be reached, outside of some places. -/
def Lands (m : Machine) (vars : String → Option Nat) (S : Set Nat) (e : Expr) (μ : Memory) : Prop :=
  ∀ a ∈ e.reached m.alu vars μ, m.guard a = true ∧ a ∉ S

theorem IsPointed.steady {m : Machine} {vars : String → Option Nat} {S : Set Nat} {e : Expr}
    (he : e.IsPointed vars S) {μ μ' : Memory} (hμ : AgreeOutside S μ μ') (hlands : e.Lands m vars S μ) :
    e.worth m.alu vars μ' = e.worth m.alu vars μ ∧ e.reached m.alu vars μ' = e.reached m.alu vars μ := by
  induction he with
  | constant h => simp [worth, reached]
  | word h ha => simp [worth, pathWorth, reached, pathReached, h, hμ _ ha]
  | @index name index line a h ha _ ih =>
    have hreached : (Expr.lookup name [.index index] line).reached m.alu vars μ =
        index.reached m.alu vars μ ++ [(μ a + index.worth m.alu vars μ).toNat] := by
      simp only [reached, pathReached, h, Option.map_some, Option.getD_some]
    have hindex := ih fun c hc => hlands c (hreached ▸ List.mem_append_left _ hc)
    have hp := (hlands _ (hreached ▸ List.mem_append_right _ (List.mem_singleton_self _))).2
    simp only [worth, pathWorth, reached, pathReached, h, Option.map_some, Option.getD_some, hμ a ha,
      hindex.1, hindex.2, hμ _ hp, and_self]
  | @deref name line line' a h ha =>
    have hreached : (Expr.unary .deref (.lookup name [] line) line').reached m.alu vars μ =
        [(μ a).toNat] := by
      simp only [reached, pathReached, worth, pathWorth, h, Option.map_some, Option.getD_some]
    have hp := (hlands _ (hreached ▸ List.mem_singleton_self _)).2
    simp only [worth, pathWorth, reached, pathReached, h, Option.map_some, Option.getD_some, hμ a ha,
      hμ _ hp, and_self]
  | neg _ ih | bitNot _ ih =>
    obtain ⟨hworth, hreached⟩ := ih hlands
    simp only [worth, reached, hworth, hreached, and_self]
  | binary _ _ ihl ihr =>
    have hl := ihl fun c hc => hlands c (by simp [reached, hc])
    have hr := ihr fun c hc => hlands c (by simp [reached, hc])
    simp only [worth, reached, hl.1, hl.2, hr.1, hr.2, and_self]

end Expr

namespace Lower

variable {code : Code} {name : String} {o : Fetch} {shape : Option String} {type : ValueType}
  {x y : Slot} {a : Nat} {safe : Memory → Prop} {value : Memory → Word} {m : Machine} {f : Frame}
  {s t : Scope} {v : Lowered}

theorem lookup_plain (hs : s.Ready m) (ha : s.ground.plain? f.function name = some a)
    (h : Gives (lookup name) f s x t) : x.isPlain = true ∧ x.IsAt m a ∧ s.Notes t := by
  obtain ⟨hknows, hnotes⟩ := lookup_notes h
  have hunmarked : x.unmarked.isPlain = x.isPlain ∧ x.unmarked.address = x.address ∧
      x.unmarked.kind = x.kind := ⟨rfl, rfl, rfl⟩
  simp only [Ground.plain?, lookup_find? h, Option.bind_some, hunmarked] at ha
  split at ha
  · next hp =>
    have hk : x.kind ≠ .struct := Slot.kind_ne_of_isPlain hp
    obtain ⟨-, b, hb⟩ := hs.slots _ hknows hk
    obtain rfl := Option.some.inj (ha.symm.trans hb.1)
    exact ⟨hp, hb, hnotes⟩
  · simp at ha

theorem lookup_word {line : Line} (hs : s.Ready m) (ha : s.ground.plain? f.function name = some a)
    (h : Gives (Expr.lookup name [] line).lower f s v t) :
    v.code = [] ∧ v.slot.isPlain = true ∧ v.slot.IsAt m a ∧ s.Notes t := by
  simp only [Expr.lower, Expr.lowering, Lowering.ofValue, Expr.pathSteps, lowerLookup, gives_bind,
    gives_read, List.isEmpty_nil, if_true, gives_pure] at h
  obtain ⟨_, _, ⟨rfl, rfl⟩, x, _, hx, rfl, rfl⟩ := h
  exact ⟨rfl, lookup_plain hs ha hx⟩

theorem pending_of_notes (hnotes : s.Notes t) (hx : x.Fetches m o) (hk : x.kind ≠ .array)
    (ho : ∀ c ∈ o.cells, c ∉ s.scratch)
    (hvalue : ∀ μ, safe μ → o.read μ = value μ ∧ o.Lands m s.scratch μ) :
    Pending m s value safe ⟨x, []⟩ t where
  rests := .of_notes hnotes
  labels := rfl
  waits c hc hspare := ho c (hx.holds_iff.mp hc) (s.spare_subset_scratch (hnotes.spare ▸ hspare))
  held c hc hscratch := absurd hscratch (ho c (hx.holds_iff.mp hc))
  header hk' := absurd hk' hk
  busy c hc := .inl ⟨hnotes.pool ▸ hc, by simp⟩
  operand := ⟨o, hx, fun μ _ hsafe => ⟨μ, .nil, .refl _ μ, hvalue μ hsafe⟩⟩

theorem Carried.after_notes {u : Scope} (hs : s.Ready m) (hnotes : s.Notes u)
    (h : Pending m u value safe v t) : Pending m s value safe v t := by
  have h : Carried m s.spare [] u value safe v t := hnotes.spare ▸ h
  exact Carried.after hs (.of_notes hnotes) rfl (fun c hc => .inl (hnotes.pool ▸ hc))
    (fun μ _ hsafe => ⟨μ, .nil, .refl _ μ, rfl, hsafe⟩) h

theorem plainIndex_carried {F : Set Nat} (hs : s.Ready m) (hF : s.spare ⊆ F) (hx : Awaits m F s x o)
    (h : Gives (plainIndex x) f s v t) :
    Carried m F [x] s o.read (o.Lands m s.scratch) v t ∧ v.slot.isPlain = true := by
  unfold plainIndex at h
  split at h
  · next hp =>
    obtain ⟨rfl, rfl⟩ := gives_pure.mp h
    refine ⟨⟨.refl hF, rfl, hx.waits, hx.held, hx.header, fun c hc => ?_, o, hx.fetches,
      fun μ _ hlands => ⟨μ, .nil, .refl _ μ, rfl, hlands⟩⟩, hp⟩
    by_cases hholds : x.Holds c
    · exact .inr hholds
    · exact .inl ⟨hc, by simpa using hholds⟩
  · obtain ⟨a, ha, -⟩ := own_seated hs hx h
    exact ⟨(ha.mono (hx.room_subset hF)).carried, ha.plain⟩

/-- An operand that adds the word `a` to what `y` stands for, and stands for the word behind. -/
theorem Carried.pointed {z : Slot} (h : Pending m s value safe ⟨y, code⟩ t) (ha : a ∉ s.scratch)
    (hz : z.address = some a) (hholds : ∀ c, z.Holds c ↔ c = a ∨ y.Holds c)
    (hread : ∀ {o}, y.Fetches m o → ∃ o', z.Fetches m o' ∧ ∀ μ, o'.read μ = μ (μ a + o.read μ).toNat ∧
      (o'.Lands m s.scratch μ ↔
        m.guard (μ a + o.read μ).toNat = true ∧ (μ a + o.read μ).toNat ∉ s.scratch)) :
    Pending m s (fun μ => μ (μ a + value μ).toNat)
      (fun μ => safe μ ∧ m.guard (μ a + value μ).toNat = true ∧ (μ a + value μ).toNat ∉ s.scratch)
      ⟨z, code⟩ t where
  rests := h.rests
  labels := h.labels
  waits c hc hspare := by
    rcases (hholds c).mp hc with rfl | hc
    · exact ha (s.spare_subset_scratch (h.rests.spare hspare))
    · exact h.waits c hc hspare
  held c hc hscratch := ((hholds c).mp hc).elim (fun heq => absurd (heq ▸ hscratch) ha)
    fun hc => h.held c hc hscratch
  header _ c hc := Option.some.inj (hz.symm.trans hc) ▸ ha
  busy c hc := (h.busy c hc).imp_right fun hc => (hholds c).mpr (.inr hc)
  operand := by
    obtain ⟨o, ho, hcode⟩ := h.operand
    obtain ⟨o', ho', hread⟩ := hread ho
    refine ⟨o', ho', fun μ hμ hsafe => ?_⟩
    obtain ⟨μ', hruns, hagree, hvalue, -⟩ := hcode μ hμ hsafe.1
    have hbase : μ' a = μ a := hagree a fun hspare => ha (s.spare_subset_scratch hspare)
    obtain ⟨hword, hlands⟩ := hread μ'
    rw [hbase, hvalue] at hword hlands
    refine ⟨μ', hruns, hagree, hword.trans ?_, hlands.mpr hsafe.2⟩
    exact hagree _ fun hspare => hsafe.2.2 (s.spare_subset_scratch hspare)

theorem Carried.indexed {b : Nat} (h : Pending m s value safe ⟨y, code⟩ t) (hy : y.isPlain = true)
    (hb : y.address = some b) (hk : x.kind.isRegular = true ∨ x.kind = .array) (hx : x.IsAt m a)
    (ha : a ∉ s.scratch) :
    Pending m s (fun μ => μ (μ a + value μ).toNat)
      (fun μ => safe μ ∧ m.guard (μ a + value μ).toNat = true ∧ (μ a + value μ).toNat ∉ s.scratch)
      ⟨{ x with offset := some (.stored b), type, shape }, code⟩ t := by
  refine h.pointed ha hx.1 (fun c => ?_) fun ho => ?_
  · simp [Slot.Holds, Slot.offset_of_isPlain hy, hb, hx.1, eq_comm]
  · obtain rfl := ho.eq_word hy hb
    refine ⟨.indexed a b, .indexed ?_ rfl ?_, fun μ => ⟨rfl, Fetch.lands_indexed⟩⟩
    · exact hk
    · exact hx

theorem Carried.behind {w : Word} (h : Pending m s value safe ⟨y, code⟩ t) (hy : y.isValue w = true)
    (hk : x.kind.isRegular = true) (hx : x.IsAt m a) (ha : a ∉ s.scratch) :
    Pending m s (fun μ => μ (μ a + value μ).toNat)
      (fun μ => safe μ ∧ m.guard (μ a + value μ).toNat = true ∧ (μ a + value μ).toNat ∉ s.scratch)
      ⟨{ x with offset := some (.known w.toInt64), type, shape }, code⟩ t := by
  obtain ⟨_, ho, -⟩ := h.operand
  have hnone (c : Nat) : ¬ y.Holds c := (h.awaits ho).suits.not_holds (Bool.and_eq_true_iff.mp hy).1
  refine h.pointed ha hx.1 (fun c => ?_) fun {o} ho => ⟨.behind a w.toInt64, .behind ?_ rfl ?_, fun μ => ?_⟩
  · have hholds : Slot.Holds { x with offset := some (.known w.toInt64), type, shape } c ↔ c = a := by
      simp [Slot.Holds, hx.1, eq_comm]
    simp [hholds, hnone c]
  · exact hk
  · exact hx
  · have hword : w.toInt64.toUInt64 = o.read μ := (ho.eq_of_isValue hy μ).symm
    rw [← hword]
    exact ⟨rfl, Fetch.lands_behind⟩

theorem pending_indexPointer {index : Lower Lowered} {val : Memory → Word} (hs : s.Ready m)
    (hp : x.isPlain = true) (hx : x.IsAt m a) (ha : a ∉ s.scratch)
    (hindex : ∀ {v t}, Gives index f s v t → Pending m s val safe v t)
    (h : Gives (indexPointer x index) f s v t) :
    Pending m s (fun μ => μ (μ a + val μ).toNat)
      (fun μ => safe μ ∧ m.guard (μ a + val μ).toNat = true ∧ (μ a + val μ).toNat ∉ s.scratch) v t := by
  have hk : x.kind.isRegular = true := (Bool.and_eq_true_iff.mp hp).1
  have ho : x.offset = none := Slot.offset_of_isPlain hp
  unfold indexPointer at h
  dsimp only at h
  split at h
  · simp at h
  simp only [intoBase, ho, Option.isNone_none, if_true, gives_bind, gives_pure] at h
  obtain ⟨_, _, ⟨rfl, rfl⟩, v₁, s₁, h₁, h⟩ := h
  have h₁ := hindex h₁
  split at h
  · next hc =>
    simp only [constantWord, gives_bind, gives_orFail, gives_pure] at h
    obtain ⟨w, _, ⟨hw, rfl⟩, rfl, rfl⟩ := h
    exact h₁.behind (by simp [Slot.isValue, hc, hw]) hk hx ha
  · simp only [gives_bind, gives_orFail, gives_pure] at h
    obtain ⟨v₂, s₂, hplain, b, _, ⟨hb, rfl⟩, rfl, rfl⟩ := h
    obtain ⟨o, hawaits, happly⟩ := h₁.apply hs
    obtain ⟨hcarried, hp₂⟩ := plainIndex_carried (h₁.rests.continues.ready hs) h₁.rests.spare
      hawaits hplain
    have hpending : Pending m s val safe ⟨v₂.slot, v₁.code ++ v₂.code⟩ s₂ := happly (g := id) hcarried
    exact hpending.indexed hp₂ hb (.inl hk) hx ha

/-- The code of every expression over words and pointers computes its value, in any scope whose
scratch places are not among its variables. -/
theorem pending_of_isPointed {function : Option String} {e : Expr} {o : Scope} (ho : o.Ready m)
    (he : e.IsPointed (o.ground.plain? function) o.scratch) (hf : f.function = function)
    (hs : o.Continues s) (h : Gives e.lower f s v t) :
    Pending m s (e.worth m.alu (o.ground.plain? function))
      (e.Lands m (o.ground.plain? function) o.scratch) v t := by
  have hlookup {f : Frame} {name : String} {a : Nat} {x : Slot} {s t : Scope} (hf : f.function = function)
      (hs : o.Continues s) (hvar : o.ground.plain? function name = some a)
      (h : Gives (lookup name) f s x t) : x.isPlain = true ∧ x.IsAt m a ∧ s.Notes t :=
    lookup_plain (hs.ready ho) (by rw [hf, hs.ground, hvar]) h
  induction he generalizing f s v t with
  | @constant hex fixed line w hw =>
    simp only [Expr.lower, Expr.lowering, Lowering.ofConstant, gives_pure] at h
    obtain ⟨rfl, rfl⟩ := h
    have hvalue : (Slot.constant hex).value? = some w := by simpa [Slot.constant, Slot.value?] using hw
    refine pending_of_notes (o := .constant w) (.refl s) ?_ ?_ (by simp [Fetch.cells]) fun μ _ =>
      ⟨by simp [Expr.worth, hw, Fetch.read], Fetch.lands_constant w⟩
    · split
      · exact .constant rfl rfl hvalue
      · exact .constant rfl rfl hvalue
    · split <;> simp [Slot.constant]
  | @word name line a hvar ha =>
    simp only [Expr.lower, Expr.lowering, Lowering.ofValue, Expr.pathSteps, lowerLookup, gives_bind,
      gives_read, List.isEmpty_nil, if_true, gives_pure] at h
    obtain ⟨_, _, ⟨rfl, rfl⟩, x, _, hx, rfl, rfl⟩ := h
    obtain ⟨hp, hat, hnotes⟩ := hlookup hf hs hvar hx
    refine pending_of_notes hnotes (.of_isPlain hp hat) ?_ ?_ fun μ _ => ⟨?_, Fetch.lands_word a⟩
    · exact Slot.kind_ne_of_isPlain hp
    · simpa [Fetch.cells, hs.scratch] using ha
    · simp [Fetch.read, Expr.worth, Expr.pathWorth, hvar]
  | @index name index line a hvar ha hindex ih =>
    simp only [Expr.lower, Expr.lowering, Lowering.ofValue, Expr.pathSteps, lowerLookup, gives_bind,
      gives_read, List.isEmpty_cons, Bool.false_eq_true, if_false, gives_onSide] at h
    obtain ⟨_, _, ⟨rfl, rfl⟩, x, s₁, hx, h⟩ := h
    obtain ⟨hp, hat, hnotes⟩ := hlookup hf hs hvar hx
    have hk : x.kind ≠ .array := Slot.kind_ne_of_isPlain hp
    have hs₁ := hs.trans (.of_notes hnotes)
    simp only [followAfter, hk, false_and, if_false, gives_bind, gives_pure] at h
    obtain ⟨cell, _, hcell, rfl, rfl⟩ := h
    have hcell := pending_indexPointer (f := { f with leftSide := false }) (hs₁.ready ho) hp hat
      (hs₁.scratch ▸ ha) (fun h => ih (f := { f with leftSide := false }) hf hs₁ h) hcell
    refine (hcell.after_notes (hs.ready ho) hnotes).congr (fun μ hlands => ?_) fun μ _ => ?_
    · have hreached : (Expr.lookup name [.index index] line).reached m.alu (o.ground.plain? function) μ =
          index.reached m.alu (o.ground.plain? function) μ ++
            [(μ a + index.worth m.alu (o.ground.plain? function) μ).toNat] := by
        simp only [Expr.reached, Expr.pathReached, hvar, Option.map_some, Option.getD_some]
      have hlast := hlands _ (hreached ▸ List.mem_append_right _ (List.mem_singleton_self _))
      exact ⟨fun c hc => hlands c (hreached ▸ List.mem_append_left _ hc), hlast.1, hs₁.scratch ▸ hlast.2⟩
    · simp only [Expr.worth, Expr.pathWorth, hvar, Option.map_some, Option.getD_some]
  | @deref name line line' a hvar ha =>
    simp only [Expr.lower, Expr.lowering, Lowering.ofUnary, Lowering.ofValue, Expr.pathSteps, lowerDeref,
      lowerLookup, gives_bind, gives_read, List.isEmpty_nil, if_true, gives_pure] at h
    obtain ⟨_, _, ⟨_, _, ⟨rfl, rfl⟩, x, _, hx, rfl, rfl⟩, h⟩ := h
    obtain ⟨hp, hat, hnotes⟩ := hlookup hf hs hvar hx
    have hk : x.kind ≠ .array := Slot.kind_ne_of_isPlain hp
    simp only [hk, false_and, if_false, intoBase, Slot.offset_of_isPlain hp, Option.isNone_none, if_true,
      gives_bind, gives_pure] at h
    obtain ⟨_, _, ⟨rfl, rfl⟩, rfl, rfl⟩ := h
    have hzero (μ : Memory) : μ a + (0 : Int64).toUInt64 = μ a := UInt64.add_zero (μ a)
    refine pending_of_notes (o := .behind a 0) hnotes ?_ hk ?_ fun μ hlands => ⟨?_, ?_⟩
    · refine .behind ?_ ?_ ?_
      · exact (Bool.and_eq_true_iff.mp hp).1
      · rfl
      · exact hat
    · simpa [Fetch.cells, hs.scratch] using ha
    · simp only [Fetch.read, hzero, Expr.worth, Expr.pathWorth, hvar, Option.map_some, Option.getD_some]
    · rw [Fetch.lands_behind, hzero, hs.scratch]
      exact hlands _ (by simp [Expr.reached, Expr.worth, Expr.pathWorth, hvar])
  | neg _ ih =>
    exact (pending_lowerNegate (hs.ready ho) (fun h => ih hf hs h) h).1
  | bitNot _ ih =>
    exact (pending_lowerComplement (hs.ready ho) (fun h => ih hf hs h) h).1
  | @binary op left right line hl hr ihl ihr =>
    have hscratch : s.spare ⊆ o.scratch := hs.scratch ▸ s.spare_subset_scratch
    have hboth := pending_lowerBinary (hs.ready ho) (fun h => ihl hf hs h)
      (fun hu h => ihr hf (hs.trans hu) h) (fun {μ μ'} hμ hlands => ?_) h
    · refine hboth.1.congr (fun μ hlands => ⟨fun c hc => ?_, fun c hc => ?_⟩) fun μ _ => rfl
      · exact hlands c (by simp [Expr.reached, hc])
      · exact hlands c (by simp [Expr.reached, hc])
    · obtain ⟨hworth, hreached⟩ := hr.steady (hμ.mono hscratch) hlands
      exact ⟨hworth, fun c hc => hlands c (hreached ▸ hc)⟩

end Lower

/-! ## Registers in use -/

namespace Scope

variable {s : Scope}

theorem mem_registers_iff {a : Nat} : a ∈ s.registers ↔ s.pool.Busy a ∨ s.pool.Free a := by
  constructor
  · intro ha
    obtain ⟨slot, hslot, ha⟩ := List.mem_map.mp ha
    obtain ⟨r, hr, rfl⟩ := List.mem_map.mp hslot
    cases hin : r.inUse with
    | true => exact .inl ⟨r, hr, hin, ha⟩
    | false => exact .inr ⟨r, hr, hin, ha⟩
  · rintro (⟨r, hr, -, ha⟩ | ⟨r, hr, -, ha⟩) <;>
      exact List.mem_map.mpr ⟨r.slot, List.mem_map_of_mem hr, ha⟩

theorem Regular.not_free_of_busy (hs : s.Regular) {a : Nat} (h : s.pool.Busy a) : ¬ s.pool.Free a := by
  rintro ⟨r, hr, hin, ha⟩
  obtain ⟨r', hr', hin', ha'⟩ := h
  obtain rfl := List.inj_on_of_nodup_map hs.distinct hr hr' (ha.trans ha'.symm)
  simp [hin] at hin'

theorem scratch_of_target (h : s.reuse.target? = none) : s.scratch = s.registers := by
  simp [scratch, h]

theorem spare_of_target (h : s.reuse.target? = none) : s.spare = {a | s.pool.Free a} := by
  have hreserved (target : Slot) : s.reuse ≠ .reserved target := by
    intro hr
    simp [hr, Reuse.target?] at h
  simp [spare, hreserved]

end Scope

theorem Machine.Runs.steps {m : Machine} {code : Code} {μ μ' : Memory} (h : m.Runs code μ μ')
    (hlabels : code.labels = []) (stack : List Word) :
    m.Steps code (.at 0 ⟨μ, stack⟩) (.at code.length ⟨μ', stack⟩) := by
  have hsteps := Machine.steps_flow (m := m) [] code [] (.falling ⟨μ, stack⟩) (by simp [hlabels])
  rw [h stack] at hsteps
  simpa [Mode.run] using hsteps

/-- Where no target is reserved, the code of an expression over words and pointers computes its value
in free registers, and the registers in use afterwards are those from before and those of the
operand. -/
theorem Expr.pointed_computed {m : Machine} {f : Frame} {s t : Scope} {e : Expr} {v : Lower.Lowered}
    (hs : s.Ready m) (hreuse : s.reuse.target? = none)
    (he : e.IsPointed (s.ground.plain? f.function) s.registers) (h : Gives e.lower f s v t) :
    (∃ o, v.slot.Fetches m o ∧ ∀ μ, s.ground.HoldIn μ →
      e.Lands m (s.ground.plain? f.function) s.registers μ →
      ∃ μ', (∀ stack, m.Steps v.code (.at 0 ⟨μ, stack⟩) (.at v.code.length ⟨μ', stack⟩)) ∧
        o.read μ' = e.worth m.alu (s.ground.plain? f.function) μ ∧
        ∀ a, a ∉ s.registers ∨ s.pool.Busy a → μ' a = μ a) ∧
      ∀ a, t.pool.Busy a ↔ s.pool.Busy a ∨ a ∈ s.registers ∧ v.slot.Holds a := by
  have hscratch := Scope.scratch_of_target hreuse
  have hspare := Scope.spare_of_target hreuse
  have hpending := Lower.pending_of_isPointed hs (hscratch ▸ he) rfl (.refl s) h
  have hcontinues := hpending.rests.continues
  have ht : t.reuse.target? = none := hcontinues.target.trans hreuse
  have hregular := (hcontinues.ready hs).regular
  -- A register that is not free afterwards is in use.
  have hbusy {a : Nat} (ha : a ∈ s.registers) (hnot : a ∉ t.spare) : t.pool.Busy a := by
    rw [Scope.spare_of_target ht] at hnot
    exact (Scope.mem_registers_iff.mp (hcontinues.registers ▸ ha)).resolve_right hnot
  refine ⟨?_, fun a => ⟨fun ha => ?_, ?_⟩⟩
  · obtain ⟨o, ho, hruns⟩ := hpending.operand
    refine ⟨o, ho, fun μ hμ hlands => ?_⟩
    obtain ⟨μ', hruns, hagree, hvalue, -⟩ := hruns μ hμ (hscratch ▸ hlands)
    refine ⟨μ', hruns.steps hpending.labels, hvalue, fun a ha => hagree a fun hmem => ?_⟩
    rw [hspare] at hmem
    rcases ha with ha | ha
    · exact ha (Scope.mem_registers_of_free hmem)
    · exact hs.regular.not_free_of_busy ha hmem
  · refine (hpending.busy a ha).imp And.left fun hholds => ⟨?_, hholds⟩
    exact hcontinues.registers ▸ Scope.mem_registers_iff.mpr (.inl ha)
  · rintro (ha | ⟨ha, hholds⟩)
    · refine hbusy (Scope.mem_registers_iff.mpr (.inl ha)) fun hmem => ?_
      have hfree := hpending.rests.spare hmem
      rw [hspare] at hfree
      exact hs.regular.not_free_of_busy ha hfree
    · exact hbusy ha (hpending.waits a hholds)

def Session.withPointer : Session where
  options := {}
  table := (Table.append {} (Session.registerSlots 3 ++
    [{ name := "p", asmName := "p", kind := .long, type := .longPtr },
      { name := "i", asmName := "i", kind := .long, type := .long },
      { name := "a", asmName := "a", kind := .long, type := .long }])).1

/-- The expression `p[i * 2] + a`. -/
def indexedSum : Expr :=
  .binary .add (.lookup "p" [.index (.binary .mul (.var "i" 1) (.long 2 1) 1)] 1) (.var "a" 1) 1

/-- While the first register is in use, `p[i * 2] + a` is computed in the other two. -/
theorem indexedSum_computed : ∃ (m : Machine) (s t : Scope) (v : Lower.Lowered) (o : Fetch)
    (μ μ' : Memory), s.Ready m ∧ s.pool.Busy 0 ∧ Gives indexedSum.lower { line := 1 } s v t ∧
      v.slot.Fetches m o ∧ μ 3 = 100 ∧ μ 4 = 5 ∧ μ 5 = 7 ∧ μ 110 = 35 ∧
      m.Steps v.code (.at 0 ⟨μ, []⟩) (.at v.code.length ⟨μ', []⟩) ∧ o.read μ' = 42 ∧ μ' 0 = μ 0 ∧
      t.pool.Busy 0 := by
  let start := Scope.start Session.withPointer
  have hslots : ∀ slot ∈ Session.withPointer.table.slots, slot.content = none := by decide +kernel
  have hsound : Session.withPointer.table.Sound := by
    refine Session.sound_append_registerSlots fun slot hslot => ?_
    simp only [List.mem_cons, List.not_mem_nil, or_false] at hslot
    rcases hslot with rfl | rfl | rfl <;> exact ⟨nofun, nofun, rfl, by decide⟩
  have hready : start.Ready _ := Scope.ready_start hsound (hsound.has_machine .unsigned)
    fun slot hslot h => absurd (hslots slot hslot) h
  -- The first register is taken before.
  have htake : (outcome Lower.allocate { line := 1 } start).1.toOption.isSome = true := by decide +kernel
  obtain ⟨r, hr⟩ := Option.isSome_iff_exists.mp htake
  obtain ⟨_, -, -, -, -, hcontinues, -⟩ := Lower.allocate_spare hready.placed (gives_of_toOption hr)
  let s := (outcome Lower.allocate { line := 1 } start).2
  have hs : s.Ready _ := hcontinues.ready hready
  have hbusy : ∃ r ∈ s.pool.registers, r.inUse = true ∧ r.slot.address = some 0 := by decide +kernel
  have hapart (a : Nat) (ha : some a ∉ s.ground.registers.map Slot.address) : a ∉ s.registers := ha
  have hnone {slot : Slot} {w : Word} : ¬ s.ground.Names slot w :=
    hcontinues.ground ▸ Scope.not_names_start hslots
  have hp : s.ground.plain? none "p" = some 3 := by decide +kernel
  have hi : s.ground.plain? none "i" = some 4 := by decide +kernel
  have ha : s.ground.plain? none "a" = some 5 := by decide +kernel
  have hpointed : indexedSum.IsPointed (s.ground.plain? none) s.registers := by
    refine .binary (.index hp ?_ (.binary (.word hi ?_) (.constant (w := 2) ?_))) (.word ha ?_)
    · exact hapart 3 (by decide +kernel)
    · exact hapart 4 (by decide +kernel)
    · decide +kernel
    · exact hapart 5 (by decide +kernel)
  have hcode : (outcome indexedSum.lower { line := 1 } s).1.toOption.isSome = true := by decide +kernel
  obtain ⟨v, hv⟩ := Option.isSome_iff_exists.mp hcode
  have hv := gives_of_toOption hv
  obtain ⟨⟨o, ho, hruns⟩, hexact⟩ := Expr.pointed_computed hs
    (hcontinues.target.trans rfl) hpointed hv
  let μ : Memory := fun a => if a = 3 then 100 else if a = 4 then 5 else if a = 5 then 7 else
    if a = 110 then 35 else 0
  have hlands : indexedSum.Lands ((Session.withPointer.table).machine .unsigned) (s.ground.plain? none)
      s.registers μ := by
    intro c hc
    simp only [indexedSum, Expr.var, Expr.long, Expr.reached, Expr.pathReached, Expr.worth, Expr.pathWorth,
      hp, hi, Option.map_some, Option.getD_some] at hc
    have hc : c ∈ [110] := hc
    obtain rfl := List.mem_singleton.mp hc
    exact ⟨rfl, hapart 110 (by decide +kernel)⟩
  obtain ⟨μ', hsteps, hvalue, hkept⟩ := hruns μ (fun _ _ _ hnames => absurd hnames hnone) hlands
  refine ⟨_, s, _, v, o, μ, μ', hs, hbusy, hv, ho, rfl, rfl, rfl, rfl, hsteps [], ?_,
    hkept 0 (.inr hbusy), (hexact 0).mpr (.inl hbusy)⟩
  rw [hvalue]
  simp only [indexedSum, Expr.var, Expr.long, Expr.worth, Expr.pathWorth, hp, hi, ha, Option.map_some,
    Option.getD_some]
  decide +kernel

end Flatword
