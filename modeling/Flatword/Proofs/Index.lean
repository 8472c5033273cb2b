import Flatword.Proofs.Pointer

/-!
# Computed indexes

Constant indexes of an array are summed up at once, the others in a scratch place, each times the stride of
its dimension. The sum is then the offset of the header, and a member of the element adds to it.
-/

namespace Flatword.Lower

variable {member struct : String} {op : BinaryOp} {word : Word} {safe : Memory → Prop}
  {value : Memory → Word} {m : Machine} {f : Frame} {s t u w : Scope} {F : Set Nat} {x : Slot}
  {o : Fetch} {v : Lowered}

/-! ## Indexes that are changed -/

theorem Awaits.self (h : Awaits m F s x o) : Awaits m (room s x) s x o :=
  { h with held := fun _ hc hscratch => .inr ⟨hc, hscratch⟩ }

theorem not_holds_ofWord (word : Word) (c : Nat) : ¬ (Slot.ofWord word).Holds c := by
  simp [Slot.Holds, Slot.ofWord, Slot.constant]

theorem isValue_ofWord (word : Word) : (Slot.ofWord word).isValue word = true := by
  simp [Slot.isValue, Slot.isConstant, Slot.ofWord, Slot.constant, Slot.value?]

theorem fetches_ofWord (word : Word) : (Slot.ofWord word).Fetches m (.constant word) :=
  .constant rfl rfl (by simp [Slot.ofWord, Slot.constant, Slot.value?])

theorem awaits_ofWord (F : Set Nat) (s : Scope) (word : Word) :
    Awaits m F s (.ofWord word) (.constant word) where
  fetches := fetches_ofWord word
  waits c hc := absurd hc (not_holds_ofWord word c)
  held c hc := absurd hc (not_holds_ofWord word c)
  header hk := by simp [Slot.ofWord, Slot.constant] at hk

theorem Carried.mono {G : Set Nat} {used : List Slot} (h : Carried m G used s value safe v t)
    (hF : G ⊆ F) : Carried m F used s value safe v t where
  rests := h.rests.mono hF
  labels := h.labels
  waits := h.waits
  held c hc hscratch := hF (h.held c hc hscratch)
  header := h.header
  busy := h.busy
  operand := by
    obtain ⟨o, ho, hruns⟩ := h.operand
    refine ⟨o, ho, fun μ hμ hsafe => ?_⟩
    obtain ⟨μ', hruns, hagree, hvalue⟩ := hruns μ hμ hsafe
    exact ⟨μ', hruns, hagree.mono hF, hvalue⟩

theorem update_seated {dest value : Slot} {o₁ o₂ : Fetch} {code : Code} (hs : s.Ready m)
    (hF : s.spare ⊆ F) (hdest : Awaits m F s dest o₁) (hvalue : Awaits m F s value o₂)
    (hapart : ∀ c, dest.Holds c → c ∈ s.scratch → ¬ value.Holds c) (hown : Gives (own dest) f s v u)
    (h : Gives (update op v.slot value) f u code t) :
    ∃ a, Seated m F [dest, value] s (fun μ => m.alu.apply op (o₁.read μ) (o₂.read μ))
      (fun μ => o₁.Lands m s.scratch μ ∧ o₂.Lands m s.scratch μ) ⟨v.slot, v.code ++ code⟩ t a := by
  unfold update at h
  split at h
  · next hone =>
    obtain ⟨rfl, rfl⟩ := gives_pure.mp h
    refine stepOne_seated (f := f) hs hF hdest hvalue hone ?_
    simp only [stepOperand, gives_bind, gives_pure]
    exact ⟨v, u, hown, rfl, rfl⟩
  · simp only [gives_bind, gives_pure] at h
    obtain ⟨flat, s₁, hflat, _, s₂, hrelease, _, s₃, hback, rfl, rfl⟩ := h
    obtain ⟨a, hseated, hplace⟩ := own_seated hs hdest hown
    have hbeside : releaseBeside v.slot value = releaseOperand value := by
      refine if_pos ?_
      rw [hseated.isAt.1]
      exact fun heq => (hvalue.after_own hseated hplace hapart).1 (.inl heq)
    refine operate_seated (f := f) hs hF hdest hvalue hapart ?_
    simp only [operate, gives_bind, gives_pure]
    exact ⟨v, u, hown, flat, s₁, hflat, _, s₂, hrelease, _, s₃, hbeside ▸ hback,
      by rw [List.append_assoc], rfl⟩

theorem shiftedIndex_seated (hs : s.Ready m) (hF : s.spare ⊆ F) (hx : Awaits m F s x o)
    (h : Gives (shiftedIndex op x word) f s v t) :
    ∃ a, Seated m F [x] s (fun μ => m.alu.apply op (o.read μ) word) (o.Lands m s.scratch) v t a := by
  simp only [shiftedIndex, gives_bind, gives_pure] at h
  obtain ⟨place, s₁, hown, code, s₂, hupdate, rfl, rfl⟩ := h
  obtain ⟨a, ha⟩ := update_seated hs hF hx (awaits_ofWord F s word)
    (fun c _ _ => not_holds_ofWord word c) hown hupdate
  exact ⟨a, (ha.of_used (by simp)).congr (fun μ hlands => ⟨hlands, Fetch.lands_constant word⟩)
    fun μ => rfl⟩

theorem scaledIndex_carried {stride : Word} (hs : s.Ready m)
    (hmul : ∀ a b, m.alu.apply .mul a b = a * b) (hF : s.spare ⊆ F) (hx : Awaits m F s x o)
    (h : Gives (scaledIndex stride x) f s v t) :
    Carried m F [x] s (fun μ => o.read μ * stride) (o.Lands m s.scratch) v t ∧
      v.slot.isPlain = true := by
  unfold scaledIndex at h
  split at h
  · next hone =>
    obtain ⟨hcarried, hp⟩ := plainIndex_carried hs hF hx h
    refine ⟨hcarried.congr (fun _ => id) fun μ _ => ?_, hp⟩
    rw [hone, UInt64.mul_one]
  · obtain ⟨a, ha⟩ := shiftedIndex_seated hs hF hx h
    exact ⟨ha.carried.congr (fun _ => id) fun μ _ => (hmul ..).symm, ha.plain⟩

theorem Awaits.after {y : Slot} {p : Fetch} (hy : Awaits m F s y p)
    (hx : Carried m (room s x) [x] s value safe v t)
    (hapart : ∀ c, x.Holds c → c ∈ s.scratch → ¬ y.Holds c) :
    Awaits m F t y p ∧ ∀ c, y.Holds c → c ∉ room s x := by
  have hroom : ∀ c, y.Holds c → c ∉ room s x := by
    rintro c hc (hspare | ⟨hheld, hscratch⟩)
    · exact hy.waits c hc hspare
    · exact hapart c hheld hscratch hc
  refine ⟨⟨hy.fetches, fun c hc hspare => hroom c hc (hx.rests.spare hspare), ?_, ?_⟩, hroom⟩
  · exact fun c hc hscratch => hy.held c hc (hx.rests.continues.scratch ▸ hscratch)
  · exact fun hk c hc => hx.rests.continues.scratch ▸ hy.header hk c hc

/-! ## Sums of indexes -/

namespace IndexSum

/-- The computed part of a sum, which is zero as long as there is none. -/
def total (sum : IndexSum) : Slot :=
  sum.stored.getD (.ofWord 0)

/-- The known part of a sum and the computed one, which waits, together make up a value. -/
structure Adds (m : Machine) (s : Scope) (value : Memory → Word) (safe : Memory → Prop)
    (sum : IndexSum) (t : Scope) : Prop where
  plain : ∀ y ∈ sum.stored, y.isPlain = true
  pending : Pending m s (fun μ => value μ - sum.known) safe ⟨sum.total, sum.code⟩ t

variable {sum sum' : IndexSum} {value val : Memory → Word} {safe safe' : Memory → Prop} {stride : Word}
  {index : Lowered}

theorem Adds.congr {value' : Memory → Word} (h : sum.Adds m s value safe t)
    (hsafe : ∀ μ, safe' μ → safe μ) (hvalue : ∀ μ, safe' μ → value' μ = value μ) :
    sum.Adds m s value' safe' t where
  plain := h.plain
  pending := h.pending.congr hsafe fun μ hμ => by rw [hvalue μ hμ]

theorem adds_empty (s : Scope) : Adds m s (fun _ => 0) (fun _ => True) {} s where
  plain := by simp
  pending := by
    refine pending_of_notes (.refl s) (fetches_ofWord 0) (by simp [total, Slot.ofWord, Slot.constant])
      (by simp [Fetch.cells]) fun μ _ => ⟨rfl, Fetch.lands_constant 0⟩

theorem Adds.addKnown {known : Word} (hs : s.Ready m) (hsum : sum.Adds m s value safe t)
    (hindex : Pending m t val safe' index u) (hknown : index.slot.isValue known = true)
    (hsteady : ∀ {μ μ'}, AgreeOutside s.spare μ μ' → safe' μ → val μ' = val μ ∧ safe' μ') :
    Adds m s (fun μ => value μ + val μ * stride) (fun μ => safe μ ∧ safe' μ)
      { sum with known := sum.known + known * stride, code := sum.code ++ index.code } u := by
  refine ⟨hsum.plain, ?_⟩
  obtain ⟨o₁, o₂, ho₁, ho₂, hapart, hpair⟩ := hsum.pending.pair hs hindex hsteady
  have hnone : ∀ c, ¬ index.slot.Holds c := fun c =>
    ho₂.suits.not_holds (Bool.and_eq_true_iff.mp hknown).1
  have hrests := hsum.pending.rests.trans hindex.rests
  refine ⟨hrests.mono hsum.pending.rests.spare, ?_, ho₁.waits, ?_, ?_, fun c hc => ?_, o₁, ho₁.fetches,
    fun μ hμ hsafe => ?_⟩
  · simp [hsum.pending.labels, hindex.labels]
  · exact fun c hc hscratch => ho₁.held c hc (hrests.continues.scratch ▸ hscratch)
  · exact fun hk c hc => hrests.continues.scratch ▸ ho₁.header hk c hc
  · exact hsum.pending.busy c ((hindex.busy c hc).resolve_right (hnone c)).1
  · obtain ⟨μ', hruns, hagree, hvalue₁, hvalue₂, hlands, -⟩ := hpair μ hμ hsafe.1 hsafe.2
    refine ⟨μ', hruns, hagree, ?_, hrests.continues.scratch ▸ hlands⟩
    have hval : known = val μ := (ho₂.fetches.eq_of_isValue hknown μ').symm.trans hvalue₂
    rw [hvalue₁, hval]
    grind

theorem Adds.addStored (hs : s.Ready m) (hmul : ∀ a b, m.alu.apply .mul a b = a * b)
    (hsum : sum.Adds m s value safe t) (hindex : Pending m t val safe' index u)
    (hsteady : ∀ {μ μ'}, AgreeOutside s.spare μ μ' → safe' μ → val μ' = val μ ∧ safe' μ')
    (h : Gives (IndexSum.addStored { sum with code := sum.code ++ index.code } stride index.slot) f u sum' w) :
    sum'.Adds m s (fun μ => value μ + val μ * stride) (fun μ => safe μ ∧ safe' μ) w := by
  obtain ⟨o₁, o₂, ho₁, ho₂, hapart, hpair⟩ := hsum.pending.pair hs hindex hsteady
  have hrests := hsum.pending.rests.trans hindex.rests
  have hspare := hindex.rests.spare.trans hsum.pending.rests.spare
  have hu := hrests.continues.ready hs
  have hlabels : (sum.code ++ index.code).labels = [] := by simp [hsum.pending.labels, hindex.labels]
  have hbusy {c : Nat} (hc : u.pool.Busy c) : s.pool.Busy c ∨ sum.total.Holds c ∨ index.slot.Holds c := by
    rcases hindex.busy c hc with ⟨hc, -⟩ | hc
    · exact (hsum.pending.busy c hc).imp And.left .inl
    · exact .inr (.inr hc)
  simp only [IndexSum.addStored, gives_bind] at h
  obtain ⟨term, s₁, hscaled, h⟩ := h
  obtain ⟨hterm, hplain⟩ := scaledIndex_carried hu hmul (spare_subset_room u index.slot) ho₂.self hscaled
  have hroom : room u index.slot ⊆ s.spare := ho₂.room_subset hspare
  split at h
  · next hnone =>
    obtain ⟨rfl, rfl⟩ := gives_pure.mp h
    refine ⟨by simpa using hplain, ?_⟩
    have hzero : sum.total = .ofWord 0 := by simp [total, show sum.stored = none from hnone]
    refine Carried.after hs hrests hlabels (fun c hc => ?_) (fun μ hμ hsafe => ?_) (hterm.mono hroom)
    · refine (hbusy hc).imp_right fun hc => ⟨index.slot, by simp, hc.resolve_left ?_⟩
      rw [hzero]
      exact not_holds_ofWord 0 c
    · obtain ⟨μ', hruns, hagree, hvalue₁, hvalue₂, -, hlands⟩ := hpair μ hμ hsafe.1 hsafe.2
      refine ⟨μ', hruns, hagree, ?_, hlands⟩
      rw [ho₁.fetches.eq_of_isValue (hzero ▸ isValue_ofWord 0)] at hvalue₁
      rw [hvalue₂]
      grind
  · next total hsome =>
    simp only [gives_bind, gives_pure] at h
    obtain ⟨place, s₂, hown, code, s₃, hupdate, rfl, rfl⟩ := h
    have htotal : sum.total = total := by simp [IndexSum.total, show sum.stored = some total from hsome]
    obtain ⟨hwaits, hfar⟩ := ho₁.after hterm fun c hc hscratch hc' => hapart c hc' hscratch hc
    obtain ⟨p, hp, hcode⟩ := hterm.operand
    have hterm' := (hterm.mono hroom).awaits hp
    have h₁ := hrests.trans hterm.rests
    rw [htotal] at hwaits hfar
    obtain ⟨a, ha⟩ := update_seated (h₁.continues.ready hs) (hterm.rests.spare.trans hroom) hwaits hterm'
      (fun c hc hscratch hc' => hfar c hc (hterm.held c hc' (hterm.rests.continues.scratch ▸ hscratch)))
      hown hupdate
    refine ⟨by simpa using ha.plain, ?_⟩
    rw [IndexSum.total, List.append_assoc]
    have hlabels₁ : (sum.code ++ index.code ++ term.code).labels = [] := by
      rw [Code.labels_append, hlabels, hterm.labels, List.append_nil]
    refine Carried.after hs h₁ hlabels₁ (fun c hc => ?_) (fun μ hμ hsafe => ?_) ha.carried
    · rcases hterm.busy c hc with ⟨hc, hnot⟩ | hc
      · refine (hbusy hc).imp_right fun hc => ⟨total, by simp, ?_⟩
        rw [htotal] at hc
        exact hc.resolve_right (hnot index.slot (by simp))
      · exact .inr ⟨term.slot, by simp, hc⟩
    · obtain ⟨μ₁, hruns₁, hagree₁, hvalue₁, hvalue₂, hlands₁, hlands₂⟩ := hpair μ hμ hsafe.1 hsafe.2
      have hμ₁ : u.ground.HoldIn μ₁ :=
        hrests.continues.ground ▸ hs.holdIn (hagree₁.mono s.spare_subset_scratch) hμ
      obtain ⟨μ₂, hruns₂, hagree₂, hvalue, hlands⟩ := hcode μ₁ hμ₁ hlands₂
      have hscratch : room u index.slot ⊆ u.scratch :=
        hroom.trans (hrests.continues.scratch ▸ s.spare_subset_scratch)
      obtain ⟨hread, hlands₁⟩ := Fetch.stays hagree₂ hscratch
        (fun c hc => hfar c (hwaits.fetches.holds_iff.mpr hc)) hlands₁
      have hs₁ := hterm.rests.continues.scratch
      refine ⟨μ₂, hruns₁.append hruns₂, hagree₁.trans (hagree₂.mono hroom), ?_, hs₁ ▸ hlands₁, hs₁ ▸ hlands⟩
      rw [m.alu.add, hread, hvalue, hvalue₁, hvalue₂]
      grind

theorem Adds.addIndex {index : Lower Lowered} {dimension : Word} (hs : s.Ready m)
    (hmul : ∀ a b, m.alu.apply .mul a b = a * b) (hsum : sum.Adds m s value safe t)
    (hindex : ∀ {v u}, Gives index f t v u → Pending m t val safe' v u)
    (hsteady : ∀ {μ μ'}, AgreeOutside s.spare μ μ' → safe' μ → val μ' = val μ ∧ safe' μ')
    (h : Gives (sum.addIndex dimension stride index) f t sum' w) :
    sum'.Adds m s (fun μ => value μ + val μ * stride) (fun μ => safe μ ∧ safe' μ) w := by
  simp only [IndexSum.addIndex, gives_bind] at h
  obtain ⟨v, s₁, hv, h⟩ := h
  have hv := hindex hv
  split at h
  · next hc =>
    simp only [constantWord, gives_bind, gives_orFail] at h
    obtain ⟨known, _, ⟨hknown, rfl⟩, h⟩ := h
    split at h
    · simp at h
    obtain ⟨rfl, rfl⟩ := gives_pure.mp h
    exact hsum.addKnown hs hv (by simp [Slot.isValue, hc, hknown]) hsteady
  · exact hsum.addStored hs hmul hv hsteady h

end IndexSum

/-- The distance that indexes add up to. -/
def strideSum : (strides indexes : List Word) → Word
  | stride :: strides, index :: indexes => index * stride + strideSum strides indexes
  | _, _ => 0

theorem IndexSum.Adds.addIndexes {sum sum' : IndexSum} {base : Scope} {es : List Expr}
    {dimensions strides : List Word} (hbase : base.Ready m) (hmul : ∀ a b, m.alu.apply .mul a b = a * b)
    (hes : ∀ e ∈ es, e.IsPointed (base.ground.plain? f.function) base.scratch)
    (hlength : es.length = dimensions.length) (hs : base.Continues s) (hsum : sum.Adds m s value safe t)
    (h : Gives (sum.addIndexes dimensions strides (es.map Expr.lower)) f t sum' w) :
    sum'.Adds m s
      (fun μ => value μ + strideSum strides (es.map (Expr.worth m.alu (base.ground.plain? f.function) μ)))
      (fun μ => safe μ ∧ ∀ e ∈ es, e.Lands m (base.ground.plain? f.function) base.scratch μ) w := by
  induction es generalizing sum value safe dimensions strides t with
  | nil =>
    obtain ⟨rfl, rfl⟩ : sum = sum' ∧ t = w := by simpa [IndexSum.addIndexes] using h
    exact hsum.congr (fun μ hμ => hμ.1) fun μ _ => by simp [strideSum]
  | cons e es ih =>
    obtain _ | ⟨dimension, dimensions⟩ := dimensions
    · simp at hlength
    obtain _ | ⟨stride, strides⟩ := strides
    · obtain ⟨rfl, rfl⟩ : sum = sum' ∧ t = w := by simpa [IndexSum.addIndexes] using h
      exact hsum.congr (fun μ hμ => hμ.1) fun μ _ => by simp [strideSum]
    simp only [List.map_cons, IndexSum.addIndexes, gives_bind] at h
    obtain ⟨sum₁, s₁, hfirst, h⟩ := h
    have he := hes e (by simp)
    have hscratch : s.spare ⊆ base.scratch := hs.scratch ▸ s.spare_subset_scratch
    have hfirst := hsum.addIndex (hs.ready hbase) hmul
      (fun h => pending_of_isPointed hbase he rfl (hs.trans hsum.pending.rests.continues) h)
      (fun {μ μ'} hμ hlands => by
        obtain ⟨hworth, hreached⟩ := he.steady (hμ.mono hscratch) hlands
        exact ⟨hworth, fun c hc => hlands c (hreached ▸ hc)⟩) hfirst
    refine (ih (fun e he => hes e (by simp [he])) (by simpa using hlength) hfirst h).congr
      (fun μ hμ => ⟨⟨hμ.1, hμ.2 e (by simp)⟩, fun e he => hμ.2 e (by simp [he])⟩) fun μ _ => ?_
    simp only [List.map_cons, strideSum, UInt64.add_assoc]

/-! ## Elements and members -/

/-- A value becomes the offset of a header: it waits in a plain word, at the address that the offset
names. -/
def Displaced (m : Machine) (s : Scope) (header : Slot) (value : Memory → Word) (safe : Memory → Prop)
    (v : Lowered) (t : Scope) : Prop :=
  ∃ y b, y.isPlain = true ∧ y.address = some b ∧
    v.slot = { header with offset := some (.stored b), type := v.slot.type } ∧
    Pending m s value safe ⟨y, v.code⟩ t

section Displaced

variable {header y : Slot} {value : Memory → Word} {safe : Memory → Prop} {code : Code} {b : Nat}

theorem Carried.shifted (hs : s.Ready m) (hy : y.isPlain = true) (hb : y.address = some b)
    (h : Pending m s value safe ⟨y, code⟩ t) (hx : x.Fetches m (.word b))
    (hheader : x.kind = .array → b ∉ s.scratch) (hshift : Gives (shiftedIndex .add x word) f t v w) :
    Pending m s (fun μ => value μ + word) safe ⟨v.slot, code ++ v.code⟩ w ∧ v.slot.isPlain = true := by
  obtain ⟨o, ho, hcode⟩ := h.operand
  obtain rfl := ho.eq_word hy hb
  have hsame {c : Nat} : x.Holds c ↔ y.Holds c := hx.holds_iff.trans ho.holds_iff.symm
  have hat : x.address = some b := by
    cases hx with
    | word _ ha => exact ha.1
  have hawaits : Awaits m s.spare t x (.word b) :=
    ⟨hx, fun c hc => h.waits c (hsame.mp hc),
      fun c hc hscratch => h.held c (hsame.mp hc) (h.rests.continues.scratch ▸ hscratch),
      fun hk c hc => h.rests.continues.scratch ▸ Option.some.inj (hat.symm.trans hc) ▸ hheader hk⟩
  obtain ⟨a, ha⟩ := shiftedIndex_seated (h.rests.continues.ready hs) h.rests.spare hawaits hshift
  refine ⟨Carried.after hs h.rests h.labels (fun c hc => ?_) (fun μ hμ hsafe => ?_) ha.carried, ha.plain⟩
  · exact (h.busy c hc).imp And.left fun hc => ⟨x, by simp, hsame.mpr hc⟩
  · obtain ⟨μ', hruns, hagree, hvalue, -⟩ := hcode μ hμ hsafe
    refine ⟨μ', hruns, hagree, ?_, Fetch.lands_word b⟩
    rw [m.alu.add, hvalue]

theorem computedCell_displaced {item : ArrayItem} {distance : Word} (hs : s.Ready m)
    (hy : y.isPlain = true) (h : Pending m s value safe ⟨y, code⟩ t)
    (hcell : Gives (computedCell header item y distance) f t v w) :
    Displaced m s header (fun μ => value μ + distance) safe ⟨v.slot, code ++ v.code⟩ w ∧
      v.slot.type = item.type := by
  simp only [computedCell, gives_bind, gives_orFail, gives_pure] at hcell
  obtain ⟨place, s₁, hplace, b, _, ⟨hb, rfl⟩, rfl, rfl⟩ := hcell
  refine ⟨⟨place.slot, b, ?_⟩, rfl⟩
  unfold advancedIndex at hplace
  split at hplace
  · next hzero =>
    obtain ⟨rfl, rfl⟩ := gives_pure.mp hplace
    refine ⟨hy, hb, rfl, ?_⟩
    rw [List.append_nil]
    exact h.congr (fun _ => id) fun μ _ => by rw [hzero, UInt64.add_zero]
  · obtain ⟨o, ho, hcode⟩ := h.operand
    have ho : y.Fetches m o := ho
    have hk : y.kind ≠ .array := Slot.kind_ne_of_isPlain hy
    obtain ⟨a, ha⟩ : ∃ a, y.address = some a := by
      cases ho with
      | constant hc => simp_all [Slot.isConstant, Slot.isPlain, Kind.isRegular]
      | word _ ha => exact ⟨_, ha.1⟩
      | behind _ hoffset => simp [Slot.offset_of_isPlain hy] at hoffset
      | indexed _ hoffset => simp [Slot.offset_of_isPlain hy] at hoffset
    obtain ⟨hpending, hp⟩ := h.shifted hs hy ha (ho.eq_word hy ha ▸ ho) (fun hk' => absurd hk' hk) hplace
    exact ⟨hp, hb, rfl, hpending⟩

theorem wordMember_gives {distance : Nat} {template : Slot}
    (h : Gives (wordMember struct member) f s (distance, template) t) :
    t = s ∧ ∃ S, s.session.catalog.findStruct? struct "" = some S ∧
      S.member? member = some (distance, template) ∧ template.kind ≠ .array ∧ template.kind ≠ .struct := by
  simp only [wordMember, gives_bind, gives_get, gives_orFail] at h
  obtain ⟨_, _, ⟨rfl, rfl⟩, S, _, ⟨hS, rfl⟩, pair, _, ⟨hpair, rfl⟩, h⟩ := h
  split at h
  · simp at h
  · next hk =>
    obtain ⟨hsame, rfl⟩ := gives_pure.mp h
    obtain rfl : pair = (distance, template) := hsame
    exact ⟨rfl, S, hS, hpair, not_or.mp hk⟩

theorem memberOfCell_displaced {cell : Lowered} {index : Nat} (hs : s.Ready m)
    (hheaders : ∀ x, s.Knows x → x.kind = .array → ∀ a, x.address = some a → a ∉ s.scratch)
    (hcell : Displaced m s header value safe cell t) (hindex : cell.slot.offset = some (.stored index))
    (h : Gives (memberOfCell cell.slot struct index member) f t v w) :
    ∃ S distance template, t.session.catalog.findStruct? struct "" = some S ∧
      S.member? member = some (distance, template) ∧
      Displaced m s header (fun μ => value μ + UInt64.ofNat distance) safe ⟨v.slot, cell.code ++ v.code⟩ w := by
  obtain ⟨y, b, hy, hb, hslot, hpending⟩ := hcell
  obtain rfl : b = index := by
    rw [hslot] at hindex
    exact Offset.stored.inj (Option.some.inj hindex)
  obtain ⟨o, ho, -⟩ := hpending.operand
  have ho : y.Fetches m o := ho
  have hheld : y.Fetches m (.word b) := ho.eq_word hy hb ▸ ho
  unfold memberOfCell at h
  obtain ⟨⟨distance, template⟩, s₁, hmember, hrest⟩ := gives_bind.mp h
  obtain ⟨rfl, S, hS, hfound, hkind⟩ := wordMember_gives hmember
  refine ⟨S, distance, template, hS, hfound, ?_⟩
  obtain ⟨x, s₂, hx, hrest⟩ := gives_bind.mp hrest
  obtain ⟨hknows, hnotes⟩ := lookupAt_notes hx
  have hcontinues := hpending.rests.continues
  have hlooked : Pending m s value safe ⟨y, cell.code⟩ s₂ :=
    { hpending with
      rests := hpending.rests.trans ((Scope.Rests.of_notes hnotes).mono hpending.rests.spare)
      waits := fun c hc => hnotes.spare ▸ hpending.waits c hc
      busy := fun c hc => hpending.busy c (hnotes.pool ▸ hc) }
  split at hrest
  · next hzero =>
    obtain ⟨rfl, rfl⟩ := gives_pure.mp hrest
    refine ⟨y, b, hy, hb, ?_, ?_⟩
    · rw [hslot]
    · rw [List.append_nil]
      exact hlooked.congr (fun _ => id) fun μ _ => by rw [hzero]; exact UInt64.add_zero _
  · simp only [gives_bind, gives_orFail, gives_pure] at hrest
    obtain ⟨total, s₃, htotal, a, _, ⟨ha, rfl⟩, rfl, rfl⟩ := hrest
    obtain ⟨hstruct, ho, hat⟩ := lookupAt_isAt (hcontinues.ready hs).placed hx
    have hvoid : x.kind ≠ .void := by
      rintro hk
      simp [shiftedIndex, own, hk] at htotal
    have hconstant : x.kind ≠ .constant := by
      rintro hk
      have hnone := ((hcontinues.ready hs).regular.suits hknows).constant hk
      simp [hat.1] at hnone
    have hfetch : x.Fetches m (.word b) := by
      refine .word ?_ hat
      rcases hk : x.kind
      case array => exact .inr ⟨rfl, ho⟩
      case struct => exact absurd hk hstruct
      case void => exact absurd hk hvoid
      case constant => exact absurd hk hconstant
      all_goals exact .inl (by simp [Slot.isPlain, Kind.isRegular, hk, ho])
    obtain ⟨hshifted, hp⟩ := hlooked.shifted hs hy hb hfetch
      (fun hk => hheaders x (hknows.congr hcontinues.ground.symm) hk b hat.1) htotal
    exact ⟨total.slot, a, hp, ha, by rw [hslot], hshifted⟩

end Displaced

end Flatword.Lower
