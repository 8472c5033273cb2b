import Flatword.Proofs.Fetch

/-!
# Computing with operands that wait

Operators bring one operand into a scratch place of its own and change it there, while the other one
waits behind its pointer. What an operand holds is given back when it is used up, and what the result
holds is new.
-/

namespace Flatword.Lower

variable {G F : Set Nat} {g : Word → Word} {operand : Lower Lowered}
  {safe' safe₁ safe₂ safe : Memory → Prop} {value' val value : Memory → Word} {v₁ v : Lowered}
  {a : Nat} {op : BinaryOp} {o₁ o₂ o : Fetch} {used : List Slot} {m : Machine} {f : Frame}
  {s t u : Scope} {x : Slot}

/-- An operand that is not in the way of what is computed next. Of the scratch places it holds only
some of `F`. -/
structure Awaits (m : Machine) (F : Set Nat) (s : Scope) (x : Slot) (o : Fetch) : Prop where
  fetches : x.Fetches m o
  waits : ∀ a, x.Holds a → a ∉ s.spare
  held : ∀ a, x.Holds a → a ∈ s.scratch → a ∈ F
  header : x.kind = .array → ∀ a, x.address = some a → a ∉ s.scratch

theorem Awaits.suits (h : Awaits m F s x o) : s.ground.Suits x := by
  constructor
  · intro hk hmem
    obtain ⟨r, hr, ha⟩ := List.mem_map.mp hmem
    cases hx : x.address with
    | none =>
      cases h.fetches with
      | constant hc => simp [Slot.isConstant, hk] at hc
      | word _ ha => simp [ha.1] at hx
      | behind _ _ ha => simp [ha.1] at hx
      | indexed _ _ ha => simp [ha.1] at hx
    | some a =>
      exact h.header hk a hx (.inl (List.mem_map.mpr ⟨r, hr, ha.trans hx⟩))
  · intro hk
    cases h.fetches with
    | constant _ ha => exact ha
    | word hkind => rcases hkind with hp | ⟨hkind, -⟩ <;> simp_all [Slot.isPlain, Kind.isRegular]
    | behind hkind => simp [hk, Kind.isRegular] at hkind
    | indexed hkind => simp [hk, Kind.isRegular] at hkind

/-- A value in a place `a` of its own, one of the places `F`. The operands `used` have been given
back. -/
structure Seated (m : Machine) (F : Set Nat) (used : List Slot) (s : Scope) (value : Memory → Word)
    (safe : Memory → Prop) (v : Lowered) (t : Scope) (a : Nat) : Prop where
  plain : v.slot.isPlain = true
  isAt : v.slot.IsAt m a
  rests : s.Rests (F \ {a}) t
  mem : a ∈ F
  labels : v.code.labels = []
  busy : ∀ c, t.pool.Busy c → s.pool.Busy c ∧ (∀ x ∈ used, ¬ x.Holds c) ∨ c = a
  runs : ∀ μ, s.ground.HoldIn μ → safe μ →
    ∃ μ', m.Runs v.code μ μ' ∧ AgreeOutside F μ μ' ∧ μ' a = value μ

def room (s : Scope) (x : Slot) : Set Nat :=
  {c | c ∈ s.spare ∨ x.Holds c ∧ c ∈ s.scratch}

theorem spare_subset_room (s : Scope) (x : Slot) : s.spare ⊆ room s x :=
  fun _ => .inl

theorem Awaits.room_subset (h : Awaits m F s x o) (hF : s.spare ⊆ F) : room s x ⊆ F := by
  rintro c (hc | ⟨hc, hscratch⟩)
  · exact hF hc
  · exact h.held c hc hscratch

/-! ## Places of their own -/

theorem copyToScratch_seated (hs : s.Ready m) (hx : Awaits m F s x o)
    (h : Gives (copyToScratch x) f s v t) :
    ∃ a, Seated m (room s x) [x] s o.read (o.Lands m s.scratch) v t a ∧ a ∈ s.spare := by
  have hbusy (c : Nat) := copyToScratch_busy (a := c) hs.regular h
  simp only [copyToScratch, gives_bind, gives_pure] at h
  obtain ⟨place, s₁, hplace, code, s₂, hassign, _, s₃, hrelease, rfl, rfl⟩ := h
  obtain ⟨a, hp, ha, hmem, hspare, hcontinues, hsession⟩ := allocate_spare hs.placed hplace
  have hs₁ := hcontinues.ready hs
  have hfetched := assign_fetches hs₁.placed hp ha hx.fetches
    (fun c hc hmem => hx.waits c hc (hspare ▸ hmem).1) hassign
  have h₂ := hcontinues.trans hfetched.rests.continues
  have hroom : s₂.spare ⊆ room s x \ {a} := fun c hc =>
    ⟨.inl (hspare ▸ hfetched.rests.spare hc).1, (hspare ▸ hfetched.rests.spare hc).2⟩
  have hback : s₂.Rests (room s x \ {a}) s₃ := by
    refine releaseOperand_rests (h₂.ready hs).regular (fun c hc hregister => ?_) hroom hrelease
    rw [h₂.registers] at hregister
    refine ⟨.inr ⟨hc, .inl hregister⟩, ?_⟩
    rintro rfl
    exact hx.waits c hc hmem
  have hjumps : s₂.session.jumps = s.session.jumps := by rw [hfetched.rests.jumps, hsession]
  refine ⟨a, ⟨(isPlain_typed hp _).1, isAt_typed ha _,
    ⟨h₂.trans hback.continues, hback.jumps.trans hjumps, hback.spare⟩, .inl hmem, hfetched.labels,
    fun c hc => ?_, fun μ hμ hlands => ?_⟩, hmem⟩
  · rcases (hbusy c).2 hc with hc | hc
    · exact .inl (by simpa using hc)
    · exact .inr (Option.some.inj (hc.symm.trans (isAt_typed ha _).1))
  · obtain ⟨μ', hruns, hagree, hvalue⟩ := hfetched.runs μ (hcontinues.ground ▸ hμ)
      (hlands.mono (hcontinues.scratch ▸ s₁.spare_subset_scratch))
    refine ⟨μ', hruns, hagree.mono (Set.insert_subset (.inl hmem) fun c hc => ?_), hvalue⟩
    exact .inl (hspare ▸ hc).1

theorem loadInPlace_seated (hs : s.Ready m) (hx : Awaits m F s x o) (hk : x.kind.isRegular = true)
    (ha : x.IsAt m a) (hscratch : a ∈ s.scratch) (h : Gives (loadInPlace x) f s v t) :
    Seated m (room s x) [x] s o.read (o.Lands m s.scratch) v t a := by
  have hbusy (c : Nat) := loadInPlace_busy (a := c) hs.regular h
  have hp : (x.withOffset none).isPlain = true := by simp [Slot.isPlain, Slot.withOffset, hk]
  have hholds : x.Holds a := .inl ha.1
  simp only [loadInPlace, gives_bind] at h
  obtain ⟨code, s₁, hassign, h⟩ := h
  have hat : (x.withOffset none).IsAt m a := ha
  have hfetched := assign_fetches hs.placed hp hat hx.fetches hx.waits hassign
  have hroom : s₁.spare ⊆ room s x \ {a} := by
    refine fun c hc => ⟨.inl (hfetched.rests.spare hc), ?_⟩
    rintro rfl
    exact hx.waits c hholds (hfetched.rests.spare hc)
  have hrests : v = ⟨x.withOffset none, code⟩ ∧ s₁.Rests (room s x \ {a}) t := by
    split at h
    · next index ho =>
      split at h
      · next hne =>
        simp only [gives_bind, gives_pure] at h
        obtain ⟨_, s₂, hrelease, rfl, rfl⟩ := h
        refine ⟨rfl, release_rests (hfetched.rests.continues.ready hs).regular ?_ hroom hrelease⟩
        intro c hc hregister
        obtain rfl := Option.some.inj hc
        rw [hfetched.rests.continues.registers] at hregister
        refine ⟨.inr ⟨.inr ho, .inl hregister⟩, ?_⟩
        rintro rfl
        exact hne ha.1
      · obtain ⟨rfl, rfl⟩ := gives_pure.mp h
        exact ⟨rfl, .refl hroom⟩
    · obtain ⟨rfl, rfl⟩ := gives_pure.mp h
      exact ⟨rfl, .refl hroom⟩
  obtain ⟨rfl, hrests⟩ := hrests
  refine ⟨hp, ha, hfetched.rests.trans hrests, .inr ⟨hholds, hscratch⟩, hfetched.labels,
    fun c hc => ?_, fun μ hμ hlands => ?_⟩
  · rcases (hbusy c).2 hc with hc | hc
    · exact .inl (by simpa using hc)
    · exact .inr (Option.some.inj (hc.symm.trans ha.1))
  · obtain ⟨μ', hruns, hagree, hvalue⟩ := hfetched.runs μ hμ (hlands.mono s.spare_subset_scratch)
    exact ⟨μ', hruns, hagree.mono (Set.insert_subset (.inr ⟨hholds, hscratch⟩) (spare_subset_room s x)),
      hvalue⟩

theorem own_seated (hs : s.Ready m) (hx : Awaits m F s x o) (h : Gives (own x) f s v t) :
    ∃ a, Seated m (room s x) [x] s o.read (o.Lands m s.scratch) v t a ∧
      (a ∈ s.spare ∨ x.Holds a ∧ a ∈ s.scratch) := by
  unfold own at h
  split at h
  · simp at h
  simp only [isTemp, gives_bind, gives_get, gives_pure] at h
  obtain ⟨temp, s₁, ⟨_, _, ⟨rfl, rfl⟩, rfl, rfl⟩, h⟩ := h
  split at h
  · obtain ⟨a, ha, hmem⟩ := copyToScratch_seated hs hx h
    exact ⟨a, ha, .inl hmem⟩
  next htemp =>
  obtain ⟨a, ha, hscratch⟩ := mem_scratch_of_isTemp (by simpa using htemp)
  have hkind : x.kind ≠ .array := fun hk => hx.header hk a ha hscratch
  have hholds : x.Holds a := .inl ha
  refine ⟨a, ?_, .inr ⟨hholds, hscratch⟩⟩
  split at h
  · next ho =>
    obtain ⟨rfl, rfl⟩ := gives_pure.mp h
    have ho : x.offset = none := Option.isNone_iff_eq_none.mp ho
    cases hx.fetches with
    | constant _ hnone => simp [hnone] at ha
    | word hk hat =>
      obtain rfl := Option.some.inj (ha.symm.trans hat.1)
      have hp : x.isPlain = true := hk.resolve_right fun hk => hkind hk.1
      refine ⟨hp, hat, .refl fun c hc => ⟨.inl hc, ?_⟩, .inr ⟨hholds, hscratch⟩, rfl, fun c hc => ?_,
        fun μ _ _ => ⟨μ, .nil, .refl _ μ, rfl⟩⟩
      · rintro rfl
        exact hx.waits c hholds hc
      · rcases busy_or_address ho hc with hc | hc
        · exact .inl (by simpa using hc)
        · exact .inr (Option.some.inj (hc.symm.trans hat.1))
    | behind _ ho' => simp [ho] at ho'
    | indexed _ ho' => simp [ho] at ho'
  · next ho =>
    have hload (hk : x.kind.isRegular = true) (hat : x.IsAt m a) :=
      loadInPlace_seated hs hx hk hat hscratch h
    cases hx.fetches with
    | constant _ hnone => simp [hnone] at ha
    | word hk hat => simp [hk.elim Slot.offset_of_isPlain And.right] at ho
    | behind hk _ hat =>
      obtain rfl := Option.some.inj (ha.symm.trans hat.1)
      exact hload hk hat
    | indexed hk _ hat =>
      obtain rfl := Option.some.inj (ha.symm.trans hat.1)
      exact hload (hk.resolve_right hkind) hat

theorem Seated.mono (h : Seated m G used s value safe v t a) (hF : G ⊆ F) :
    Seated m F used s value safe v t a where
  plain := h.plain
  isAt := h.isAt
  rests := h.rests.mono (Set.sdiff_subset_sdiff_left hF)
  mem := hF h.mem
  labels := h.labels
  busy := h.busy
  runs μ hμ hsafe := by
    obtain ⟨μ', hruns, hagree, hvalue⟩ := h.runs μ hμ hsafe
    exact ⟨μ', hruns, hagree.mono hF, hvalue⟩

theorem Seated.congr {value value' : Memory → Word} {safe safe' : Memory → Prop}
    (h : Seated m F used s value safe v t a) (hsafe : ∀ μ, safe' μ → safe μ)
    (hvalue : ∀ μ, value' μ = value μ) :
    Seated m F used s value' safe' v t a where
  __ := h
  runs μ hμ hsafe' := by
    obtain ⟨μ', hruns, hagree, hread⟩ := h.runs μ hμ (hsafe μ hsafe')
    exact ⟨μ', hruns, hagree, hread.trans (hvalue μ).symm⟩

theorem Seated.modify {instr : Instr} (h : Seated m F used s value safe v t a)
    (hlabel : Code.labels [instr] = []) (hinstr : ∀ μ, m.Runs [instr] μ (Function.update μ a (g (μ a)))) :
    Seated m F used s (fun μ => g (value μ)) safe ⟨v.slot, v.code ++ [instr]⟩ t a where
  plain := h.plain
  isAt := h.isAt
  rests := h.rests
  mem := h.mem
  labels := by simp [h.labels, hlabel]
  busy := h.busy
  runs μ hμ hsafe := by
    obtain ⟨μ', hruns, hagree, hvalue⟩ := h.runs μ hμ hsafe
    refine ⟨_, hruns.append (hinstr μ'), hagree.update h.mem _, ?_⟩
    rw [Function.update_self, hvalue]

/-! ## Operators -/

theorem stepOperand_seated {up : Bool} (hs : s.Ready m) (hF : s.spare ⊆ F) (hx : Awaits m F s x o)
    (h : Gives (stepOperand up x) f s v t) :
    ∃ a, Seated m F [x] s (fun μ => if up then o.read μ + 1 else o.read μ - 1)
      (o.Lands m s.scratch) v t a := by
  simp only [stepOperand, gives_bind, gives_pure] at h
  obtain ⟨v₁, s₁, hown, rfl, rfl⟩ := h
  obtain ⟨a, hown, -⟩ := own_seated hs hx hown
  refine ⟨a, (hown.mono (hx.room_subset hF)).modify (g := fun w => if up then w + 1 else w - 1) ?_
    fun μ => ?_⟩
  · cases up <;> rfl
  · exact Machine.runs_stepInstr hown.isAt.2 up

theorem Awaits.after_own {y : Slot} {p : Fetch} (hy : Awaits m F s y p)
    (hx : Seated m (room s x) [x] s value safe v t a) (hplace : a ∈ s.spare ∨ x.Holds a ∧ a ∈ s.scratch)
    (hapart : ∀ c, x.Holds c → c ∈ s.scratch → ¬ y.Holds c) :
    ¬ y.Holds a ∧ (∀ c, y.Holds c → c ∉ t.spare) ∧ ∀ c, y.Holds c → c ∉ room s x := by
  have hroom : ∀ c, y.Holds c → c ∉ room s x := by
    rintro c hc (hspare | ⟨hheld, hscratch⟩)
    · exact hy.waits c hc hspare
    · exact hapart c hheld hscratch hc
  refine ⟨fun ha => hroom a ha hplace, fun c hc hspare => ?_, hroom⟩
  exact hroom c hc (hx.rests.spare hspare).1

theorem operate_seated {dest value : Slot} (hs : s.Ready m) (hF : s.spare ⊆ F)
    (hdest : Awaits m F s dest o₁) (hvalue : Awaits m F s value o₂)
    (hapart : ∀ c, dest.Holds c → c ∈ s.scratch → ¬ value.Holds c)
    (h : Gives (operate op dest value) f s v t) :
    ∃ a, Seated m F [dest, value] s (fun μ => m.alu.apply op (o₁.read μ) (o₂.read μ))
      (fun μ => o₁.Lands m s.scratch μ ∧ o₂.Lands m s.scratch μ) v t a := by
  simp only [operate, gives_bind, gives_pure] at h
  obtain ⟨v₁, s₁, hown, flat, s₂, hflat, _, s₃, hrelease, _, s₄, hback, rfl, rfl⟩ := h
  obtain ⟨a, hown, hplace⟩ := own_seated hs hdest hown
  obtain ⟨hnot, hwaits₁, hroom⟩ := hvalue.after_own hown hplace hapart
  have h₁ := hown.rests.continues
  have hs₁ := h₁.ready hs
  -- The value shares no place with the result, so that it is given back.
  have hback : Gives (releaseOperand value) f s₃ () s₄ := by
    unfold releaseBeside at hback
    split at hback
    · exact hback
    · next heq =>
      rw [not_not, hown.isAt.1] at heq
      exact absurd (.inl heq) hnot
  have hbusy {c : Nat} (hc : s₄.pool.Busy c) : s₁.pool.Busy c ∧ ¬ value.Holds c :=
    flatten_releaseOperand_busy hs₁.regular hflat hrelease hback hc
  obtain ⟨b, hflat⟩ := flatten_fetches hs₁.placed hvalue.fetches hwaits₁ hflat
  have hsub : room s dest \ {a} ⊆ F \ {a} := Set.sdiff_subset_sdiff_left (hdest.room_subset hF)
  have hspare₁ : s₁.spare ⊆ F \ {a} := hown.rests.spare.trans hsub
  have h₂ := h₁.trans hflat.rests.continues
  have h₃ : s₂.Rests (F \ {a}) s₃ := by
    refine flatRelease_rests (h₂.ready hs).regular (fun hn c hc => ?_) (hflat.rests.spare.trans hspare₁)
      hrelease
    obtain rfl := Option.some.inj (hflat.isAt.1.symm.trans hc)
    exact hspare₁ (hflat.new hn)
  have h₄ : s₃.Rests (F \ {a}) s₄ := by
    refine releaseOperand_rests ((h₂.trans h₃.continues).ready hs).regular (fun c hc hregister => ?_)
      h₃.spare hback
    rw [(h₂.trans h₃.continues).registers] at hregister
    refine ⟨hvalue.held c hc (.inl hregister), ?_⟩
    rintro rfl
    exact hnot hc
  refine ⟨a, hown.plain, hown.isAt, ((hown.rests.trans hflat.rests).trans h₃).trans h₄,
    hdest.room_subset hF hown.mem, ?_, fun c hc => ?_, fun μ hμ hsafe => ?_⟩
  · simp only [Code.labels_append, hown.labels, hflat.labels]
    rfl
  · obtain ⟨hc, hvalue⟩ := hbusy hc
    refine (hown.busy c hc).imp_left fun hc => ⟨hc.1, ?_⟩
    simpa using ⟨hc.2 dest (by simp), hvalue⟩
  · obtain ⟨μ₁, hruns₁, hagree₁, hvalue₁⟩ := hown.runs μ hμ hsafe.1
    have hscratch : room s dest ⊆ s.scratch := by
      rintro c (hc | ⟨-, hc⟩)
      · exact s.spare_subset_scratch hc
      · exact hc
    have hμ₁ : s₁.ground.HoldIn μ₁ := h₁.ground ▸ hs.holdIn (hagree₁.mono hscratch) hμ
    obtain ⟨hread, hlands⟩ := Fetch.stays hagree₁ hscratch
      (fun c hc => hroom c (hvalue.fetches.holds_iff.mpr hc)) hsafe.2
    obtain ⟨μ₂, hruns₂, hagree₂, hvalue₂⟩ := hflat.runs μ₁ hμ₁
      (hlands.mono (h₁.scratch ▸ s₁.spare_subset_scratch))
    have ha : μ₂ a = o₁.read μ := by
      rw [hagree₂ a fun hmem => (hown.rests.spare hmem).2 rfl, hvalue₁]
    have hb : μ₂ b = o₂.read μ := hvalue₂.trans hread
    refine ⟨_, (hruns₁.append hruns₂).append (Machine.runs_arith op hown.isAt.2 hflat.isAt.2),
      ((hagree₁.mono (hdest.room_subset hF)).trans (hagree₂.mono (hspare₁.trans Set.sdiff_subset))).update
        (hdest.room_subset hF hown.mem) _, ?_⟩
    rw [Function.update_self, ha, hb]

theorem Seated.of_used {used used' : List Slot} (h : Seated m F used s value safe v t a)
    (hused : used' ⊆ used) : Seated m F used' s value safe v t a :=
  { h with busy := fun c hc => (h.busy c hc).imp_left fun hc => ⟨hc.1, fun x hx => hc.2 x (hused hx)⟩ }

theorem stepOne_seated {first second : Slot} (hs : s.Ready m) (hF : s.spare ⊆ F)
    (hfirst : Awaits m F s first o₁) (hsecond : Awaits m F s second o₂)
    (hone : (op = .add ∨ op = .sub) ∧ second.isValue 1 = true)
    (h : Gives (stepOperand (op = .add) first) f s v t) :
    ∃ a, Seated m F [first, second] s (fun μ => m.alu.apply op (o₁.read μ) (o₂.read μ))
      (fun μ => o₁.Lands m s.scratch μ ∧ o₂.Lands m s.scratch μ) v t a := by
  obtain ⟨a, ha⟩ := stepOperand_seated hs hF hfirst h
  -- The constant holds no place.
  have hnone : ∀ c, ¬ second.Holds c := fun c =>
    hsecond.suits.not_holds (Bool.and_eq_true_iff.mp hone.2).1
  have hstep : Seated m F [first, second] s _ _ v t a :=
    { ha with busy := fun c hc => (ha.busy c hc).imp_left fun hc => by simpa [hnone c] using hc }
  refine ⟨a, hstep.congr (fun μ h => h.1) fun μ => ?_⟩
  rw [hsecond.fetches.eq_of_isValue hone.2]
  rcases hone.1 with rfl | rfl
  · simp [m.alu.add]
  · simp [m.alu.sub]

theorem combine_seated {left right : Slot} (hs : s.Ready m) (hF : s.spare ⊆ F)
    (hleft : Awaits m F s left o₁) (hright : Awaits m F s right o₂)
    (hapart : ∀ c, left.Holds c → c ∈ s.scratch → ¬ right.Holds c)
    (h : Gives (combine op left right) f s v t) :
    ∃ a, Seated m F [left, right] s (fun μ => m.alu.apply op (o₁.read μ) (o₂.read μ))
      (fun μ => o₁.Lands m s.scratch μ ∧ o₂.Lands m s.scratch μ) v t a := by
  obtain ⟨first, second, horder, hcase⟩ := combine_cases h
  -- The operands are swapped only where the operator allows it.
  obtain ⟨p₁, p₂, hfirst, hsecond, hfirstApart, hused, hsafe, hswap⟩ :
      ∃ p₁ p₂, Awaits m F s first p₁ ∧ Awaits m F s second p₂ ∧
        (∀ c, first.Holds c → c ∈ s.scratch → ¬ second.Holds c) ∧
        [left, right] ⊆ [first, second] ∧
        (∀ μ, o₁.Lands m s.scratch μ ∧ o₂.Lands m s.scratch μ →
          p₁.Lands m s.scratch μ ∧ p₂.Lands m s.scratch μ) ∧
        ∀ μ, m.alu.apply op (o₁.read μ) (o₂.read μ) = m.alu.apply op (p₁.read μ) (p₂.read μ) := by
    rcases horder with heq | ⟨hcomm, heq⟩ <;> cases heq
    · exact ⟨o₁, o₂, hleft, hright, hapart, by simp, fun μ => id, fun μ => rfl⟩
    · exact ⟨o₂, o₁, hright, hleft, fun c hc hs hc' => hapart c hc' hs hc, by simp,
        fun μ => And.symm, fun μ => m.alu.comm op _ _ hcomm⟩
  obtain ⟨a, ha⟩ : ∃ a, Seated m F [first, second] s _ _ v t a := by
    rcases hcase with ⟨hone, h⟩ | h
    · exact stepOne_seated hs hF hfirst hsecond hone h
    · exact operate_seated hs hF hfirst hsecond hfirstApart h
  exact ⟨a, (ha.of_used hused).congr hsafe hswap⟩

/-! ## From operands to expressions -/

/-- A value waits in an operand, computed by code that changes only places of `F`. The operands `used`
have been given back, and of the scratch places the new operand holds only some of `F`. -/
structure Carried (m : Machine) (F : Set Nat) (used : List Slot) (s : Scope) (value : Memory → Word)
    (safe : Memory → Prop) (v : Lowered) (t : Scope) : Prop where
  rests : s.Rests F t
  labels : v.code.labels = []
  waits : ∀ c, v.slot.Holds c → c ∉ t.spare
  held : ∀ c, v.slot.Holds c → c ∈ s.scratch → c ∈ F
  header : v.slot.kind = .array → ∀ c, v.slot.address = some c → c ∉ s.scratch
  busy : ∀ c, t.pool.Busy c → s.pool.Busy c ∧ (∀ x ∈ used, ¬ x.Holds c) ∨ v.slot.Holds c
  operand : ∃ o, v.slot.Fetches m o ∧ ∀ μ, s.ground.HoldIn μ → safe μ →
    ∃ μ', m.Runs v.code μ μ' ∧ AgreeOutside F μ μ' ∧ o.read μ' = value μ ∧ o.Lands m s.scratch μ'

abbrev Pending (m : Machine) (s : Scope) (value : Memory → Word) (safe : Memory → Prop) (v : Lowered)
    (t : Scope) : Prop :=
  Carried m s.spare [] s value safe v t

variable {used : List Slot} {value : Memory → Word} {safe : Memory → Prop}

theorem Seated.carried (h : Seated m F used s value safe v t a) :
    Carried m F used s value safe v t where
  rests := h.rests.mono Set.sdiff_subset
  labels := h.labels
  waits c hc hspare := by
    rw [Slot.holds_iff_of_isPlain h.plain, h.isAt.1] at hc
    exact (h.rests.spare hspare).2 (Option.some.inj hc).symm
  held c hc _ := by
    rw [Slot.holds_iff_of_isPlain h.plain, h.isAt.1] at hc
    exact Option.some.inj hc ▸ h.mem
  header hk := absurd hk (Slot.kind_ne_of_isPlain h.plain)
  busy c hc := (h.busy c hc).imp_right fun (heq : c = a) => .inl (heq ▸ h.isAt.1)
  operand := by
    refine ⟨.word a, .of_isPlain h.plain h.isAt, fun μ hμ hsafe => ?_⟩
    obtain ⟨μ', hruns, hagree, hvalue⟩ := h.runs μ hμ hsafe
    exact ⟨μ', hruns, hagree, hvalue, Fetch.lands_word a⟩

theorem Carried.awaits (h : Carried m F used s value safe v t) (ho : v.slot.Fetches m o) :
    Awaits m F t v.slot o where
  fetches := ho
  waits := h.waits
  held c hc hscratch := h.held c hc (h.rests.continues.scratch ▸ hscratch)
  header hk c hc := h.rests.continues.scratch ▸ h.header hk c hc

theorem Carried.congr (h : Carried m F used s value safe v t) (hsafe : ∀ μ, safe' μ → safe μ)
    (hvalue : ∀ μ, safe' μ → value' μ = value μ) : Carried m F used s value' safe' v t where
  __ := h
  operand := by
    obtain ⟨o, ho, hruns⟩ := h.operand
    refine ⟨o, ho, fun μ hμ hsafe' => ?_⟩
    rw [hvalue μ hsafe']
    exact hruns μ hμ (hsafe μ hsafe')

theorem Carried.after {input : Memory → Word} {ready : Memory → Prop} {code : Code} (hs : s.Ready m)
    (hu : s.Rests G u) (hlabels : code.labels = [])
    (hbusy : ∀ c, u.pool.Busy c → s.pool.Busy c ∨ ∃ x ∈ used, x.Holds c)
    (hruns : ∀ μ, s.ground.HoldIn μ → safe μ → ∃ μ', m.Runs code μ μ' ∧ AgreeOutside s.spare μ μ' ∧
      input μ' = value μ ∧ ready μ') (h : Carried m s.spare used u input ready v t) :
    Pending m s value safe ⟨v.slot, code ++ v.code⟩ t where
  rests := hu.trans h.rests
  labels := by simp [hlabels, h.labels]
  waits := h.waits
  held c hc hscratch := h.held c hc (hu.continues.scratch ▸ hscratch)
  header hk c hc := hu.continues.scratch ▸ h.header hk c hc
  busy c hc := by
    rcases h.busy c hc with ⟨hc, hnot⟩ | hc
    · refine .inl ⟨(hbusy c hc).resolve_right ?_, by simp⟩
      rintro ⟨x, hx, hholds⟩
      exact hnot x hx hholds
    · exact .inr hc
  operand := by
    obtain ⟨o, ho, hcode⟩ := h.operand
    refine ⟨o, ho, fun μ hμ hsafe => ?_⟩
    obtain ⟨μ₁, hruns₁, hagree₁, hvalue₁, hready⟩ := hruns μ hμ hsafe
    have hμ₁ : u.ground.HoldIn μ₁ :=
      hu.continues.ground ▸ hs.holdIn (hagree₁.mono s.spare_subset_scratch) hμ
    obtain ⟨μ₂, hruns₂, hagree₂, hvalue₂, hlands⟩ := hcode μ₁ hμ₁ hready
    exact ⟨μ₂, hruns₁.append hruns₂, hagree₁.trans hagree₂, hvalue₂.trans hvalue₁,
      hu.continues.scratch ▸ hlands⟩

theorem Carried.pair {value₁ value₂ : Memory → Word} {v₁ v₂ : Lowered} (hs : s.Ready m)
    (h₁ : Pending m s value₁ safe₁ v₁ t) (h₂ : Pending m t value₂ safe₂ v₂ u)
    (hsteady : ∀ {μ μ'}, AgreeOutside s.spare μ μ' → safe₂ μ → value₂ μ' = value₂ μ ∧ safe₂ μ') :
    ∃ o₁ o₂, Awaits m s.spare u v₁.slot o₁ ∧ Awaits m s.spare u v₂.slot o₂ ∧
      (∀ c, v₁.slot.Holds c → c ∈ u.scratch → ¬ v₂.slot.Holds c) ∧
      ∀ μ, s.ground.HoldIn μ → safe₁ μ → safe₂ μ → ∃ μ', m.Runs (v₁.code ++ v₂.code) μ μ' ∧
        AgreeOutside s.spare μ μ' ∧ o₁.read μ' = value₁ μ ∧ o₂.read μ' = value₂ μ ∧
        o₁.Lands m u.scratch μ' ∧ o₂.Lands m u.scratch μ' := by
  obtain ⟨o₁, ho₁, hcode₁⟩ := h₁.operand
  obtain ⟨o₂, ho₂, hcode₂⟩ := h₂.operand
  have hscratch₁ := h₁.rests.continues.scratch
  have hscratch₂ := h₂.rests.continues.scratch
  have hfirst : Awaits m s.spare u v₁.slot o₁ :=
    ⟨ho₁, fun c hc hspare => h₁.waits c hc (h₂.rests.spare hspare),
      fun c hc hmem => h₁.held c hc (hscratch₁ ▸ hscratch₂ ▸ hmem),
      fun hk c hc => by rw [hscratch₂, hscratch₁]; exact h₁.header hk c hc⟩
  have hsecond : Awaits m s.spare u v₂.slot o₂ :=
    { h₂.awaits ho₂ with held := fun c hc hmem => h₁.rests.spare (h₂.held c hc (hscratch₂ ▸ hmem)) }
  refine ⟨o₁, o₂, hfirst, hsecond, fun c hc hmem hc' => ?_, fun μ hμ hsafe₁ hsafe₂ => ?_⟩
  · exact h₁.waits c hc (h₂.held c hc' (hscratch₂ ▸ hmem))
  · obtain ⟨μ₁, hruns₁, hagree₁, hvalue₁, hlands₁⟩ := hcode₁ μ hμ hsafe₁
    have hμ₁ : t.ground.HoldIn μ₁ :=
      h₁.rests.continues.ground ▸ hs.holdIn (hagree₁.mono s.spare_subset_scratch) hμ
    obtain ⟨hsame, hsafe₂⟩ := hsteady hagree₁ hsafe₂
    obtain ⟨μ₂, hruns₂, hagree₂, hvalue₂, hlands₂⟩ := hcode₂ μ₁ hμ₁ hsafe₂
    obtain ⟨hread₁, hlands₁⟩ := Fetch.stays hagree₂ (hscratch₁ ▸ t.spare_subset_scratch)
      (fun c hc => h₁.waits c (ho₁.holds_iff.mpr hc)) hlands₁
    refine ⟨μ₂, hruns₁.append hruns₂, hagree₁.trans (hagree₂.mono h₁.rests.spare),
      hread₁.trans hvalue₁, hvalue₂.trans hsame, ?_, ?_⟩
    · rw [hscratch₂, hscratch₁]
      exact hlands₁
    · rw [hscratch₂]
      exact hlands₂

theorem pending_lowerBinary {left right : Lower Lowered} {val₁ val₂ : Memory → Word} (hs : s.Ready m)
    (hleft : ∀ {v t}, Gives left f s v t → Pending m s val₁ safe₁ v t)
    (hright : ∀ {u v t}, s.Continues u → Gives right f u v t → Pending m u val₂ safe₂ v t)
    (hsteady : ∀ {μ μ'}, AgreeOutside s.spare μ μ' → safe₂ μ → val₂ μ' = val₂ μ ∧ safe₂ μ')
    (h : Gives (lowerBinary op left right) f s v t) :
    Pending m s (fun μ => m.alu.apply op (val₁ μ) (val₂ μ)) (fun μ => safe₁ μ ∧ safe₂ μ) v t ∧
      v.slot.isPlain = true := by
  simp only [lowerBinary, gives_bind, gives_pure] at h
  obtain ⟨v₁, s₁, h₁, v₂, s₂, h₂, v₃, s₃, h₃, rfl, rfl⟩ := h
  have h₁ := hleft h₁
  have h₂ := hright h₁.rests.continues h₂
  have hrests := h₁.rests.trans h₂.rests
  obtain ⟨o₁, o₂, ho₁, ho₂, hapart, hpair⟩ := h₁.pair hs h₂ hsteady
  obtain ⟨a, h₃⟩ := combine_seated (hrests.continues.ready hs) (h₂.rests.spare.trans h₁.rests.spare)
    ho₁ ho₂ hapart h₃
  refine ⟨Carried.after hs hrests (by simp [h₁.labels, h₂.labels]) (fun c hc => ?_) (fun μ hμ hsafe => ?_)
    h₃.carried, h₃.plain⟩
  · rcases h₂.busy c hc with ⟨hc, -⟩ | hc
    · exact (h₁.busy c hc).imp And.left fun hc => ⟨_, by simp, hc⟩
    · exact .inr ⟨_, by simp, hc⟩
  · obtain ⟨μ', hruns, hagree, hvalue₁, hvalue₂, hlands⟩ := hpair μ hμ hsafe.1 hsafe.2
    exact ⟨μ', hruns, hagree, by rw [hvalue₁, hvalue₂], hlands⟩

/-- What is computed next from an operand that waits is computed from its value. -/
theorem Carried.apply (hs : s.Ready m) (h₁ : Pending m s val safe v₁ u) :
    ∃ o, Awaits m s.spare u v₁.slot o ∧ ∀ {g : Word → Word} {v t},
      Carried m s.spare [v₁.slot] u (fun μ => g (o.read μ)) (o.Lands m u.scratch) v t →
      Pending m s (fun μ => g (val μ)) safe ⟨v.slot, v₁.code ++ v.code⟩ t := by
  obtain ⟨o, ho, hcode⟩ := h₁.operand
  refine ⟨o, h₁.awaits ho, fun h =>
    Carried.after hs h₁.rests h₁.labels (fun c hc => ?_) (fun μ hμ hsafe => ?_) h⟩
  · exact (h₁.busy c hc).imp And.left fun hc => ⟨_, by simp, hc⟩
  · obtain ⟨μ', hruns, hagree, hvalue, hlands⟩ := hcode μ hμ hsafe
    exact ⟨μ', hruns, hagree, by rw [hvalue], h₁.rests.continues.scratch ▸ hlands⟩

theorem pending_foldConstant (h₁ : Pending m s val safe v₁ t) (hc : v₁.slot.isConstant = true)
    (h : Gives (foldConstant g v₁) f t v u) :
    Pending m s (fun μ => g (val μ)) safe v u ∧ v.slot.isConstant = true := by
  simp only [foldConstant, constantWord, gives_bind, gives_orFail, gives_pure] at h
  obtain ⟨w, _, ⟨hw, rfl⟩, rfl, rfl⟩ := h
  have hconstant : v₁.slot.isValue w = true := by simp [Slot.isValue, hc, hw]
  obtain ⟨o, ho, hcode⟩ := h₁.operand
  have hnone : ∀ c, ¬ v₁.slot.Holds c := fun c => (h₁.awaits ho).suits.not_holds hc
  have hfolded : ∀ c, ¬ Slot.Holds { Slot.ofWord (g w) with type := v₁.slot.type } c := by
    simp [Slot.Holds, Slot.ofWord, Slot.constant]
  refine ⟨⟨h₁.rests, h₁.labels, fun c hc => absurd hc (hfolded c), fun c hc => absurd hc (hfolded c),
    by simp [Slot.ofWord, Slot.constant], fun c hc => ?_, .constant (g w), ?_, fun μ hμ hsafe => ?_⟩, rfl⟩
  · exact .inl ((h₁.busy c hc).resolve_right (hnone c))
  · exact .constant rfl rfl (by simp [Slot.ofWord, Slot.constant, Slot.value?])
  · obtain ⟨μ', hruns, hagree, hvalue, -⟩ := hcode μ hμ hsafe
    refine ⟨μ', hruns, hagree, ?_, Fetch.lands_constant _⟩
    rw [← hvalue, ho.eq_of_isValue hconstant]
    rfl

theorem pending_lowerComplement (hs : s.Ready m)
    (hoperand : ∀ {v t}, Gives operand f s v t → Pending m s val safe v t)
    (h : Gives (lowerComplement operand) f s v t) :
    Pending m s (fun μ => ~~~ val μ) safe v t ∧ (v.slot.isPlain = true ∨ v.slot.isConstant = true) := by
  simp only [lowerComplement, gives_bind] at h
  obtain ⟨v₁, s₁, h₁, h⟩ := h
  have h₁ := hoperand h₁
  split at h
  · next hc => exact (pending_foldConstant h₁ hc h).imp_right .inr
  · simp only [gives_bind, gives_pure] at h
    obtain ⟨v₂, s₂, hown, rfl, rfl⟩ := h
    obtain ⟨o, hawaits, happly⟩ := h₁.apply hs
    obtain ⟨a, hown, -⟩ := own_seated (h₁.rests.continues.ready hs) hawaits hown
    have hseated := (hown.mono (hawaits.room_subset h₁.rests.spare)).modify (g := (~~~ ·)) rfl
      fun μ => Machine.runs_not hown.isAt.2
    rw [List.append_assoc]
    exact ⟨happly hseated.carried, .inl hseated.plain⟩

theorem negate_seated {place : Slot} {flat : Flat} {s₁ s₂ s₃ : Scope} {y : Unit} (hs : s.Ready m)
    (hF : s.spare ⊆ F) (hx : Awaits m F s x o) (hplace : Gives allocate f s place s₁)
    (hflat : Gives (flatten x) f s₁ flat s₂) (hrelease : Gives flat.release f s₂ y s₃)
    (hback : Gives (releaseOperand x) f s₃ y t) :
    ∃ a, Seated m F [x] s (fun μ => 0 - o.read μ) (o.Lands m s.scratch)
      ⟨place, [.clear place.asmName] ++ flat.code ++ [.arith .sub place.asmName flat.slot.asmName]⟩
      t a := by
  obtain ⟨a, hp, ha, hmem, hspare₁, h₁, hsession₁⟩ := allocate_spare hs.placed hplace
  have hs₁ := h₁.ready hs
  have hne {c : Nat} (hc : x.Holds c) : c ≠ a := fun heq => hx.waits c hc (heq ▸ hmem)
  have hbusy {c : Nat} (hc : t.pool.Busy c) : s₁.pool.Busy c ∧ ¬ x.Holds c :=
    flatten_releaseOperand_busy hs₁.regular hflat hrelease hback hc
  have hsub : s₁.spare ⊆ F \ {a} := hspare₁ ▸ Set.sdiff_subset_sdiff_left hF
  obtain ⟨b, hflat⟩ := flatten_fetches hs₁.placed hx.fetches
    (fun c hc hmem => hx.waits c hc (hspare₁ ▸ hmem).1) hflat
  have h₂ := h₁.trans hflat.rests.continues
  have h₃ : s₂.Rests (F \ {a}) s₃ := by
    refine flatRelease_rests (h₂.ready hs).regular (fun hn c hc => ?_) (hflat.rests.spare.trans hsub)
      hrelease
    obtain rfl := Option.some.inj (hflat.isAt.1.symm.trans hc)
    exact hsub (hflat.new hn)
  have h₄ : s₃.Rests (F \ {a}) t := by
    refine releaseOperand_rests ((h₂.trans h₃.continues).ready hs).regular (fun c hc hregister => ?_)
      h₃.spare hback
    rw [(h₂.trans h₃.continues).registers] at hregister
    exact ⟨hx.held c hc (.inl hregister), hne hc⟩
  have hrests : s.Rests (F \ {a}) s₁ := ⟨h₁, by rw [hsession₁], hsub⟩
  refine ⟨a, hp, ha, ((hrests.trans hflat.rests).trans h₃).trans h₄, hF hmem, ?_, fun c hc => ?_,
    fun μ hμ hlands => ?_⟩
  · simp only [Code.labels_append, hflat.labels]
    rfl
  · obtain ⟨hc, hnot⟩ := hbusy hc
    rcases allocate_busy hplace hc with hc | hc
    · exact .inl ⟨hc, by simpa using hnot⟩
    · exact .inr (Option.some.inj (hc.symm.trans ha.1))
  · have hagree₁ : AgreeOutside {a} μ (Function.update μ a 0) := 
      (AgreeOutside.refl _ μ).update (Set.mem_singleton a) 0
    have hscratch : {a} ⊆ s.scratch := Set.singleton_subset_iff.mpr (s.spare_subset_scratch hmem)
    have hμ₁ : s₁.ground.HoldIn (Function.update μ a 0) :=
      h₁.ground ▸ hs.holdIn (hagree₁.mono hscratch) hμ
    obtain ⟨hread, hlands⟩ := Fetch.stays hagree₁ hscratch
      (fun c hc => hne (hx.fetches.holds_iff.mpr hc)) hlands
    obtain ⟨μ₂, hruns₂, hagree₂, hvalue₂⟩ := hflat.runs _ hμ₁
      (hlands.mono (h₁.scratch ▸ s₁.spare_subset_scratch))
    have hzero : μ₂ a = 0 := by
      rw [hagree₂ a fun hmem => (hsub hmem).2 rfl, Function.update_self]
    refine ⟨_, ((Machine.runs_clear ha.2).append hruns₂).append
      (Machine.runs_arith .sub ha.2 hflat.isAt.2), ?_, ?_⟩
    · exact ((hagree₁.mono (Set.singleton_subset_iff.mpr (hF hmem))).trans
        (hagree₂.mono (hsub.trans Set.sdiff_subset))).update (hF hmem) _
    · rw [Function.update_self, hzero, hvalue₂, hread, m.alu.sub]

theorem pending_lowerNegate (hs : s.Ready m)
    (hoperand : ∀ {v t}, Gives operand f s v t → Pending m s val safe v t)
    (h : Gives (lowerNegate operand) f s v t) :
    Pending m s (fun μ => 0 - val μ) safe v t ∧ (v.slot.isPlain = true ∨ v.slot.isConstant = true) := by
  simp only [lowerNegate, gives_bind] at h
  obtain ⟨v₁, s₁, h₁, h⟩ := h
  have h₁ := hoperand h₁
  split at h
  · next hc => exact (pending_foldConstant h₁ hc h).imp_right .inr
  simp only [gives_bind, gives_pure] at h
  obtain ⟨place, s₂, hplace, flat, s₃, hflat, _, s₄, hrelease, _, s₅, hback, rfl, rfl⟩ := h
  obtain ⟨o, hawaits, happly⟩ := h₁.apply hs
  obtain ⟨a, hseated⟩ := negate_seated (h₁.rests.continues.ready hs) h₁.rests.spare hawaits
    hplace hflat hrelease hback
  rw [List.append_assoc, List.append_assoc]
  exact ⟨happly (g := (0 - ·)) (List.append_assoc .. ▸ hseated.carried), .inl hseated.plain⟩

end Flatword.Lower
