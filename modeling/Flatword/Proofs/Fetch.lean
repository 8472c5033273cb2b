import Flatword.Proofs.Value

/-!
# Operands that are still to be fetched

An operand may be left behind a pointer until it is needed: a slot with an offset. `Fetch` says how
its word is fetched. As long as the word that it leads to is no scratch place, the operand can wait
while other operands are computed.
-/

namespace Flatword

/-- How a word is fetched: it is known, it is at an address, or it is where a pointer leads, a known
number of words or an index behind. -/
inductive Fetch where
  | constant (w : Word)
  | word (a : Nat)
  | behind (a : Nat) (words : Int64)
  | indexed (a b : Nat)

namespace Fetch

variable {m : Machine} {S G : Set Nat} {μ μ' : Memory} {o : Fetch}

def cells : Fetch → List Nat
  | constant _ => []
  | word a | behind a _ => [a]
  | indexed a b => [a, b]

def reaches (μ : Memory) : Fetch → Option Nat
  | constant _ | word _ => none
  | behind a words => some (μ a + words.toUInt64).toNat
  | indexed a b => some (μ a + μ b).toNat

def read (μ : Memory) : Fetch → Word
  | constant w => w
  | word a => μ a
  | behind a words => μ (μ a + words.toUInt64).toNat
  | indexed a b => μ (μ a + μ b).toNat

/-- A pointer leads to a word that may be reached, outside of some places. -/
def Lands (m : Machine) (S : Set Nat) (μ : Memory) (o : Fetch) : Prop :=
  ∀ a ∈ o.reaches μ, m.guard a = true ∧ a ∉ S

theorem lands_constant (w : Word) : (constant w).Lands m S μ := by
  simp [Lands, reaches]

theorem lands_word (a : Nat) : (word a).Lands m S μ := by
  simp [Lands, reaches]

theorem lands_behind {a : Nat} {words : Int64} : (behind a words).Lands m S μ ↔
    m.guard (μ a + words.toUInt64).toNat = true ∧ (μ a + words.toUInt64).toNat ∉ S := by
  simp only [Lands, reaches, Option.mem_def, Option.some.injEq, forall_eq']

theorem lands_indexed {a b : Nat} : (indexed a b).Lands m S μ ↔
    m.guard (μ a + μ b).toNat = true ∧ (μ a + μ b).toNat ∉ S := by
  simp only [Lands, reaches, Option.mem_def, Option.some.injEq, forall_eq']

theorem Lands.mono (h : o.Lands m S μ) (hG : G ⊆ S) : o.Lands m G μ :=
  fun a ha => ⟨(h a ha).1, fun hmem => (h a ha).2 (hG hmem)⟩

theorem stays (hμ : AgreeOutside G μ μ') (hG : G ⊆ S) (hcells : ∀ a ∈ o.cells, a ∉ G)
    (hlands : o.Lands m S μ) : o.read μ' = o.read μ ∧ o.Lands m S μ' := by
  cases o with
  | constant w => exact ⟨rfl, hlands⟩
  | word a => exact ⟨hμ a (hcells a (by simp [cells])), hlands⟩
  | behind a words =>
    have ha : μ' a = μ a := hμ a (hcells a (by simp [cells]))
    have hp : (μ a + words.toUInt64).toNat ∉ G := fun hmem => (lands_behind.mp hlands).2 (hG hmem)
    rw [lands_behind, read, ha]
    exact ⟨hμ _ hp, lands_behind.mp hlands⟩
  | indexed a b =>
    have ha : μ' a = μ a := hμ a (hcells a (by simp [cells]))
    have hb : μ' b = μ b := hμ b (hcells b (by simp [cells]))
    have hp : (μ a + μ b).toNat ∉ G := fun hmem => (lands_indexed.mp hlands).2 (hG hmem)
    rw [lands_indexed, read, ha, hb]
    exact ⟨hμ _ hp, lands_indexed.mp hlands⟩

end Fetch

/-- How the word of an operand is fetched. -/
inductive Slot.Fetches (m : Machine) (x : Slot) : Fetch → Prop
  | constant (hc : x.isConstant = true) (ha : x.address = none) {w} (hw : x.value? = some w) :
      x.Fetches m (.constant w)
  | word (hk : x.isPlain = true ∨ x.kind = .array ∧ x.offset = none) {a} (ha : x.IsAt m a) :
      x.Fetches m (.word a)
  | behind (hk : x.kind.isRegular = true) {words} (ho : x.offset = some (.known words)) {a}
      (ha : x.IsAt m a) : x.Fetches m (.behind a words)
  | indexed (hk : x.kind.isRegular = true ∨ x.kind = .array) {a b}
      (ho : x.offset = some (.stored b)) (ha : x.IsAt m a) : x.Fetches m (.indexed a b)

namespace Slot.Fetches

variable {m : Machine} {x : Slot} {o : Fetch}

theorem holds_iff (h : x.Fetches m o) {a : Nat} : x.Holds a ↔ a ∈ o.cells := by
  cases h with
  | constant hc ha =>
    simp only [isConstant, Bool.and_eq_true, Option.isNone_iff_eq_none] at hc
    simp [Holds, ha, hc.2, Fetch.cells]
  | word hk ha =>
    have ho : x.offset = none := hk.elim offset_of_isPlain And.right
    simp [Holds, ha.1, ho, Fetch.cells, eq_comm]
  | behind hk ho ha => simp [Holds, ha.1, ho, Fetch.cells, eq_comm]
  | indexed hk ho ha => simp [Holds, ha.1, ho, Fetch.cells, eq_comm]

theorem of_isPlain (hp : x.isPlain = true) {a : Nat} (ha : x.IsAt m a) : x.Fetches m (.word a) :=
  .word (.inl hp) ha

theorem eq_word (h : x.Fetches m o) (hp : x.isPlain = true) {a : Nat} (ha : x.address = some a) :
    o = .word a := by
  cases h with
  | constant _ hnone => simp [hnone] at ha
  | word _ hat => rw [Option.some.inj (hat.1.symm.trans ha)]
  | behind _ ho => simp [isPlain, ho] at hp
  | indexed _ ho => simp [isPlain, ho] at hp

theorem eq_of_isValue (h : x.Fetches m o) {w : Word} (hw : x.isValue w = true) (μ : Memory) :
    o.read μ = w := by
  simp only [isValue, Bool.and_eq_true, decide_eq_true_eq] at hw
  cases h with
  | constant _ _ hw' => exact Option.some.inj (hw'.symm.trans hw.2)
  | word hk => simp_all [isPlain, isConstant, Kind.isRegular]
  | behind hk ho => simp_all [isConstant]
  | indexed hk ho => simp_all [isConstant]

end Slot.Fetches

namespace Machine

variable {m : Machine} {μ : Memory}

theorem runs_load {dest base : String} {index : Option String} {d p : Nat}
    (hd : m.place dest = some d) (hp : m.pointed μ base index = some p) :
    m.Runs [.set (.var dest) (.indirect base index)] μ (Function.update μ d (μ p)) := by
  refine runs_of_effect rfl ?_
  show ((m.pointed μ base index).map μ).bind (m.write μ dest) = _
  rw [hp, Option.map_some, Option.bind_some, write_of_place hd]

theorem pointed_none {base : String} {a : Nat} (ha : m.place base = some a)
    (hguard : m.guard (μ a).toNat = true) : m.pointed μ base none = some (μ a).toNat := by
  simp [pointed, read, ha, hguard]

theorem pointed_some {base index : String} {a b : Nat} (ha : m.place base = some a)
    (hb : m.place index = some b) (hguard : m.guard (μ a + μ b).toNat = true) :
    m.pointed μ base (some index) = some (μ a + μ b).toNat := by
  simp only [pointed, read, ha, hb, Option.map_some, Option.bind_eq_bind, Option.bind_some, hguard,
    if_true]

end Machine

/-- A later scope of the same statement in which only places of `F` are spare. -/
structure Scope.Rests (s : Scope) (F : Set Nat) (t : Scope) : Prop where
  continues : s.Continues t
  jumps : t.session.jumps = s.session.jumps
  spare : t.spare ⊆ F

namespace Scope.Rests

variable {s t u : Scope} {F G : Set Nat}

theorem refl (h : s.spare ⊆ F) : s.Rests F s :=
  ⟨.refl s, rfl, h⟩

theorem trans (h : s.Rests G t) (h' : t.Rests F u) : s.Rests F u :=
  ⟨h.continues.trans h'.continues, h'.jumps.trans h.jumps, h'.spare⟩

theorem mono (h : s.Rests G t) (hF : G ⊆ F) : s.Rests F t :=
  ⟨h.continues, h.jumps, h.spare.trans hF⟩

theorem of_notes (h : s.Notes t) : s.Rests s.spare t :=
  ⟨.of_notes h, h.jumps, h.spare.subset⟩

end Scope.Rests

namespace Lower

variable {F : Set Nat} {a b depth : Nat} {code : Code} {flat : Flat}
  {left x : Slot} {y : Unit} {m : Machine} {f : Frame} {s t : Scope} {o : Fetch}

theorem mem_scratch_of_isTemp (h : s.isTemp x = true) :
    ∃ a, x.address = some a ∧ a ∈ s.scratch := by
  simp only [Scope.isTemp, Bool.and_eq_true, Bool.or_eq_true] at h
  obtain ⟨hsome, hwhere⟩ := h
  obtain ⟨a, ha⟩ := Option.isSome_iff_exists.mp hsome
  refine ⟨a, ha, ?_⟩
  rcases hwhere with hpool | htarget
  · obtain ⟨r, hr, hra⟩ := Pool.contains_iff.mp (ha ▸ hpool)
    exact .inl (List.mem_map.mpr ⟨r, hr, hra⟩)
  · obtain ⟨target, htaken, htarget⟩ := (Option.any_eq_true _ _).mp htarget
    refine .inr ⟨target, ?_, (of_decide_eq_true htarget).trans ha⟩
    revert htaken
    cases s.reuse <;> simp [Reuse.taken?, Reuse.target?]

theorem isAt_typed {scratch : Slot} (h : scratch.IsAt m a) (type : ValueType) :
    (if scratch.kind = .register then { scratch with type } else scratch).IsAt m a := by
  split
  · exact h
  · exact h

/-! ## Assigning and naming operands -/

theorem lookupAt_isAt (hs : s.Placed m) (h : Gives (lookupAt b) f s x t) :
    x.kind ≠ .struct ∧ x.offset = none ∧ x.IsAt m b := by
  have hknows := (lookupAt_notes h).1
  obtain ⟨hb, hk⟩ := lookupAt_found h
  obtain ⟨ho, a, ha⟩ := hs.slots x.unmarked hknows hk
  obtain rfl := Option.some.inj (hb.symm.trans ha.1)
  exact ⟨hk, ho, ha⟩

theorem indexName_place {name : String} (hs : s.Placed m) (h : Gives (indexName b) f s name t) :
    m.place name = some b := by
  simp only [indexName, gives_bind, gives_pure] at h
  obtain ⟨y, s₁, hat, rfl, rfl⟩ := h
  exact (lookupAt_isAt hs hat).2.2.2

theorem assignWithin_indirect (hleft : left.isPlain = true) (hk : x.kind ≠ .constant) :
    assignWithin (depth + 1) left x = assignRegular (flattenWith (assignWithin depth)) left x := by
  rw [assignWithin, resolveConstant_of_offset (Slot.offset_of_isPlain hleft), pure_bind,
    resolveConstant_of_kind hk, pure_bind]
  rcases hk : left.kind <;> first | rfl | simp [Slot.isPlain, hk, Kind.isRegular] at hleft

theorem assignRegular_word {flatten : Slot → Lower Flat} (hleft : left.isPlain = true)
    (hk : x.kind.isRegular = true) :
    assignRegular flatten left x = assignWord flatten left x := by
  unfold assignRegular
  rw [Slot.offset_of_isPlain hleft]
  cases hx : x.kind <;> simp_all [Kind.isRegular]

theorem assignRegular_cell {flatten : Slot → Lower Flat} (hleft : left.isPlain = true)
    (hk : x.kind = .array) :
    assignRegular flatten left x = assignCell left x := by
  unfold assignRegular
  rw [Slot.offset_of_isPlain hleft, hk]

/-- An operand is fetched into the word at an address, by code that changes no other place but spare
ones. -/
structure Fetched (m : Machine) (s : Scope) (a : Nat) (o : Fetch) (code : Code) (t : Scope) : Prop where
  rests : s.Rests s.spare t
  labels : code.labels = []
  runs : ∀ μ, s.ground.HoldIn μ → o.Lands m s.spare μ →
    ∃ μ', m.Runs code μ μ' ∧ AgreeOutside (insert a s.spare) μ μ' ∧ μ' a = o.read μ

theorem Fetched.of_update (hrests : s.Rests s.spare t) (hlabels : code.labels = [])
    (hruns : ∀ μ, s.ground.HoldIn μ → o.Lands m s.spare μ →
      m.Runs code μ (Function.update μ a (o.read μ))) : Fetched m s a o code t where
  rests := hrests
  labels := hlabels
  runs μ hμ hlands := ⟨_, hruns μ hμ hlands,
    (AgreeOutside.refl _ μ).update (Set.mem_insert a _) _, Function.update_self ..⟩

theorem assignWord_behind {depth a d : Nat} {words : Int64} (hs : s.Placed m) (ha : left.IsAt m a)
    (ho : x.offset = some (.known words)) (hd : x.IsAt m d) (hwaits : d ∉ s.spare)
    (h : Gives (assignWord (flattenWith (assignWithin depth)) left x) f s code t) :
    Fetched m s a (.behind d words) code t := by
  simp only [assignWord, ho] at h
  split at h
  · next hzero =>
    obtain ⟨rfl, rfl⟩ := gives_pure.mp h
    refine .of_update (.refl subset_rfl) rfl fun μ _ hlands => ?_
    have hsame : μ d + words.toUInt64 = μ d := by
      rw [hzero]
      exact UInt64.add_zero (μ d)
    have hguard : m.guard (μ d).toNat = true := hsame ▸ (Fetch.lands_behind.mp hlands).1
    rw [Fetch.read, hsame]
    exact Machine.runs_load ha.2 (Machine.pointed_none hd.2 hguard)
  · simp only [gives_bind, gives_pure] at h
    obtain ⟨flat, s₁, hflat, _, s₂, hrelease, rfl, rfl⟩ := h
    have hconstant : (Slot.ofWord words.toUInt64).Denotes m fun _ => words.toUInt64 :=
      .constant rfl rfl (by simp [Slot.ofWord, Slot.constant, Slot.value?])
    obtain ⟨b, hflat⟩ := flattenWith_runs hs hconstant (by simp [Slot.ofWord, Slot.constant]) hflat
    obtain ⟨hcontinues, hsession, hspare⟩ := flatRelease_spare (hflat.continues.placed hs).regular
      hflat subset_rfl hflat.spare hrelease
    refine ⟨⟨hflat.continues.trans hcontinues, by rw [hsession, hflat.session], hspare⟩, ?_, ?_⟩
    · simp only [Code.labels_append, hflat.labels]
      rfl
    intro μ hμ hlands
    obtain ⟨μ₁, hruns, hagree, hvalue⟩ := hflat.runs μ hμ
    have hbase : μ₁ d = μ d := hagree d hwaits
    obtain ⟨hguard, hkept⟩ := Fetch.lands_behind.mp hlands
    have hpointed := Machine.pointed_some (m := m) (μ := μ₁) hd.2 hflat.isAt.2
      (by rw [hbase, hvalue]; exact hguard)
    refine ⟨_, hruns.append (Machine.runs_load ha.2 hpointed),
      (hagree.mono (Set.subset_insert a _)).update (Set.mem_insert a _) _, ?_⟩
    rw [Function.update_self, hbase, hvalue]
    exact hagree _ hkept

theorem assign_indexed {a b d : Nat} (hs : s.Placed m) (ha : left.IsAt m a) (hd : x.IsAt m d)
    (h : Gives (do
      let index ← indexName b
      return [.set (.var left.asmName) (.indirect x.asmName (some index))]) f s code t) :
    Fetched m s a (.indexed d b) code t := by
  simp only [gives_bind, gives_pure] at h
  obtain ⟨name, s₁, hname, rfl, rfl⟩ := h
  refine .of_update (.of_notes (indexName_notes hname)) rfl fun μ _ hlands => ?_
  have hpointed := Machine.pointed_some (m := m) (μ := μ) hd.2 (indexName_place hs hname)
    (Fetch.lands_indexed.mp hlands).1
  exact Machine.runs_load ha.2 hpointed

theorem assignWithin_fetches (hs : s.Placed m) (hleft : left.isPlain = true) (ha : left.IsAt m a)
    (hx : x.Fetches m o) (hwaits : ∀ c, x.Holds c → c ∉ s.spare)
    (h : Gives (assignWithin (depth + 1) left x) f s code t) : Fetched m s a o code t := by
  have hword {read : Memory → Word} (hx : x.Denotes m read) (hread : ∀ μ, o.read μ = read μ) :
      Fetched m s a o code t := by
    obtain ⟨rfl, hlabels, hruns⟩ := assignWithin_runs hs hleft ha hx h
    refine .of_update (.refl subset_rfl) hlabels fun μ hμ _ => ?_
    rw [hread]
    exact hruns μ hμ
  cases hx with
  | constant hc haddress hw => exact hword (.constant hc haddress hw) fun _ => rfl
  | word hk hd =>
    rcases hk with hp | ⟨hk, ho⟩
    · exact hword (.word hp hd) fun _ => rfl
    · rw [assignWithin_indirect hleft (by simp [hk]), assignRegular_cell hleft hk] at h
      simp only [assignCell, ho, gives_pure] at h
      obtain ⟨rfl, rfl⟩ := h
      exact .of_update (.refl subset_rfl) rfl fun μ _ _ => Machine.runs_move ha.2 hd.2
  | behind hk ho hd =>
    rw [assignWithin_indirect hleft (by rintro hc; simp [hc, Kind.isRegular] at hk),
      assignRegular_word hleft hk] at h
    exact assignWord_behind hs ha ho hd (hwaits _ (.inl hd.1)) h
  | indexed hk ho hd =>
    rcases hk with hk | hk
    · rw [assignWithin_indirect hleft (by rintro hc; simp [hc, Kind.isRegular] at hk),
        assignRegular_word hleft hk] at h
      simp only [assignWord, ho] at h
      exact assign_indexed hs ha hd h
    · rw [assignWithin_indirect hleft (by simp [hk]), assignRegular_cell hleft hk] at h
      simp only [assignCell, ho] at h
      exact assign_indexed hs ha hd h

theorem assign_fetches (hs : s.Placed m) (hleft : left.isPlain = true) (ha : left.IsAt m a)
    (hx : x.Fetches m o) (hwaits : ∀ c, x.Holds c → c ∉ s.spare) (h : Gives (assign left x) f s code t) :
    Fetched m s a o code t := by
  rw [assign, gives_get_bind] at h
  exact assignWithin_fetches hs hleft ha hx hwaits h

/-- An operand that can be named at an address, brought there by code that changes spare places
only. -/
structure Brought (m : Machine) (s : Scope) (o : Fetch) (flat : Flat) (t : Scope) (b : Nat) : Prop where
  isAt : flat.slot.IsAt m b
  rests : s.Rests s.spare t
  waits : b ∉ t.spare
  new : flat.isNew = true → b ∈ s.spare
  labels : flat.code.labels = []
  runs : ∀ μ, s.ground.HoldIn μ → o.Lands m s.spare μ →
    ∃ μ', m.Runs flat.code μ μ' ∧ AgreeOutside s.spare μ μ' ∧ μ' b = o.read μ

theorem Flattened.brought {read : Memory → Word} (h : Flattened m s read flat t b)
    (hread : ∀ μ, o.read μ = read μ) : Brought m s o flat t b where
  isAt := h.isAt
  rests := ⟨h.continues, by rw [h.session], h.spare⟩
  waits := h.waits
  new := h.new
  labels := h.labels
  runs μ hμ _ := by
    rw [hread]
    exact h.runs μ hμ

theorem flattenWith_fetches (hs : s.Placed m) (hx : x.Fetches m o)
    (hwaits : ∀ c, x.Holds c → c ∉ s.spare) (h : Gives (flattenWith (assignWithin depth) x) f s flat t) :
    ∃ b, Brought m s o flat t b := by
  have hword {read : Memory → Word} (hx : x.Denotes m read) (hread : ∀ μ, o.read μ = read μ) :
      ∃ b, Brought m s o flat t b := by
    obtain ⟨b, hb⟩ := flattenWith_runs hs hx (fun a ha => hwaits a (.inl ha)) h
    exact ⟨b, hb.brought hread⟩
  have hload (ho : x.offset ≠ none) (hk : x.kind.isRegular = true ∨ x.kind = .array)
      (hcell : x.kind = .array → ∀ words, x.offset ≠ some (.known words)) :
      ∃ b, Brought m s o flat t b := by
    cases flattenWith_cases h with
    | named _ hc | literal hc =>
      simp only [Slot.isConstant, Bool.and_eq_true, Option.isNone_iff_eq_none] at hc
      exact absurd hc.2 ho
    | cell words y hkind hwords =>
      rcases hkind with hkind | hkind
      · simp [hkind, Kind.isRegular] at hk
      · exact absurd hwords (hcell hkind words)
    | word hkind =>
      exact absurd (hkind.elim Slot.offset_of_isPlain And.right) ho
    | load _ _ h =>
      simp only [intoScratch, gives_bind, gives_pure] at h
      obtain ⟨place, u, hplace, code, v, hassign, rfl, rfl⟩ := h
      obtain ⟨b, hp, hb, hmem, hu, hcontinues, hsession⟩ := allocate_spare hs hplace
      obtain _ | depth := depth
      · simp [assignWithin] at hassign
      have hwaits' : ∀ c, x.Holds c → c ∉ u.spare := fun c hc hmem => hwaits c hc (hu ▸ hmem).1
      have hfetched := assignWithin_fetches (hcontinues.placed hs) hp hb hx hwaits' hassign
      have hsub : u.spare ⊆ s.spare := hu ▸ Set.sdiff_subset
      refine ⟨b, hb, ?_, ?_, fun _ => hmem, hfetched.labels, fun μ hμ hlands => ?_⟩
      · exact ⟨hcontinues.trans hfetched.rests.continues, by rw [hfetched.rests.jumps, hsession],
          hfetched.rests.spare.trans hsub⟩
      · exact fun hb => (hu ▸ hfetched.rests.spare hb).2 rfl
      · obtain ⟨μ', hruns, hagree, hvalue⟩ := hfetched.runs μ (hcontinues.ground ▸ hμ)
          (hlands.mono hsub)
        exact ⟨μ', hruns, hagree.mono (Set.insert_subset hmem hsub), hvalue⟩
  cases hx with
  | constant hc haddress hw => exact hword (.constant hc haddress hw) fun _ => rfl
  | word hk hd =>
    rcases hk with hp | ⟨hk, ho⟩
    · exact hword (.word hp hd) fun _ => rfl
    · have hsame : flat = { slot := x } ∧ t = s := by
        simp only [flattenWith, hk, ho, gives_pure] at h
        exact ⟨h.1.symm, h.2.symm⟩
      obtain ⟨rfl, rfl⟩ := hsame
      exact ⟨_, hd, .refl subset_rfl, hwaits _ (.inl hd.1), by simp, rfl, fun μ _ _ => ⟨μ, .nil, .refl _ μ, rfl⟩⟩
  | behind hk ho hd =>
    exact hload (by simp [ho]) (.inl hk) fun harray => by simp [harray, Kind.isRegular] at hk
  | indexed hk ho hd => exact hload (by simp [ho]) hk (by simp [ho])

theorem flatten_fetches (hs : s.Placed m) (hx : x.Fetches m o) (hwaits : ∀ c, x.Holds c → c ∉ s.spare)
    (h : Gives (flatten x) f s flat t) : ∃ b, Brought m s o flat t b := by
  rw [flatten, gives_get_bind] at h
  exact flattenWith_fetches hs hx hwaits h

/-! ## Giving places back -/

theorem release_rests {address : Option Nat} (hs : s.Regular)
    (haddress : ∀ a, address = some a → a ∈ s.registers → a ∈ F) (hF : s.spare ⊆ F)
    (h : Gives (release address) f s y t) : s.Rests F t := by
  obtain ⟨hcontinues, hsession, hback⟩ := release_spare hs h
  refine ⟨hcontinues, by rw [hsession], fun a ha => ?_⟩
  rcases hback a ha with ha | ⟨ha, hregister⟩
  · exact hF ha
  · exact haddress a ha hregister

theorem releaseOperand_rests (hs : s.Regular) (hx : ∀ a, x.Holds a → a ∈ s.registers → a ∈ F)
    (hF : s.spare ⊆ F) (h : Gives (releaseOperand x) f s y t) : s.Rests F t := by
  simp only [releaseOperand, gives_bind] at h
  obtain ⟨_, s₁, hbase, h⟩ := h
  have h₁ := release_rests hs (fun a ha => hx a (.inl ha)) hF hbase
  split at h
  · next index ho =>
    refine h₁.trans (release_rests (regular_of_gives hbase hs) (fun a ha hmem => ?_) h₁.spare h)
    rw [h₁.continues.registers] at hmem
    exact hx a (.inr (ho.trans (congrArg (some ∘ Offset.stored) (Option.some.inj ha)))) hmem
  · obtain ⟨-, rfl⟩ := gives_pure.mp h
    exact h₁

theorem flatRelease_rests (hs : s.Regular)
    (hnew : flat.isNew = true → ∀ a, flat.slot.address = some a → a ∈ F) (hF : s.spare ⊆ F)
    (h : Gives flat.release f s y t) : s.Rests F t := by
  unfold Flat.release at h
  split at h
  · next hn => exact release_rests hs (fun a ha _ => hnew hn a ha) hF h
  · obtain ⟨-, rfl⟩ := gives_pure.mp h
    exact .refl hF

end Lower

end Flatword
