import Flatword.Proofs.Footing
import Flatword.Proofs.Pointer

/-!
# What an assignment stores

The code for `left = right` writes the value of the right operand to the word that the left one stands
for, both as they are before it runs, and changes nothing else but free registers. The operands may have any
offset.
-/

namespace Flatword

variable {m : Machine} {s : Scope} {x : Slot} {μ : Memory}

namespace Slot

/-- The word that the offset of an operand is added to: a constant, or the word at its address. -/
def base? (μ : Memory) (x : Slot) : Option Word :=
  if x.kind = .constant then x.value? else x.address.map μ

/-- The address of the word that an operand stands for. -/
def place? (μ : Memory) (x : Slot) : Option Nat :=
  match x.offset with
  | none => x.address
  | some (.known words) => (x.base? μ).map fun w => (w + words.toUInt64).toNat
  | some (.stored b) => (x.base? μ).map fun w => (w + μ b).toNat

/-- The value of an operand. -/
def worth? (μ : Memory) (x : Slot) : Option Word :=
  if x.isConstant then x.value? else (x.place? μ).map μ

/-- The word behind an offset may be reached, and is none of some places. -/
def Lands (m : Machine) (S : Set Nat) (μ : Memory) (x : Slot) : Prop :=
  x.offset ≠ none → ∀ a ∈ x.place? μ, m.guard a = true ∧ a ∉ S

/-- How an operand that is no constant with an offset gives a word: it is fetched, or it is a cell of an
array at a known address. -/
inductive Supplies (m : Machine) (S : Set Nat) (μ : Memory) (x : Slot) (w : Word) : Prop
  | fetched {o} (hx : x.Fetches m o) (hlands : o.Lands m S μ) (hw : o.read μ = w)
  | cell {base words} (hk : x.kind = .array) (ho : x.offset = some (.known words))
      (hbase : x.value? = some base) (hkept : (base + words.toUInt64).toNat ∉ S)
      (hw : μ (base + words.toUInt64).toNat = w)

end Slot

/-- An operand of a scope: a constant, or a word or an array of its table, with any offset. -/
inductive Scope.Operand (s : Scope) (x : Slot) : Prop
  | constant (hk : x.kind = .constant) (ha : x.address = none)
  | stored (y : Slot) (hy : s.Knows y) (hk : x.kind = y.kind) (hword : x.kind ≠ .struct)
      (ha : x.address = y.address) (hname : x.asmName = y.asmName) (hcontent : x.content = y.content)

theorem Scope.Operand.congr {s t : Scope} (h : s.Operand x) (hg : t.ground = s.ground) :
    t.Operand x := by
  cases h with
  | constant hk ha => exact .constant hk ha
  | stored y hy hk hword ha hname hcontent =>
    exact .stored y (hy.congr hg) hk hword ha hname hcontent

theorem Scope.Operand.isAt (h : s.Operand x) (hs : s.Placed m) (hnot : x.kind ≠ .constant) :
    ∃ a, x.IsAt m a := by
  cases h with
  | constant hk => exact absurd hk hnot
  | stored y hy hk hword ha hname =>
    obtain ⟨-, a, hat⟩ := hs.slots y.unmarked hy (hk ▸ hword)
    exact ⟨a, ha.trans hat.1, by rw [hname]; exact hat.2⟩

/-- The headers of the arrays hold the addresses that are recorded for them. -/
def Ground.HeadersIn (g : Ground) (μ : Memory) : Prop :=
  ∀ x ∈ g.slots, x.kind = .array → ∀ w ∈ x.value?, ∀ a ∈ x.address, μ a = w

theorem Scope.Placed.holdIn (hs : s.Placed m) {μ μ' : Memory} (h : AgreeOutside s.spare μ μ')
    (hμ : s.ground.HoldIn μ) : s.ground.HoldIn μ' := by
  intro slot w a hnames ha
  obtain ⟨b, hb, hspace⟩ := hs.constants hnames
  obtain rfl := Option.some.inj (ha.symm.trans hb.1)
  rw [h a fun hmem => hspace (s.spare_subset_workspace hmem)]
  exact hμ slot w a hnames ha

theorem toNat_add_toUInt64 {w : Word} {k : Int64} (hlow : 0 ≤ (w.toNat : Int) + k.toInt)
    (hhigh : (w.toNat : Int) + k.toInt < wordLimit) :
    (w + k.toUInt64).toNat = ((w.toNat : Int) + k.toInt).toNat := by
  have hk : k.toInt = if 2 * k.toUInt64.toNat < 2 ^ 64 then (k.toUInt64.toNat : Int)
      else k.toUInt64.toNat - (2 ^ 64 : Nat) := BitVec.toInt_eq_toNat_cond k.toBitVec
  have hw : w.toNat < 2 ^ 64 := w.toNat_lt
  have hu : k.toUInt64.toNat < 2 ^ 64 := k.toUInt64.toNat_lt
  have hlimit : wordLimit = 2 ^ 64 := rfl
  rw [hlimit] at hhigh
  rw [UInt64.toNat_add]
  split at hk <;> omega

theorem Kind.isRegular_or_array {k : Kind} (hstruct : k ≠ .struct) (hvoid : k ≠ .void)
    (hconstant : k ≠ .constant) : k.isRegular = true ∨ k = .array := by
  cases k <;> simp_all [Kind.isRegular]

theorem Pool.release_allocate? {p q : Pool} {slot : Slot} {a : Nat} (hd : p.Distinct)
    (h : p.allocate? = some (slot, q)) (ha : slot.address = some a) : q.release (some a) = p := by
  obtain ⟨front, r, rest, hp, hr, rfl, hq⟩ := allocate?_eq_some h
  have hdq : q.Distinct := .of_slots (slots_allocate? h) hd
  simp only [Distinct, hp, List.map_append, List.map_cons, List.nodup_append, List.nodup_cons, List.mem_map,
    List.mem_cons] at hd
  obtain ⟨-, ⟨hrest, -⟩, hfront⟩ := hd
  have hkept {rs : List Register} (hrs : ∀ r' ∈ rs, r'.slot.address ≠ some a) :
      rs.map (fun r' => if r'.slot.address = some a then { r' with inUse := false } else r') = rs := by
    rw [List.map_congr_left fun r' hr' => if_neg (hrs r' hr'), List.map_id']
  have hregisters : (q.release (some a)).registers = p.registers := by
    rw [release_eq_map hdq, hq, hp, List.map_append, List.map_cons, if_pos ha, hkept, hkept]
    · simp [← hr]
    · exact fun r' hr' heq => hrest ⟨r', hr', heq.trans ha.symm⟩
    · exact fun r' hr' heq => hfront _ ⟨r', hr', rfl⟩ _ (.inl rfl) (heq.trans ha.symm)
  exact congrArg Pool.mk hregisters

theorem Machine.runs_store {base source : String} {index : Option String} {b p : Nat}
    (hb : m.place source = some b) (hp : m.pointed μ base index = some p) :
    m.Runs [.set (.indirect base index) (.var source)] μ (Function.update μ p (μ b)) := by
  refine runs_of_effect rfl ?_
  show (m.read μ source).bind (m.assign μ (.indirect base index)) = _
  rw [read_of_place hb, Option.bind_some, Machine.assign, hp, Option.map_some]

namespace Lower

variable {a index depth : Nat} {flat : Flat} {m : Machine} {f : Frame} {s t : Scope} {x y left : Slot}
  {μ : Memory} {w : Word} {code : Code}

/-! ## Right operands -/

theorem slotAt_isAt {words : Int64} (hs : s.Placed m) (h : Gives (slotAt x words.toInt) f s y t) :
    ∃ base, x.value? = some base ∧ y.kind ≠ .struct ∧ y.offset = none ∧
      y.IsAt m (base + words.toUInt64).toNat := by
  simp only [slotAt, gives_bind, gives_orFail] at h
  obtain ⟨base, _, ⟨hbase, rfl⟩, h⟩ := h
  split at h
  · next hrange =>
    rw [← toNat_add_toUInt64 hrange.1 hrange.2] at h
    obtain ⟨hk, ho, hy⟩ := lookupAt_isAt hs h
    exact ⟨base, hbase, hk, ho, hy⟩
  · simp at h

theorem usable_of_gives (hs : s.Placed m)
    (h : Gives (assignRegular (flattenWith (assignWithin depth)) left x) f s code t) :
    x.kind ≠ .void ∧ (x.isConstant = true → ∃ w, x.value? = some w) ∧
      ∀ words, x.kind = .array → x.offset = some (.known words) → ∃ w, x.value? = some w := by
  have hconstant {dest : Slot} {code : Code} {s t : Scope} (h : Gives (assignConstant dest x) f s code t) :
      ∃ w, x.value? = some w := by
    simp only [assignConstant, gives_bind, gives_orFail] at h
    obtain ⟨hex, _, ⟨hhex, rfl⟩, w, _, ⟨hw, rfl⟩, -⟩ := h
    exact ⟨w, by rw [Slot.value?, hhex]; exact hw⟩
  have hcell {words : Int} {y : Slot} {s t : Scope} (h : Gives (slotAt x words) f s y t) :
      ∃ w, x.value? = some w := by
    simp only [slotAt, gives_bind, gives_orFail] at h
    obtain ⟨base, _, ⟨hbase, -⟩, -⟩ := h
    exact ⟨base, hbase⟩
  have hflat {flat : Flat} {u : Scope} (h : Gives (flattenWith (assignWithin depth) x) f s flat u) :
      x.kind ≠ .void ∧ (x.isConstant = true → ∃ w, x.value? = some w) ∧
        ∀ words, x.kind = .array → x.offset = some (.known words) → ∃ w, x.value? = some w := by
    refine ⟨fun hk => by simp [flattenWith, hk] at h, fun hc => ?_, fun words hk ho => ?_⟩
    · cases flattenWith_cases h with
      | named named _ hn =>
        obtain ⟨w, hw, -⟩ := namedConstant?_names hn
        exact ⟨w, hw⟩
      | cell words _ _ ho => simp [Slot.isConstant, ho] at hc
      | word hk => simp_all [Slot.isConstant, Slot.isPlain, Kind.isRegular]
      | load _ ho => simp_all [Slot.isConstant]
      | literal _ _ h =>
        simp only [intoScratch, gives_bind] at h
        obtain ⟨place, _, hplace, code, _, hassign, -⟩ := h
        obtain _ | depth := depth
        · simp [assignWithin] at hassign
        have hp := allocate_isPlain hs.regular hplace
        simp only [Slot.isConstant, Bool.and_eq_true, decide_eq_true_eq, Option.isNone_iff_eq_none] at hc
        simp only [assignWithin_plain hp hc.2, assignRegular, Slot.offset_of_isPlain hp, hc.1] at hassign
        exact hconstant hassign
    · simp only [flattenWith, hk, ho, gives_bind] at h
      obtain ⟨_, _, h, -⟩ := h
      exact hcell h
  unfold assignRegular at h
  split at h
  · refine ⟨fun hk => by simp [hk] at h, fun hc => ?_, fun words hk ho => ?_⟩
    · have hk : x.kind = .constant := of_decide_eq_true (Bool.and_eq_true_iff.mp hc).1
      simp only [hk] at h
      exact hconstant h
    · simp only [hk, assignCell, ho, gives_bind] at h
      obtain ⟨_, _, h, -⟩ := h
      exact hcell h
  · simp only [assignKnown, gives_bind] at h
    obtain ⟨_, _, h, -⟩ := h
    exact hflat h
  · simp only [assignIndexed, gives_bind] at h
    obtain ⟨_, _, h, -⟩ := h
    exact hflat h

theorem fetches_of_isAt (hs : s.Placed m) (hknows : s.Knows y) (hstruct : y.kind ≠ .struct)
    (hvoid : y.kind ≠ .void) (ho : y.offset = none) (ha : y.IsAt m a) : y.Fetches m (.word a) := by
  have hconstant : y.kind ≠ .constant := fun hk => by
    have hnone := (hs.regular.suits hknows).constant hk
    simp [ha.1] at hnone
  refine .word ?_ ha
  rcases Kind.isRegular_or_array hstruct hvoid hconstant with hk | hk
  · exact .inl (by simp [Slot.isPlain, hk, ho])
  · exact .inr ⟨hk, ho⟩

/-- A constant with an offset is replaced by the slot that it leads to; then every operand supplies its
value. -/
theorem resolveConstant_supplies (hs : s.Placed m) (hx : s.Operand x)
    (hwaits : ∀ c, x.Holds c → c ∉ s.spare) (hheaders : s.ground.HeadersIn μ)
    (hlands : x.Lands m s.spare μ) (h : Gives (resolveConstant x) f s y t) (hvoid : y.kind ≠ .void)
    (hconstant : y.isConstant = true → ∃ w, y.value? = some w)
    (hcell : ∀ words, y.kind = .array → y.offset = some (.known words) → ∃ w, y.value? = some w) :
    ∃ w, x.worth? μ = some w ∧ y.Supplies m s.spare μ w ∧ ∀ c, y.Holds c → c ∉ s.spare := by
  cases hx with
  | constant hk ha =>
    rcases ho : x.offset with _ | words | index
    · rw [resolveConstant_of_offset ho] at h
      obtain ⟨rfl, -⟩ := gives_pure.mp h
      have hc : x.isConstant = true := by simp [Slot.isConstant, hk, ho]
      obtain ⟨w, hw⟩ := hconstant hc
      exact ⟨w, by simp [Slot.worth?, hc, hw], .fetched (.constant hc ha hw) (Fetch.lands_constant w) rfl,
        hwaits⟩
    · simp only [resolveConstant, hk, ho] at h
      obtain ⟨base, hbase, hstruct, hoffset, hy⟩ := slotAt_isAt hs h
      have hplace : x.place? μ = some (base + words.toUInt64).toNat := by
        simp [Slot.place?, ho, Slot.base?, hk, hbase]
      have hkept := (hlands (by simp [ho]) _ hplace).2
      refine ⟨_, ?_, .fetched (fetches_of_isAt hs (slotAt_notes h).1 hstruct hvoid hoffset hy)
        (Fetch.lands_word _) rfl, ?_⟩
      · simp [Slot.worth?, Slot.isConstant, ho, hplace, Fetch.read]
      · rintro c (hc | hc)
        · exact Option.some.inj (hy.1.symm.trans hc) ▸ hkept
        · simp [hoffset] at hc
    · simp [resolveConstant, hk, ho] at h
  | stored z hz hkind hword ha hname hcontent =>
    obtain ⟨-, a, hat⟩ := hs.slots z.unmarked hz (hkind ▸ hword)
    have hx : x.IsAt m a := ⟨ha.trans hat.1, by rw [hname]; exact hat.2⟩
    have hnot : x.kind ≠ .constant := fun hk => by
      have hnone := (hs.regular.suits hz).constant (hkind.symm.trans hk)
      simp [← ha, hx.1] at hnone
    rw [resolveConstant_of_kind hnot] at h
    obtain ⟨rfl, -⟩ := gives_pure.mp h
    have hc : x.isConstant = false := by simp [Slot.isConstant, hnot]
    have hbase : x.base? μ = some (μ a) := by simp [Slot.base?, hnot, hx.1]
    have hregular := Kind.isRegular_or_array hword hvoid hnot
    rcases ho : x.offset with _ | words | index
    · refine ⟨μ a, by simp [Slot.worth?, hc, Slot.place?, ho, hx.1],
        .fetched (.word ?_ hx) (Fetch.lands_word a) rfl, hwaits⟩
      exact hregular.imp (fun hk => by simp [Slot.isPlain, hk, ho]) fun hk => ⟨hk, ho⟩
    · have hplace : x.place? μ = some (μ a + words.toUInt64).toNat := by simp [Slot.place?, ho, hbase]
      have hland := hlands (by simp [ho]) _ hplace
      have hworth : x.worth? μ = some (μ (μ a + words.toUInt64).toNat) := by
        simp [Slot.worth?, hc, hplace]
      refine ⟨_, hworth, ?_, hwaits⟩
      rcases hregular with hk | hk
      · exact .fetched (.behind hk ho hx) (Fetch.lands_behind.mpr hland) rfl
      · obtain ⟨base, hvalue⟩ := hcell words hk ho
        have hheader : μ a = base := by
          refine hheaders z.unmarked hz (hkind.symm.trans hk) base ?_ a hat.1
          rw [Option.mem_def, ← hvalue, Slot.value?, Slot.value?, hcontent]
          rfl
        rw [hheader] at hland ⊢
        exact .cell hk ho hvalue hland.2 rfl
    · have hplace : x.place? μ = some (μ a + μ index).toNat := by simp [Slot.place?, ho, hbase]
      have hland := hlands (by simp [ho]) _ hplace
      have hworth : x.worth? μ = some (μ (μ a + μ index).toNat) := by simp [Slot.worth?, hc, hplace]
      exact ⟨_, hworth, .fetched (.indexed hregular ho hx) (Fetch.lands_indexed.mpr hland) rfl, hwaits⟩

/-- An operand has been brought to an address, by code that has changed spare places only. -/
structure Conveyed (m : Machine) (s : Scope) (μ : Memory) (w : Word) (flat : Flat) (t : Scope) (b : Nat)
    (μ' : Memory) : Prop where
  isAt : flat.slot.IsAt m b
  rests : s.Rests s.spare t
  waits : b ∉ t.spare
  labels : flat.code.labels = []
  runs : m.Runs flat.code μ μ'
  agree : AgreeOutside s.spare μ μ'
  value : μ' b = w

theorem flattenWith_conveyed (hs : s.Placed m) (hx : x.Supplies m s.spare μ w)
    (hwaits : ∀ c, x.Holds c → c ∉ s.spare) (hμ : s.ground.HoldIn μ)
    (h : Gives (flattenWith (assignWithin depth) x) f s flat t) :
    ∃ b μ', Conveyed m s μ w flat t b μ' := by
  cases hx with
  | fetched hx hlands hw =>
    obtain ⟨b, hflat⟩ := flattenWith_fetches hs hx hwaits h
    obtain ⟨μ', hruns, hagree, hvalue⟩ := hflat.runs μ hμ hlands
    exact ⟨b, μ', hflat.isAt, hflat.rests, hflat.waits, hflat.labels, hruns, hagree,
      hvalue.trans hw⟩
  | @cell base words hk ho hbase hkept hw =>
    simp only [flattenWith, hk, ho, gives_bind, gives_pure] at h
    obtain ⟨y, _, hy, rfl, rfl⟩ := h
    have hnotes := (slotAt_notes hy).2
    obtain ⟨base', hbase', -, -, hat⟩ := slotAt_isAt hs hy
    obtain rfl : base = base' := Option.some.inj (hbase.symm.trans hbase')
    exact ⟨_, μ, hat, .of_notes hnotes, hnotes.spare ▸ hkept, rfl, .nil, .refl _ μ, hw⟩

/-! ## Left operands -/

/-- Code writes a word to an address, and changes no other place but spare ones. -/
structure Stores (m : Machine) (s : Scope) (μ : Memory) (p : Nat) (w : Word) (code : Code) : Prop where
  labels : code.labels = []
  runs : ∃ μ', m.Runs code μ μ' ∧ AgreeOutside (insert p s.spare) μ μ' ∧ μ' p = w

theorem Stores.of_store {p b : Nat} {base source : String} {index : Option String} {μ' : Memory}
    (hlabels : code.labels = []) (hruns : m.Runs code μ μ')
    (hagree : AgreeOutside s.spare μ μ') (hb : m.place source = some b) (hw : μ' b = w)
    (hp : m.pointed μ' base index = some p) :
    Stores m s μ p w (code ++ [.set (.indirect base index) (.var source)]) where
  labels := by
    rw [Code.labels_append, hlabels]
    rfl
  runs := by
    refine ⟨_, hruns.append (Machine.runs_store hb hp), ?_, ?_⟩
    · exact (hagree.mono (Set.subset_insert p _)).update (Set.mem_insert p _) _
    · rw [Function.update_self, hw]

theorem assignRegular_plain_stores (hs : s.Placed m) (hleft : left.isPlain = true) (ha : left.IsAt m a)
    (hx : x.Supplies m s.spare μ w) (hwaits : ∀ c, x.Holds c → c ∉ s.spare) (hμ : s.ground.HoldIn μ)
    (h : Gives (assignRegular (flattenWith (assignWithin depth)) left x) f s code t) :
    Stores m s μ a w code := by
  cases hx with
  | fetched hx hlands hw =>
    have hsame : assignWithin (depth + 1) left x =
        assignRegular (flattenWith (assignWithin depth)) left x := by
      by_cases hk : x.kind = .constant
      · refine assignWithin_plain hleft ?_
        cases hx with
        | constant hc => simpa [Slot.isConstant] using (Bool.and_eq_true_iff.mp hc).2
        | word hp => exact hp.elim Slot.offset_of_isPlain And.right
        | behind hregular => simp [hk, Kind.isRegular] at hregular
        | indexed hregular => simp [hk, Kind.isRegular] at hregular
      · exact assignWithin_indirect hleft hk
    have hfetched := assignWithin_fetches hs hleft ha hx hwaits (hsame ▸ h)
    obtain ⟨μ', hruns, hagree, hvalue⟩ := hfetched.runs μ hμ hlands
    exact ⟨hfetched.labels, μ', hruns, hagree, hvalue.trans hw⟩
  | @cell base words hk ho hbase hkept hw =>
    rw [assignRegular_cell hleft hk] at h
    simp only [assignCell, ho, gives_bind, gives_pure] at h
    obtain ⟨y, _, hy, rfl, rfl⟩ := h
    obtain ⟨base', hbase', -, -, hat⟩ := slotAt_isAt hs hy
    obtain rfl : base = base' := Option.some.inj (hbase.symm.trans hbase')
    refine ⟨rfl, _, Machine.runs_move ha.2 hat.2, ?_, ?_⟩
    · exact (AgreeOutside.refl _ μ).update (Set.mem_insert a _) _
    · rw [Function.update_self, hw]

theorem assignIndexed_stores (hs : s.Placed m) (ha : left.IsAt m a) (hbase : a ∉ s.spare)
    (hindex : index ∉ s.spare) (hx : x.Supplies m s.spare μ w) (hwaits : ∀ c, x.Holds c → c ∉ s.spare)
    (hμ : s.ground.HoldIn μ) (hguard : m.guard (μ a + μ index).toNat = true)
    (h : Gives (assignIndexed (flattenWith (assignWithin depth)) left index x) f s code t) :
    Stores m s μ (μ a + μ index).toNat w code := by
  simp only [assignIndexed, gives_bind, gives_pure] at h
  obtain ⟨flat, s₁, hflat, name, s₂, hname, _, s₃, hrelease, rfl, rfl⟩ := h
  obtain ⟨b, μ', hflat⟩ := flattenWith_conveyed hs hx hwaits hμ hflat
  have hplaced := hflat.rests.continues.placed hs
  have ha' : μ' a = μ a := hflat.agree a hbase
  have hindex' : μ' index = μ index := hflat.agree index hindex
  refine .of_store hflat.labels hflat.runs hflat.agree hflat.isAt.2 hflat.value ?_
  rw [Machine.pointed_some ha.2 (indexName_place hplaced hname) (by rw [ha', hindex']; exact hguard), ha',
    hindex']

theorem assignKnown_stores {words : Int64} (hs : s.Placed m) (ha : left.IsAt m a) (hbase : a ∉ s.spare)
    (hx : x.Supplies m s.spare μ w) (hwaits : ∀ c, x.Holds c → c ∉ s.spare) (hμ : s.ground.HoldIn μ)
    (hguard : m.guard (μ a + words.toUInt64).toNat = true)
    (h : Gives (assignKnown (flattenWith (assignWithin depth)) left words x) f s code t) :
    Stores m s μ (μ a + words.toUInt64).toNat w code := by
  simp only [assignKnown, gives_bind] at h
  obtain ⟨flat, s₁, hflat, h⟩ := h
  obtain ⟨b, μ₁, hflat⟩ := flattenWith_conveyed hs hx hwaits hμ hflat
  have hs₁ := hflat.rests.continues.placed hs
  have ha₁ : μ₁ a = μ a := hflat.agree a hbase
  split at h <;> simp only [gives_bind, gives_pure] at h
  · next hzero =>
    obtain ⟨_, s₂, hrelease, rfl, rfl⟩ := h
    have hsame : μ a + words.toUInt64 = μ a := by
      rw [hzero]
      exact UInt64.add_zero (μ a)
    rw [hsame] at hguard ⊢
    refine .of_store hflat.labels hflat.runs hflat.agree hflat.isAt.2 hflat.value ?_
    rw [Machine.pointed_none ha.2 (by rw [ha₁]; exact hguard), ha₁]
  · obtain ⟨offset, s₂, hoffset, _, s₃, hfirst, _, s₄, hsecond, rfl, rfl⟩ := h
    have hconstant : (Slot.ofWord words.toUInt64).Denotes m fun _ => words.toUInt64 :=
      .constant rfl rfl (by simp [Slot.ofWord, Slot.constant, Slot.value?])
    obtain ⟨d, hoffset⟩ := flattenWith_runs hs₁ hconstant (by simp [Slot.ofWord, Slot.constant]) hoffset
    obtain ⟨μ₂, hruns, hagree, hvalue⟩ := hoffset.runs μ₁
      (hflat.rests.continues.ground ▸ hs.holdIn hflat.agree hμ)
    have ha₂ : μ₂ a = μ a := (hagree a fun hmem => hbase (hflat.rests.spare hmem)).trans ha₁
    refine .of_store (by simp [hflat.labels, hoffset.labels]) (hflat.runs.append hruns)
      (hflat.agree.trans (hagree.mono hflat.rests.spare)) hflat.isAt.2
      ((hagree b hflat.waits).trans hflat.value) ?_
    rw [Machine.pointed_some ha.2 hoffset.isAt.2 (by rw [ha₂, hvalue]; exact hguard), ha₂, hvalue]

theorem assignWithin_regular (hleft : left.kind.isRegular = true)
    (h : Gives (assignWithin (depth + 1) left x) f s code t) :
    ∃ y u, Gives (resolveConstant x) f s y u ∧
      Gives (assignRegular (flattenWith (assignWithin depth)) left y) f u code t := by
  simp only [assignWithin, gives_bind] at h
  obtain ⟨left', _, hl, y, u, hy, h⟩ := h
  rw [resolveConstant_of_kind (by rintro hk; simp [hk, Kind.isRegular] at hleft)] at hl
  obtain ⟨rfl, rfl⟩ := gives_pure.mp hl
  refine ⟨y, u, hy, ?_⟩
  rcases hk : left.kind <;> simp only [hk] at h <;> first | exact h | simp [hk, Kind.isRegular] at hleft

theorem assignRegular_stores (hs : s.Placed m) (hleft : s.Operand left) (hkind : left.kind.isRegular = true)
    (hheld : ∀ c, left.Holds c → c ∉ s.spare) (hlands : left.Lands m ∅ μ)
    (hx : x.Supplies m s.spare μ w) (hwaits : ∀ c, x.Holds c → c ∉ s.spare) (hμ : s.ground.HoldIn μ)
    (h : Gives (assignRegular (flattenWith (assignWithin depth)) left x) f s code t) :
    ∃ p, left.place? μ = some p ∧ Stores m s μ p w code := by
  have hnot : left.kind ≠ .constant := fun hk => by simp [hk, Kind.isRegular] at hkind
  obtain ⟨a, ha⟩ := hleft.isAt hs hnot
  have hbase : left.base? μ = some (μ a) := by simp [Slot.base?, hnot, ha.1]
  rcases ho : left.offset with _ | words | index
  · have hplain : left.isPlain = true := by simp [Slot.isPlain, hkind, ho]
    exact ⟨a, by simp [Slot.place?, ho, ha.1], assignRegular_plain_stores hs hplain ha hx hwaits hμ h⟩
  · have hplace : left.place? μ = some (μ a + words.toUInt64).toNat := by simp [Slot.place?, ho, hbase]
    simp only [assignRegular, ho] at h
    exact ⟨_, hplace, assignKnown_stores hs ha (hheld a (.inl ha.1)) hx hwaits hμ
      (hlands (by simp [ho]) _ hplace).1 h⟩
  · have hplace : left.place? μ = some (μ a + μ index).toNat := by simp [Slot.place?, ho, hbase]
    simp only [assignRegular, ho] at h
    exact ⟨_, hplace, assignIndexed_stores hs ha (hheld a (.inl ha.1)) (hheld index (.inr ho)) hx hwaits hμ
      (hlands (by simp [ho]) _ hplace).1 h⟩

/-! ## Registers

Where no target is reserved, an assignment leaves the pool as it was: what it takes is a register, and
that one is given back. -/

def Restores (assign : Slot → Slot → Lower Code) : Prop :=
  ∀ ⦃left right : Slot⦄ ⦃f : Frame⦄ ⦃s t : Scope⦄ ⦃code : Code⦄, s.Regular →
    (∀ target, s.reuse ≠ .reserved target) → left.kind.isRegular = true →
    Gives (assign left right) f s code t → t.pool = s.pool ∧ t.reuse = s.reuse

/-- What flattening an operand does to the pool: nothing, or it takes the register of the result. -/
structure Takes (s : Scope) (flat : Flat) (t : Scope) : Prop where
  reuse : t.reuse = s.reuse
  pool : flat.isNew = false ∧ t.pool = s.pool ∨
    flat.isNew = true ∧ s.pool.allocate? = some (flat.slot, t.pool)

theorem Takes.of_notes (h : s.Notes t) (slot : Slot) : Takes s { slot } t :=
  ⟨h.reuse, .inl ⟨rfl, h.pool⟩⟩

theorem Takes.release {u v : Scope} {y : Unit} (hs : s.Regular) (h : Takes s flat t)
    (hu : u.pool = t.pool) (hrelease : Gives flat.release f u y v) :
    v.pool = s.pool ∧ v.reuse = u.reuse := by
  unfold Flat.release at hrelease
  rcases h.pool with ⟨hn, hpool⟩ | ⟨hn, hpool⟩ <;> simp only [hn, if_true, Bool.false_eq_true, if_false] at hrelease
  · obtain ⟨-, rfl⟩ := gives_pure.mp hrelease
    exact ⟨hu.trans hpool, rfl⟩
  · obtain rfl := gives_modify.mp hrelease
    refine ⟨?_, rfl⟩
    dsimp only
    rw [hu]
    obtain ⟨a, ha⟩ := Option.ne_none_iff_exists'.mp
      (hs.ground.placed flat.slot (Pool.mem_slots_of_allocate? hpool))
    rw [ha]
    exact Pool.release_allocate? hs.distinct hpool ha

theorem flattenWith_takes {assign : Slot → Slot → Lower Code} (hassign : Restores assign)
    (hs : s.Regular) (hreuse : ∀ target, s.reuse ≠ .reserved target)
    (h : Gives (flattenWith assign x) f s flat t) : Takes s flat t := by
  have hscratch (h : Gives (intoScratch assign x) f s flat t) : Takes s flat t := by
    simp only [intoScratch, gives_bind, gives_pure] at h
    obtain ⟨place, s₁, hplace, code, s₂, hcode, rfl, rfl⟩ := h
    have hp := allocate_isPlain hs hplace
    rcases allocate_cases hplace with ⟨hr, -⟩ | ⟨-, pool, hpool, rfl⟩
    · exact absurd hr (hreuse place)
    obtain ⟨hsame, hkept⟩ := hassign (regular_of_gives hplace hs) hreuse (Bool.and_eq_true_iff.mp hp).1 hcode
    exact ⟨hkept, .inr ⟨rfl, by rw [hsame]; exact hpool⟩⟩
  cases flattenWith_cases h with
  | named named _ _ hf ht =>
    subst hf ht
    exact .of_notes (.refl t) named
  | cell words y _ _ hy hf =>
    subst hf
    exact .of_notes (slotAt_notes hy).2 y
  | word _ hf ht =>
    subst hf ht
    exact .of_notes (.refl t) x
  | literal _ _ h | load _ _ h => exact hscratch h

section Flatten

variable {flatten : Slot → Lower Flat}

theorem assignWord_pool (hs : s.Regular)
    (hflatten : ∀ {slot flat t}, Gives (flatten slot) f s flat t → Takes s flat t)
    (h : Gives (assignWord flatten left x) f s code t) : t.pool = s.pool ∧ t.reuse = s.reuse := by
  unfold assignWord at h
  split at h
  · obtain ⟨-, rfl⟩ := gives_pure.mp h
    exact ⟨rfl, rfl⟩
  · split at h
    · obtain ⟨-, rfl⟩ := gives_pure.mp h
      exact ⟨rfl, rfl⟩
    · simp only [gives_bind, gives_pure] at h
      obtain ⟨offset, s₁, hoffset, _, s₂, hrelease, -, rfl⟩ := h
      have htakes := hflatten hoffset
      obtain ⟨hpool, hreuse⟩ := htakes.release hs rfl hrelease
      exact ⟨hpool, hreuse.trans htakes.reuse⟩
  · simp only [gives_bind, gives_pure] at h
    obtain ⟨name, s₁, hname, -, rfl⟩ := h
    have hnotes := indexName_notes hname
    exact ⟨hnotes.pool, hnotes.reuse⟩

theorem assignIndexed_pool (hs : s.Regular)
    (hflatten : ∀ {slot flat t}, Gives (flatten slot) f s flat t → Takes s flat t)
    (h : Gives (assignIndexed flatten left index x) f s code t) :
    t.pool = s.pool ∧ t.reuse = s.reuse := by
  simp only [assignIndexed, gives_bind, gives_pure] at h
  obtain ⟨flat, s₁, hflat, name, s₂, hname, _, s₃, hrelease, -, rfl⟩ := h
  have hnotes := indexName_notes hname
  have htakes := hflatten hflat
  obtain ⟨hpool, hreuse⟩ := htakes.release hs hnotes.pool hrelease
  exact ⟨hpool, hreuse.trans (hnotes.reuse.trans htakes.reuse)⟩

theorem assignKnown_pool [∀ slot, Orderly (flatten slot)] {words : Int64} (hs : s.Regular)
    (hflatten : ∀ {s slot flat t}, s.Regular → (∀ target, s.reuse ≠ .reserved target) →
      Gives (flatten slot) f s flat t → Takes s flat t)
    (hreuse : ∀ target, s.reuse ≠ .reserved target)
    (h : Gives (assignKnown flatten left words x) f s code t) : t.pool = s.pool ∧ t.reuse = s.reuse := by
  simp only [assignKnown, gives_bind] at h
  obtain ⟨flat, s₁, hflat, h⟩ := h
  have hfirst := hflatten hs hreuse hflat
  split at h <;> simp only [gives_bind, gives_pure] at h
  · obtain ⟨_, s₂, hrelease, -, rfl⟩ := h
    obtain ⟨hpool, hsame⟩ := hfirst.release hs rfl hrelease
    exact ⟨hpool, hsame.trans hfirst.reuse⟩
  · obtain ⟨offset, s₂, hoffset, _, s₃, hback, _, s₄, hrelease, -, rfl⟩ := h
    have hs₁ := regular_of_gives hflat hs
    have hsecond := hflatten hs₁ (by rw [hfirst.reuse]; exact hreuse) hoffset
    obtain ⟨hpool₁, hreuse₁⟩ := hsecond.release hs₁ rfl hback
    obtain ⟨hpool, hsame⟩ := hfirst.release hs hpool₁ hrelease
    exact ⟨hpool, hsame.trans (hreuse₁.trans (hsecond.reuse.trans hfirst.reuse))⟩

end Flatten

theorem restores_assignWithin (depth : Nat) : Restores (assignWithin depth) := by
  induction depth with
  | zero =>
    intro left right f s t code _ _ _ h
    simp [assignWithin] at h
  | succ depth ih =>
    intro left right f s t code hs hreuse hleft h
    obtain ⟨right', s₂, hr, hregular⟩ := assignWithin_regular hleft h
    have hnotes := (resolveConstant_notes hr).2
    have hs₂ := hnotes.regular hs
    have hreuse₂ : ∀ target, s₂.reuse ≠ .reserved target := by
      rw [hnotes.reuse]
      exact hreuse
    have hflatten {u : Scope} {slot : Slot} {flat : Flat} {v : Scope} (hu : u.Regular)
        (hreuse : ∀ target, u.reuse ≠ .reserved target)
        (h : Gives (flattenWith (assignWithin depth) slot) f u flat v) : Takes u flat v :=
      flattenWith_takes ih hu hreuse h
    suffices hsame : t.pool = s₂.pool ∧ t.reuse = s₂.reuse by
      exact ⟨hsame.1.trans hnotes.pool, hsame.2.trans hnotes.reuse⟩
    unfold assignRegular at hregular
    split at hregular
    · split at hregular
      case h_1 => rw [assignConstant_same hregular]; exact ⟨rfl, rfl⟩
      case h_6 => exact ⟨(assignCell_notes hregular).pool, (assignCell_notes hregular).reuse⟩
      case h_7 | h_8 => simp at hregular
      all_goals exact assignWord_pool hs₂ (hflatten hs₂ hreuse₂) hregular
    · exact assignKnown_pool hs₂ hflatten hreuse₂ hregular
    · exact assignIndexed_pool hs₂ (hflatten hs₂ hreuse₂) hregular

end Lower

open Lower in
/-- An assignment to a word, or to what it points to, stores the value of the right operand and gives
back all registers that it takes. The pool has words only: an array of the program that is called like
a register would be filled instead of the word that is handed out. -/
theorem Session.Reached.assign_stores_value {options : Options} {defined : List (Place × Definition)}
    {session : Session} {m : Machine} {f : Frame} {s t : Scope} {left right : Slot} {code : Code}
    (hsession : session.Reached options defined)
    (hwords : ∀ r ∈ session.table.registers, r.kind.isRegular = true) (hm : m.Has session.table)
    (hs : (Scope.start session).Leads s) (hreuse : ∀ target, s.reuse ≠ .reserved target)
    (hleft : s.Operand left) (hkind : left.kind.isRegular = true) (hright : s.Operand right)
    (hheld : ∀ a, left.Holds a ∨ right.Holds a → ¬ s.pool.Free a)
    (h : Gives (assign left right) f s code t) :
    t.pool = s.pool ∧ ∀ μ, s.ground.HoldIn μ → s.ground.HeadersIn μ →
      left.Lands m ∅ μ → right.Lands m {a | s.pool.Free a} μ →
      ∃ p w μ', left.place? μ = some p ∧ right.worth? μ = some w ∧
        (∀ stack, m.Steps code (.at 0 ⟨μ, stack⟩) (.at code.length ⟨μ', stack⟩)) ∧
        μ' p = w ∧ ∀ a, a ≠ p → ¬ s.pool.Free a → μ' a = μ a := by
  have hplaced := hsession.placed hwords hm hs hreuse
  have hspare : s.spare = {a | s.pool.Free a} := by simp [Scope.spare, hreuse]
  rw [assign, gives_get_bind] at h
  refine ⟨(restores_assignWithin _ hplaced.regular hreuse hkind h).1,
    fun μ hconstants hheaders hleftLands hrightLands => ?_⟩
  obtain ⟨x, s₁, hx, h⟩ := assignWithin_regular hkind h
  have hnotes := (resolveConstant_notes hx).2
  have hcontinues := Scope.Continues.of_notes hnotes
  have hs₁ := hcontinues.placed hplaced
  obtain ⟨hvoid, hconstant, hcell⟩ := usable_of_gives hs₁ h
  obtain ⟨w, hworth, hsupplies, hwaits⟩ := resolveConstant_supplies hplaced hright
    (fun c hc => hspare ▸ hheld c (.inr hc)) hheaders (hspare ▸ hrightLands) hx hvoid hconstant hcell
  rw [← hnotes.spare] at hsupplies hwaits
  obtain ⟨p, hp, hstores⟩ := assignRegular_stores hs₁ (hleft.congr hcontinues.ground) hkind
    (fun c hc => hnotes.spare ▸ hspare ▸ hheld c (.inl hc)) hleftLands hsupplies hwaits
    (hcontinues.ground ▸ hconstants) h
  obtain ⟨μ', hruns, hagree, hvalue⟩ := hstores.runs
  refine ⟨p, w, μ', hp, hworth, hruns.steps hstores.labels, hvalue, fun a hne hfree => hagree a ?_⟩
  rw [hnotes.spare, hspare]
  exact fun hmem => hmem.elim hne hfree

theorem Scope.headersIn_start {session : Session} {a : Nat} {w : Word} {μ : Memory} (hμ : μ a = w)
    (h : ∀ x ∈ session.table.slots, x.kind ≠ .array ∨ x.address = some a ∧ x.value? = some w) :
    (Scope.start session).ground.HeadersIn μ := by
  intro slot hslot hk v hv b hb
  obtain ⟨x, hx, rfl⟩ := List.mem_map.mp hslot
  obtain ⟨hxa, hxv⟩ := (h x hx).resolve_left fun hne => hne hk
  obtain rfl : a = b := Option.some.inj (hxa.symm.trans hb)
  exact hμ.trans (Option.some.inj (hxv.symm.trans hv))

def pointerAndArray : Program where
  main := [.declaration [.keyword "long" 1, .ident "p" 1, .comma 1, .ident "a" 1, .array 3 1]]

open Lower in
/-- While the first register is in use, `*(p + 2) = a[1]` is computed with the second one. -/
theorem pointerAndArray_stores : ∃ (m : Machine) (s t : Scope) (p a : Slot) (code : Code) (μ μ' : Memory),
    s.pool.Busy 0 ∧ p.asmName = "p" ∧ a.asmName = "a" ∧
      Gives (assign (p.withOffset (some (.known 2))) (a.withOffset (some (.known 1)))) { line := 1 } s code t ∧
      μ 3 = 5 ∧ μ 6 = 42 ∧ m.Steps code (.at 0 ⟨μ, []⟩) (.at code.length ⟨μ', []⟩) ∧ μ' 7 = 42 ∧
      μ' 0 = μ 0 ∧ t.pool = s.pool := by
  let taken (session : Session) : Scope := (outcome allocate { line := 1 } (.start session)).2
  have hfound : (pointerAndArray.layout? { registers := 3 }).any fun session =>
      (session.table.slots.any fun p => p.asmName = "p" && p.address = some 3 && p.kind = .long &&
        session.table.slots.any fun a => a.asmName = "a" && a.address = some 4 && a.kind = .array &&
          a.value? = some 5 && (outcome (assign (p.withOffset (some (.known 2)))
            (a.withOffset (some (.known 1)))) { line := 1 } (taken session)).1.toOption.isSome) &&
      session.table.registers.all (·.kind.isRegular) &&
      session.table.slots.all (fun x => (x.content = none || x.asmName = "a") &&
        (x.kind ≠ .array || x.address = some 4 && x.value? = some 5)) &&
      (taken session).reuse.target? = none &&
      (taken session).pool.registers.any (fun r => r.inUse && r.slot.address = some 0) &&
      (taken session).pool.registers.all (·.slot.address.any (· < 3)) := by
    decide
  obtain ⟨session, hlayout, hfound⟩ := (Option.any_eq_true _ _).mp hfound
  simp only [Bool.and_eq_true, List.any_eq_true, List.all_eq_true, Option.any_eq_true, decide_eq_true_eq,
    Bool.or_eq_true, Option.isSome_iff_exists] at hfound
  obtain ⟨⟨⟨⟨⟨⟨p, hp, ⟨⟨hpname, hpa⟩, hpk⟩, a, ha, ⟨⟨⟨hname, haa⟩, hak⟩, hvalue⟩, code, hcode⟩, hwords⟩, hslots⟩,
    htarget⟩, hbusy⟩, hlow⟩ := hfound
  have hreached := Program.reached_of_layout? hlayout
  have hcode := gives_of_toOption hcode
  have hleads : (Scope.start session).Leads (taken session) := Orderly.leads { line := 1 } (.start session)
  have hground := hleads.ground
  have hknows {x : Slot} (hx : x ∈ session.table.slots) : (taken session).Knows x :=
    (Scope.knows_of_mem (s := .start session) hx).congr hground
  have hfree {c : Nat} (hc : 3 ≤ c) : ¬ (taken session).pool.Free c := by
    rintro ⟨register, hmem, -, hra⟩
    obtain ⟨b, hb, hlt⟩ := hlow register hmem
    obtain rfl := Option.some.inj (hra.symm.trans hb)
    omega
  have hreuse : ∀ target, (taken session).reuse ≠ .reserved target := by
    intro target hreserved
    simp [hreserved, Reuse.target?] at htarget
  let μ : Memory := fun c => if c = 3 then 5 else if c = 4 then 5 else if c = 6 then 42 else 0
  have hholds {x : Slot} {words : Int64} {b c : Nat} (hx : x.address = some b) (hb : 3 ≤ b)
      (hc : (x.withOffset (some (.known words))).Holds c) : ¬ (taken session).pool.Free c := by
    rcases hc with hc | hc
    · exact Option.some.inj (hx.symm.trans hc) ▸ hfree hb
    · simp [Slot.withOffset] at hc
  have hleft : (taken session).Operand (p.withOffset (some (.known 2))) :=
    .stored p (hknows hp) rfl (by simp [Slot.withOffset, hpk]) rfl rfl rfl
  have hright : (taken session).Operand (a.withOffset (some (.known 1))) :=
    .stored a (hknows ha) rfl (by simp [Slot.withOffset, hak]) rfl rfl rfl
  obtain ⟨hpool, hstores⟩ := hreached.assign_stores_value hwords
    (Table.has_machine hreached.fronted.table.layout.names .unsigned) hleads hreuse hleft
    (by simp [Slot.withOffset, hpk, Kind.isRegular]) hright
    (fun c hc => hc.elim (hholds hpa (by omega)) (hholds haa (by omega))) hcode
  have hconstants : (taken session).ground.HoldIn μ := by
    rw [hground]
    exact Scope.holdIn_start "a" (by decide) (fun x hx => (hslots x hx).1) μ
  have hheaders : (taken session).ground.HeadersIn μ := by
    rw [hground]
    exact Scope.headersIn_start rfl fun x hx => (hslots x hx).2
  have hknown {x : Slot} {b : Nat} (hx : x.address = some b) (hk : x.kind ≠ .constant) (words : Int64) :
      (x.withOffset (some (.known words))).place? μ = some (μ b + words.toUInt64).toNat := by
    simp [Slot.place?, Slot.withOffset, Slot.base?, hk, hx]
  have hplace : (p.withOffset (some (.known 2))).place? μ = some 7 := hknown hpa (by simp [hpk]) 2
  have hcell : (a.withOffset (some (.known 1))).place? μ = some 6 := hknown haa (by simp [hak]) 1
  have hworth : (a.withOffset (some (.known 1))).worth? μ = some 42 := by
    rw [Slot.worth?, hcell]
    simp [Slot.isConstant, Slot.withOffset, μ]
  obtain ⟨q, w, μ', hq, hw, hsteps, hresult, hkept⟩ := hstores μ hconstants hheaders
    (fun _ _ _ => ⟨rfl, by simp⟩)
    (fun _ b hb => ⟨rfl, Option.some.inj (hcell.symm.trans hb) ▸ hfree (by omega)⟩)
  obtain rfl : 7 = q := Option.some.inj (hplace.symm.trans hq)
  obtain rfl : 42 = w := Option.some.inj (hworth.symm.trans hw)
  refine ⟨_, taken session, _, p, a, code, μ, μ', hbusy, hpname, hname, hcode, rfl, rfl, hsteps [], hresult,
    hkept 0 (by omega) ?_, hpool⟩
  exact (hleads.regular ⟨hreached.regular hwords, by simp [Scope.start, Reuse.target?]⟩).not_free_of_busy hbusy

/-- A program with a word `p` and an array of three words that is called like a register. -/
def borrowedArray : Program where
  main := [.declaration [.keyword "long" 1, .ident "p" 1, .comma 1, .ident "r5" 1, .array 3 1]]

open Lower in
/-- When the only register is in use, `*p = 7` fills the array, and stores the address of its cells. -/
theorem borrowedArray_filled : ∃ (session : Session) (s t : Scope) (p : Slot) (code : Code),
    session.Reached { registers := 1 } borrowedArray.definitions ∧ (Scope.start session).Leads s ∧
      p ∈ session.table.slots ∧ p.asmName = "p" ∧
      Gives (assign (p.withOffset (some (.known 0))) (.ofWord 7)) { line := 1 } s code t ∧
      code = [.setImmediate "r5_0" (Hex.ofWord 7), .clear "r5_1", .clear "r5_2",
        .set (.indirect "p" none) (.var "r5")] := by
  let taken (session : Session) : Scope := (outcome allocate { line := 1 } (.start session)).2
  have hfound : (borrowedArray.layout? { registers := 1 }).any fun session =>
      session.table.slots.any fun p => p.asmName = "p" && (outcome (assign (p.withOffset (some (.known 0)))
        (.ofWord 7)) { line := 1 } (taken session)).1.toOption = some [.setImmediate "r5_0" (Hex.ofWord 7),
          .clear "r5_1", .clear "r5_2", .set (.indirect "p" none) (.var "r5")] := by
    decide
  obtain ⟨session, hlayout, hfound⟩ := (Option.any_eq_true _ _).mp hfound
  simp only [Bool.and_eq_true, List.any_eq_true, decide_eq_true_eq] at hfound
  obtain ⟨p, hp, hname, hcode⟩ := hfound
  exact ⟨session, taken session, _, p, _, Program.reached_of_layout? hlayout,
    Orderly.leads { line := 1 } (.start session), hp, hname, gives_of_toOption hcode, rfl⟩

/-- The expression `7 - p`. -/
def sevenLess : Expr :=
  .binary .sub (.long 7 2) (.var "p" 2) 2

open Lower in
/-- When the only register is in use, `7 - p` is computed in the header of the array: its first cell is set
to 7, and what is left in the header is not 7 less `p`, but the address of the cells less `p`. -/
theorem borrowedArray_miscomputed : ∃ (session : Session) (m : Machine) (s t : Scope) (v : Lowered)
    (μ μ' : Memory), session.Reached { registers := 1 } borrowedArray.definitions ∧
      (Scope.start session).Leads s ∧ s.reuse.target? = none ∧ m.Has session.table ∧
      s.ground.HoldIn μ ∧ s.ground.HeadersIn μ ∧
      sevenLess.IsPointed (s.ground.plain? none) s.registers ∧ Gives sevenLess.lower { line := 2 } s v t ∧
      m.Steps v.code (.at 0 ⟨μ, []⟩) (.at v.code.length ⟨μ', []⟩) ∧
      v.slot.address = some 2 ∧ μ' 2 = 2 ∧ sevenLess.worth m.alu (s.ground.plain? none) μ = 6 ∧
      3 ∉ s.registers ∧ μ 3 = 0 ∧ μ' 3 = 7 := by
  let taken (session : Session) : Scope := (outcome allocate { line := 1 } (.start session)).2
  have hfound : (borrowedArray.layout? { registers := 1 }).any fun session =>
      ((outcome sevenLess.lower { line := 2 } (taken session)).1.toOption.any fun v =>
        v.slot.address = some 2 && v.code = [.setImmediate "r5_0" (Hex.ofWord 7), .clear "r5_1",
          .clear "r5_2", .arith .sub "r5" "p"]) &&
      ((taken session).reuse.target? = none && (taken session).ground.plain? none "p" = some 1) &&
      (taken session).ground.registers.map Slot.address = [some 0, some 2] &&
      session.table.slots.all (fun x => (x.content = none || x.asmName = "r5") &&
        (x.kind ≠ .array || x.address = some 2 && x.value? = some 3)) &&
      ["p", "r5", "r5_0", "r5_1", "r5_2"].map (session.table.machine .unsigned).place =
        [some 1, some 2, some 3, some 4, some 5] := by
    decide
  obtain ⟨session, hlayout, hfound⟩ := (Option.any_eq_true _ _).mp hfound
  simp only [Bool.and_eq_true, List.all_eq_true, Option.any_eq_true, decide_eq_true_eq, Bool.or_eq_true,
    List.map_cons, List.map_nil, List.cons.injEq, and_true] at hfound
  obtain ⟨⟨⟨⟨⟨v, hv, haddress, hcode⟩, htarget, hp⟩, hregisters⟩, hslots⟩, hword, hheader, h₀, h₁, h₂⟩ := hfound
  have hreached := Program.reached_of_layout? hlayout
  have hleads : (Scope.start session).Leads (taken session) := Orderly.leads { line := 1 } (.start session)
  have hregister (a : Nat) : a ∈ (taken session).registers ↔ a = 0 ∨ a = 2 := by
    simp [Scope.registers, hregisters]
  have hpointed : sevenLess.IsPointed ((taken session).ground.plain? none) (taken session).registers :=
    .binary (.constant (w := 7) (by decide)) (.word hp (by simp [hregister]))
  let μ : Memory := fun a => if a = 1 then 1 else if a = 2 then 3 else 0
  let μ₁ := Function.update (Function.update (Function.update μ 3 7) 4 0) 5 0
  have hfill : (session.table.machine .unsigned).Runs
      [.setImmediate "r5_0" (Hex.ofWord 7), .clear "r5_1", .clear "r5_2"] μ μ₁ :=
    (Machine.runs_setImmediate h₀ (Hex.value?_ofWord 7)).append
      ((Machine.runs_clear h₁).append (Machine.runs_clear h₂))
  have hsub : (session.table.machine .unsigned).Runs [.arith .sub "r5" "p"] μ₁
      (Function.update μ₁ 2 (μ₁ 2 - μ₁ 1)) := Machine.runs_arith .sub hheader hword
  refine ⟨session, session.table.machine .unsigned, taken session, _, v, μ,
    Function.update μ₁ 2 (μ₁ 2 - μ₁ 1), hreached, hleads, htarget,
    Table.has_machine hreached.fronted.table.layout.names .unsigned, ?_, ?_, hpointed,
    gives_of_toOption hv, ?_, haddress, by simp [μ₁, μ], ?_, by simp [hregister], rfl, rfl⟩
  · rw [hleads.ground]
    exact Scope.holdIn_start "r5" (by decide) (fun x hx => (hslots x hx).1) μ
  · rw [hleads.ground]
    exact Scope.headersIn_start rfl fun x hx => (hslots x hx).2
  · rw [hcode]
    exact (hfill.append hsub).steps rfl []
  · have hseven : Hex.value? (Hex.ofWord 7) = some 7 := Hex.value?_ofWord 7
    simp [sevenLess, Expr.var, Expr.long, Expr.worth, Expr.pathWorth, hp, hseven, μ, Alu.sub]

end Flatword
