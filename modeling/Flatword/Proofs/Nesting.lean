import Flatword.Proofs.Early
import Flatword.Proofs.Header

/-!
# Assignments end

An assignment makes others, to the cells of an array and to scratch places. The cells lie behind their
header, which no code or `const` sentence changes, so the depth that a session has for assignments inside each
other is never used up.
-/

namespace Flatword

theorem wordCount_le_length (kinds : List Kind) : wordCount kinds ≤ kinds.length := by
  induction kinds with
  | nil => rfl
  | cons kind rest ih =>
    rw [wordCount_cons, List.length_cons]
    have hwidth : kind.width ≤ 1 := by cases kind <;> decide
    omega

variable {options : Options} {defined : List (Place × Definition)} {now : Session}

theorem Session.Reached.headed (h : Session.Reached options defined now) : now.table.Headed := by
  induction h with
  | start h => exact fun x hx hk => absurd hk (kind_of_start h x hx).2
  | sign _ functions ih => exact ih
  | emit h hleads ih =>
    -- The names stay distinct on the way, so a recorded value never goes to a header.
    exact (hleads.preserves (P := fun s => Reached options _ s ∧ s.table.Headed)
      (fun hmove hs => ⟨.emit hs.1 (.move hmove), hs.2.congr (hmove.outline hs.1.ready.names)⟩)
      ⟨h, ih⟩).2
  | @define defined s h place hplace definition ih =>
    rcases definition with tokens | ⟨name, members, line⟩
    · obtain ⟨slots, -, heq⟩ := declare_adds place tokens s
      rw [define_variables, heq]
      exact Table.forall_append ih fun x hx a harray => ⟨a, rfl, if_pos harray⟩
    · rw [Session.define, result_liftLayout]
      exact ih

namespace Lower

variable {α β : Type} {f : Frame} {u t : Scope} {x header cell left right : Slot}

/-! ## Known slots -/

section Known

variable (h : Session.Reached options defined now)
include h

theorem offset_of_knows (hx : (Scope.start now).Knows x) : x.offset = none := by
  obtain ⟨y, hy, hyx⟩ := List.mem_map.mp hx
  have hoffset := congrArg Slot.offset hyx
  exact hoffset.symm.trans (h.stored y hy).2

theorem address_of_knows (hx : (Scope.start now).Knows x) (hk : x.kind ≠ .struct) {a : Nat}
    (ha : x.address = some a) : a < now.table.words := by
  obtain ⟨y, hy, hyx⟩ := List.mem_map.mp hx
  have hkind := congrArg Slot.kind hyx
  have haddress := congrArg Slot.address hyx
  by_contra hge
  have hnone := h.fronted.table.layout.findAt?_eq_none (Nat.le_of_not_lt hge)
  have hkind : y.kind ≠ .struct := fun hy => hk (hkind.symm.trans hy)
  have haddress : y.address = some a := haddress.trans ha
  simpa [haddress, hkind] using List.find?_eq_none.mp hnone y hy

theorem value_of_knows (hx : (Scope.start now).Knows x) (hk : x.kind = .array) :
    ∃ a, x.address = some a ∧ x.value? = some (UInt64.ofNat (a + 1)) := by
  obtain ⟨y, hy, hyx⟩ := List.mem_map.mp hx
  have hkind := congrArg Slot.kind hyx
  have haddress := congrArg Slot.address hyx
  have hcontent := congrArg Slot.content hyx
  obtain ⟨a, ha, hc⟩ := h.headed y hy (hkind.trans hk)
  have hc : x.content = some (Hex.ofWord (UInt64.ofNat (a + 1))) := hcontent.symm.trans hc
  exact ⟨a, haddress.symm.trans ha, by simp [Slot.value?, hc]⟩

omit h in
theorem knows_of_slotAt {words : Int} (hu : (Scope.start now).Leads u)
    (h : Gives (slotAt x words) f u cell t) : (Scope.start now).Knows cell ∧ cell.kind ≠ .struct := by
  obtain ⟨hknows, hkind, -⟩ := slotAt_gives h
  exact ⟨hknows.congr hu.ground.symm, hkind⟩

/-- A cell of an array lies behind the header of the array. -/
theorem slotAt_behind (hwords : now.table.words < wordLimit) (hu : (Scope.start now).Leads u)
    (hheader : (Scope.start now).Knows header) (hk : header.kind = .array) {i : Nat}
    (hcell : Gives (slotAt header i) f u cell t) :
    ∃ a b, header.address = some a ∧ cell.address = some b ∧ a < b ∧ b < now.table.words := by
  obtain ⟨hknows, hkind⟩ := knows_of_slotAt hu hcell
  obtain ⟨a, ha, hvalue⟩ := value_of_knows h hheader hk
  obtain ⟨-, -, base, hbase, haddress⟩ := slotAt_gives hcell
  obtain rfl : UInt64.ofNat (a + 1) = base := Option.some.inj (hvalue.symm.trans hbase)
  have hlt : a < now.table.words := address_of_knows h hheader (by simp [hk]) ha
  have hnat : (UInt64.ofNat (a + 1)).toNat = a + 1 :=
    UInt64.toNat_ofNat_of_lt' (Nat.lt_of_le_of_lt hlt hwords)
  refine ⟨a, _, ha, haddress, ?_, address_of_knows h hknows hkind haddress⟩
  rw [hnat]
  omega

theorem offset_of_allocate (hu : (Scope.start now).Leads u) (hx : Gives allocate f u x t) :
    x.offset = none := by
  rcases allocate_cases hx with ⟨hr, -⟩ | ⟨-, pool, hp, -⟩
  · have htarget := hu.target (fun _ => Scope.isPlain_of_reservable) (by simp [Scope.start, Reuse.target?])
    exact Slot.offset_of_isPlain (htarget x (by simp [hr, Reuse.target?]))
  · have hmem : x ∈ u.ground.registers := Pool.mem_slots_of_allocate? hp
    rw [hu.ground, Scope.registers_start] at hmem
    exact (h.stored x (List.mem_filter.mp hmem).1).2

theorem offset_of_resolveConstant (hu : (Scope.start now).Leads u) (hx : x.offset = none)
    (hgives : Gives (resolveConstant x) f u left t) : left.offset = none := by
  rcases (resolveConstant_notes hgives).1 with rfl | hknows
  · exact hx
  · exact offset_of_knows h (hknows.congr hu.ground.symm)

theorem words_lt_nesting (hu : (Scope.start now).Leads u) : now.table.words + 4 ≤ nesting u.session := by
  have hlength := congrArg (fun g : Ground => g.slots.length) hu.ground
  have hlength : u.session.table.slots.length = now.table.slots.length := by
    simpa [Scope.ground, Scope.start] using hlength
  have hwords := wordCount_le_length (now.table.slots.map Slot.kind)
  rw [← h.fronted.table.layout.next, List.length_map, ← hlength] at hwords
  exact Nat.add_le_add_right hwords 4

end Known

/-! ## Steps that agree -/

/-- A step that does not fail because assignments are nested too deep. -/
class Shallow (m : Lower α) : Prop where
  cause : ∀ (f : Frame) (s : Scope) (e : Failure),
    (outcome m f s).1 = .error e → e.cause ≠ .endlessNesting

instance (a : α) : Shallow (pure a : Lower α) where
  cause _ _ _ h := nomatch h

instance (m : Lower α) (k : α → Lower β) [Shallow m] [∀ a, Shallow (k a)] : Shallow (m >>= k) where
  cause f s e := by
    have hm := Shallow.cause (m := m) f s
    rw [outcome_bind]
    rcases h : outcome m f s with ⟨_ | a, t⟩ <;> rw [h] at hm
    · exact fun he => hm e (by simpa using he)
    · exact Shallow.cause f t e

instance (c : Prop) [Decidable c] (m m' : Lower α) [Shallow m] [Shallow m'] :
    Shallow (if c then m else m') := by
  split <;> infer_instance

theorem shallow_fail {cause : Cause} (h : cause ≠ .endlessNesting) :
    Shallow (fail cause : Lower α) where
  cause _ _ e he := by
    obtain rfl : _ = e := Except.error.inj he
    exact h

instance : Shallow (fail .operandsOfAssignment : Lower α) := shallow_fail (by simp)

instance (o : Option α) : Shallow (orFail o .operandsOfAssignment) := by
  cases o <;> (unfold orFail; infer_instance)

instance : Shallow (get : Lower Scope) where
  cause _ _ _ h := nomatch h

instance : Shallow (read : Lower Frame) where
  cause _ _ _ h := nomatch h

instance : Shallow allocate where
  cause f s e := by
    simp only [allocate, outcome_bind, outcome_get]
    split
    · rintro ⟨⟩
    · split <;> rintro ⟨⟩
      nofun

instance (flat : Flat) : Shallow flat.release where
  cause f s e h := by
    unfold Flat.release at h
    split at h <;> cases h

instance (address : Nat) : Shallow (lookupAt address) where
  cause f s e := by
    simp only [lookupAt, outcome_bind, outcome_get]
    split
    · rw [outcome_noteUse]
      rintro ⟨⟩
    · rintro ⟨⟩
      nofun

instance (slot : Slot) (words : Int) : Shallow (slotAt slot words) := by
  unfold slotAt
  infer_instance

instance (slot : Slot) : Shallow (resolveConstant slot) := by
  unfold resolveConstant
  split <;> infer_instance

instance (address : Nat) : Shallow (indexName address) := by
  unfold indexName
  infer_instance

instance (left right : Slot) : Shallow (assignCell left right) := by
  unfold assignCell
  split <;> infer_instance

instance (left right : Slot) : Shallow (assignConstant left right) := by
  unfold assignConstant
  have hoverflow (o : Option Word) : Shallow (orFail o .wordOverflow) := by
    cases o
    · exact shallow_fail (by simp)
    · unfold orFail; infer_instance
  have (s : Scope) (value : Word) : Shallow (α := Code) (
      match namedConstant? s.session.table right with
      | some named => pure [.move left.asmName named.asmName]
      | none => pure [.setImmediate left.asmName (Hex.ofWord value)]) := by
    split <;> infer_instance
  infer_instance

/-- Two steps do the same in every scope of a session, and where `P` holds, neither fails because
assignments are nested too deep. -/
def Concurs (now : Session) (P : Prop) (m m' : Lower α) : Prop :=
  ∀ (f : Frame) (u : Scope), (Scope.start now).Leads u → outcome m f u = outcome m' f u ∧
    (P → ∀ e, (outcome m f u).1 = .error e → e.cause ≠ .endlessNesting)

namespace Concurs

variable {P : Prop} {m m' : Lower α} {k k' : α → Lower β}

theorem refl [Shallow m] : Concurs now P m m :=
  fun f u _ => ⟨rfl, fun _ => Shallow.cause f u⟩

theorem bind [Orderly m] (hm : Concurs now P m m')
    (hk : ∀ {f u a t}, (Scope.start now).Leads u → Gives m f u a t → Concurs now P (k a) (k' a)) :
    Concurs now P (m >>= k) (m' >>= k') := by
  intro f u hu
  obtain ⟨heq, hcause⟩ := hm f u hu
  rw [outcome_bind, outcome_bind, ← heq]
  rcases h : outcome m f u with ⟨e | a, t⟩
  · refine ⟨rfl, fun hP e' he => hcause hP e' ?_⟩
    simpa [h] using he
  · exact hk hu h f t (hu.trans (leads_of_gives h))

theorem get {k k' : Scope → Lower β} (hk : ∀ s, Concurs now P (k s) (k' s)) :
    Concurs now P (get >>= k) (get >>= k') :=
  fun f u hu => hk u f u hu

end Concurs

/-! ## Assignments with other assignments inside -/

section Within

variable {P : Prop} {depth : Nat} {within : Slot → Slot → Lower Code}

theorem concurs_flattenWith (h : Session.Reached options defined now)
    (hwithin : ∀ scratch : Slot, scratch.offset = none →
      Concurs now P (assignWithin depth scratch x) (within scratch x)) :
    Concurs now P (flattenWith (assignWithin depth) x) (flattenWith within x) := by
  have hscratch : Concurs now P (intoScratch (assignWithin depth) x) (intoScratch within x) :=
    .bind .refl fun hu hgives => .bind (hwithin _ (offset_of_allocate h hu hgives)) fun _ _ => .refl
  have hfail {cause : Cause} (hcause : cause ≠ .endlessNesting) :
      Concurs now P (fail cause : Lower Flat) (fail cause) :=
    have := shallow_fail (α := Flat) hcause
    .refl
  rcases hk : x.kind <;> rcases ho : x.offset with _ | words | index <;>
    simp only [flattenWith, hk, ho]
  case constant.none =>
    refine .get fun s => ?_
    rcases namedConstant? s.session.table x with _ | named
    · exact hscratch
    · exact .refl
  all_goals first | exact hscratch | exact hfail (by simp) | exact .refl

/-- The assignments to the cells of an array agree. -/
def CellsConcur (now : Session) (P : Prop) (header : Slot) (depth : Nat)
    (within : Slot → Slot → Lower Code) : Prop :=
  ∀ {f u cell t} {i : Nat}, (Scope.start now).Leads u → Gives (slotAt header i) f u cell t →
    ∀ word, Concurs now P (assignWithin depth cell (.constant word)) (within cell (.constant word))

theorem concurs_fillCells (hcell : CellsConcur now P header depth within)
    (count i : Nat) (digits : List Char) :
    Concurs now P (fillCells (assignWithin depth) header count i digits)
      (fillCells within header count i digits) := by
  induction count generalizing i digits with
  | zero => exact Concurs.refl (m := pure [])
  | succ count ih =>
    refine .bind .refl fun hu hgives => ?_
    rcases splitBytes? Hex.digitsPerWord digits with _ | ⟨word, rest⟩
    · have : Shallow (fail .splitCharacter : Lower Code) := shallow_fail (by simp)
      exact .refl
    · exact .bind (hcell hu hgives _) fun _ _ => .bind (ih _ _) fun _ _ => .refl

theorem concurs_fillArray (hcell : CellsConcur now P header depth within) (right : Slot) :
    Concurs now P (fillArray (assignWithin depth) header right) (fillArray within header right) := by
  have hoverflow : Shallow (fail .arrayOverflow : Lower PUnit) := shallow_fail (by simp)
  unfold fillArray
  split
  · exact .bind (.refl (m := fail .operandsOfAssignment)) fun _ hgives => absurd hgives gives_fail
  refine .bind .refl fun _ _ => .bind .refl fun _ _ => ?_
  dsimp only
  split
  · exact .bind (.refl (m := fail .arrayOverflow)) fun _ hgives => absurd hgives gives_fail
  · exact concurs_fillCells hcell _ _ _

/-- Assignment once the constants among the operands are resolved. -/
def assignResolved (within : Slot → Slot → Lower Code) (left right : Slot) : Lower Code :=
  match left.kind with
  | .register | .long | .fixed | .structRef => assignRegular (flattenWith within) left right
  | .array => assignArray within left right
  | .constant | .struct | .void => fail .operandsOfAssignment

theorem assignWithin_succ (depth : Nat) (left right : Slot) :
    assignWithin (depth + 1) left right = (do
      let left ← resolveConstant left
      let right ← resolveConstant right
      assignResolved (assignWithin depth) left right) := rfl

theorem concurs_assignRegular {flatten flatten' : Slot → Lower Flat} [∀ slot, Orderly (flatten slot)]
    (hword : ∀ w : Word, Concurs now P (flatten (.ofWord w)) (flatten' (.ofWord w)))
    (hright : left.offset ≠ none → Concurs now P (flatten right) (flatten' right)) :
    Concurs now P (assignRegular flatten left right) (assignRegular flatten' left right) := by
  rcases ho : left.offset with _ | words | index
  · have hassign : Concurs now P (assignWord flatten left right) (assignWord flatten' left right) := by
      rcases hr : right.offset with _ | words | index <;> simp only [assignWord, hr]
      · exact .refl
      · split
        · exact .refl
        · exact .bind (hword _) fun _ _ => .refl
      · exact .refl
    rcases hk : right.kind <;> simp only [assignRegular, ho, hk] <;>
      first | exact hassign | exact .refl
  · have hright := hright (by simp [ho])
    simp only [assignRegular, ho, assignKnown]
    refine .bind hright fun _ _ => ?_
    split
    · exact .refl
    · exact .bind (hword _) fun _ _ => .refl
  · have hright := hright (by simp [ho])
    simp only [assignRegular, ho, assignIndexed]
    exact .bind hright fun _ _ => .refl

theorem concurs_assignResolved
    (hcell : left.kind = .array → CellsConcur now P left depth within)
    (hword : ∀ w : Word, Concurs now P (flattenWith (assignWithin depth) (.ofWord w))
      (flattenWith within (.ofWord w)))
    (hright : left.offset ≠ none → Concurs now P (flattenWith (assignWithin depth) right)
      (flattenWith within right)) :
    Concurs now P (assignResolved (assignWithin depth) left right)
      (assignResolved within left right) := by
  have hregular := concurs_assignRegular hword hright
  have harray (hk : left.kind = .array) :
      Concurs now P (assignArray (assignWithin depth) left right) (assignArray within left right) := by
    rcases ho : left.offset with _ | words | index <;> simp only [assignArray, ho]
    · exact concurs_fillArray (hcell hk) right
    · exact .refl
    · exact .bind (hright (by simp [ho])) fun _ _ => .refl
  rcases hk : left.kind <;> simp only [assignResolved, hk] <;>
    first | exact hregular | exact harray hk | exact .refl

end Within

/-! ## How deep assignments go

The cells of an array need no more levels than there are words. A constant in a scratch place needs one
more, any operand in a scratch place two more, and an assignment to what a pointer points to three more. -/

section Depth

variable {depth depth' : Nat} (h : Session.Reached options defined now)
  (hwords : now.table.words < wordLimit)

theorem concurs_constant (hleft : left.offset = none) (hc : right.kind = .constant)
    (hright : right.offset = none)
    (hcell : left.kind = .array → CellsConcur now True left depth (assignWithin depth')) :
    Concurs now True (assignWithin (depth + 1) left right) (assignWithin (depth' + 1) left right) := by
  simp only [assignWithin_succ, resolveConstant_of_offset hleft, resolveConstant_of_offset hright,
    pure_bind]
  rcases hk : left.kind <;> simp only [assignResolved, hk, assignRegular, assignArray, hleft, hc] <;>
    first | exact concurs_fillArray (hcell hk) right | exact .refl

include h hwords

theorem concurs_cell (hcell : (Scope.start now).Knows cell) (hk : cell.kind ≠ .struct) {b : Nat}
    (hb : cell.address = some b) (hdepth : now.table.words ≤ b + depth)
    (hdepth' : now.table.words ≤ b + depth') (word : String) :
    Concurs now True (assignWithin depth cell (.constant word))
      (assignWithin depth' cell (.constant word)) := by
  -- The cells of the cell lie further behind, so one level less is enough for them.
  have hlt := address_of_knows h hcell hk hb
  induction depth generalizing depth' cell b word with
  | zero => omega
  | succ depth ih =>
    obtain _ | depth' := depth'
    · omega
    refine concurs_constant (offset_of_knows h hcell) rfl rfl fun harray _ _ _ _ _ hu hgives word => ?_
    obtain ⟨hknows, hkind⟩ := knows_of_slotAt hu hgives
    obtain ⟨a, b', ha, hb', hab, hlt'⟩ := slotAt_behind h hwords hu hcell harray hgives
    obtain rfl : b = a := Option.some.inj (hb.symm.trans ha)
    exact ih hknows hkind hb' (by omega) (by omega) word hlt'

theorem concurs_cells (hdepth : now.table.words ≤ depth) (hdepth' : now.table.words ≤ depth') (x : Slot) :
    CellsConcur now True x depth (assignWithin depth') := by
  intro f u cell t i hu hcell word
  obtain ⟨hknows, hkind⟩ := knows_of_slotAt hu hcell
  obtain ⟨-, -, base, -, hb⟩ := slotAt_gives hcell
  exact concurs_cell h hwords hknows hkind hb (by omega) (by omega) word

theorem concurs_word (hdepth : now.table.words + 1 ≤ depth) (hdepth' : now.table.words + 1 ≤ depth')
    (w : Word) :
    Concurs now True (flattenWith (assignWithin depth) (.ofWord w))
      (flattenWith (assignWithin depth') (.ofWord w)) := by
  refine concurs_flattenWith h fun scratch hscratch => ?_
  obtain ⟨depth, rfl⟩ : ∃ n, depth = n + 1 := ⟨depth - 1, by omega⟩
  obtain ⟨depth', rfl⟩ : ∃ n, depth' = n + 1 := ⟨depth' - 1, by omega⟩
  exact concurs_constant hscratch rfl rfl fun _ =>
    concurs_cells h hwords (by omega) (by omega) _

theorem concurs_plain (hdepth : now.table.words + 2 ≤ depth) (hdepth' : now.table.words + 2 ≤ depth')
    (hleft : left.offset = none) (right : Slot) :
    Concurs now True (assignWithin depth left right) (assignWithin depth' left right) := by
  obtain ⟨depth, rfl⟩ : ∃ n, depth = n + 1 := ⟨depth - 1, by omega⟩
  obtain ⟨depth', rfl⟩ : ∃ n, depth' = n + 1 := ⟨depth' - 1, by omega⟩
  refine .bind .refl fun hu hgives => .bind .refl fun _ _ => concurs_assignResolved
    (fun _ => concurs_cells h hwords (by omega) (by omega) _)
    (concurs_word h hwords (by omega) (by omega)) fun ho => ?_
  exact absurd (offset_of_resolveConstant h hu hleft hgives) ho

theorem concurs_flatten (hdepth : now.table.words + 2 ≤ depth) (hdepth' : now.table.words + 2 ≤ depth')
    (x : Slot) :
    Concurs now True (flattenWith (assignWithin depth) x) (flattenWith (assignWithin depth') x) :=
  concurs_flattenWith h fun _ hscratch => concurs_plain h hwords hdepth hdepth' hscratch x

theorem concurs_assign (hdepth : now.table.words + 3 ≤ depth) (hdepth' : now.table.words + 3 ≤ depth')
    (left right : Slot) :
    Concurs now True (assignWithin depth left right) (assignWithin depth' left right) := by
  obtain ⟨depth, rfl⟩ : ∃ n, depth = n + 1 := ⟨depth - 1, by omega⟩
  obtain ⟨depth', rfl⟩ : ∃ n, depth' = n + 1 := ⟨depth' - 1, by omega⟩
  exact .bind .refl fun _ _ => .bind .refl fun _ _ => concurs_assignResolved
    (fun _ => concurs_cells h hwords (by omega) (by omega) _)
    (concurs_word h hwords (by omega) (by omega))
    fun _ => concurs_flatten h hwords (by omega) (by omega) _

end Depth

/-- Assignments end, whatever the operands are: the depth that a session has for assignments inside each
other is not used up, and a larger one makes no difference. The same holds for operands that are brought
into a form that can be named. Filling an array assigns only to cells that lie behind its header and
within the words of the session. -/
theorem nesting_suffices (h : Session.Reached options defined now)
    (hwords : now.table.words < wordLimit) (hu : (Scope.start now).Leads u) (f : Frame) :
    (∀ left right : Slot,
      (∀ depth, nesting u.session ≤ depth →
        outcome (assignWithin depth left right) f u = outcome (assign left right) f u) ∧
      ∀ e, (outcome (assign left right) f u).1 = .error e → e.cause ≠ .endlessNesting) ∧
    (∀ slot : Slot,
      (∀ depth, nesting u.session ≤ depth →
        outcome (flattenWith (assignWithin depth) slot) f u = outcome (flatten slot) f u) ∧
      ∀ e, (outcome (flatten slot) f u).1 = .error e → e.cause ≠ .endlessNesting) ∧
    ∀ header : Slot, u.Knows header → header.kind = .array →
      ∃ a, header.address = some a ∧ a < now.table.words ∧
        ∀ (right : Slot) (depth : Nat) (within : Slot → Slot → Lower Code),
          (∀ cell word b, cell.address = some b → a < b → b < now.table.words →
            within cell word = assignWithin depth cell word) →
          outcome (fillArray within header right) f u =
            outcome (fillArray (assignWithin depth) header right) f u := by
  have hnesting := words_lt_nesting h hu
  refine ⟨fun left right => ?_, fun slot => ?_, fun header hheader hk => ?_⟩
  · rw [assign, outcome_bind, outcome_get]
    have hassign (depth : Nat) (hdepth : nesting u.session ≤ depth) : Concurs now True
        (assignWithin depth left right) (assignWithin (nesting u.session) left right) :=
      concurs_assign h hwords (by omega) (by omega) left right
    exact ⟨fun depth hdepth => (hassign depth hdepth f u hu).1,
      (hassign _ (Nat.le_refl _) f u hu).2 trivial⟩
  · rw [flatten, outcome_bind, outcome_get]
    have hflatten (depth : Nat) (hdepth : nesting u.session ≤ depth) : Concurs now True
        (flattenWith (assignWithin depth) slot) (flattenWith (assignWithin (nesting u.session)) slot) :=
      concurs_flatten h hwords (by omega) (by omega) slot
    exact ⟨fun depth hdepth => (hflatten depth hdepth f u hu).1,
      (hflatten _ (Nat.le_refl _) f u hu).2 trivial⟩
  · have hheader : (Scope.start now).Knows header := hheader.congr hu.ground.symm
    obtain ⟨a, ha, -⟩ := value_of_knows h hheader hk
    refine ⟨a, ha, address_of_knows h hheader (by simp [hk]) ha, fun right depth within hwithin => ?_⟩
    refine ((concurs_fillArray (P := False) (fun hv hgives word => ?_) right) f u hu).1.symm
    obtain ⟨a', b, ha', hb, hab, hlt⟩ := slotAt_behind h hwords hv hheader hk hgives
    obtain rfl : a = a' := Option.some.inj (ha.symm.trans ha')
    rw [hwithin _ _ b hb hab hlt]
    exact fun _ _ _ => ⟨rfl, False.elim⟩

end Lower

open Lower in
/-- Filling the array of structs fills the array in each of them as well, to the same code at every depth
that suffices. -/
theorem recordProgram_nests : ∃ (s : Session) (ps : Slot) (code : Code) (t : Scope),
    s.Reached {} recordProgram.definitions ∧ ps ∈ s.table.slots ∧ ps.kind = .array ∧
      (∀ depth, nesting s ≤ depth →
        Gives (assignWithin depth ps (.constant "7")) { line := 3 } (.start s) code t) ∧
      code = .setImmediate "ps_0_x" (Hex.ofWord 7) :: ["ps_0_t_0", "ps_0_t_1", "ps_0_t_0", "ps_0_t_1",
        "ps_1_x", "ps_1_t_0", "ps_1_t_1", "ps_1_t_0", "ps_1_t_1"].map .clear := by
  have hfound : (recordProgram.layout? {}).any fun s => s.table.words = 12 &&
      s.table.slots.any fun ps => ps.kind = .array &&
        (outcome (assign ps (.constant "7")) { line := 3 } (.start s)).1.toOption = some
          (.setImmediate "ps_0_x" (Hex.ofWord 7) :: ["ps_0_t_0", "ps_0_t_1", "ps_0_t_0", "ps_0_t_1",
            "ps_1_x", "ps_1_t_0", "ps_1_t_1", "ps_1_t_0", "ps_1_t_1"].map .clear) := by
    decide +kernel
  obtain ⟨s, hlayout, hfound⟩ := (Option.any_eq_true _ _).mp hfound
  simp only [Bool.and_eq_true, List.any_eq_true, decide_eq_true_eq] at hfound
  obtain ⟨hwords, ps, hps, hk, hcode⟩ := hfound
  have hs := Program.reached_of_layout? hlayout
  obtain ⟨hassign, -⟩ := nesting_suffices hs (by rw [hwords]; decide) (.refl (.start s)) { line := 3 }
  exact ⟨s, ps, _, _, hs, hps, hk, fun depth hdepth =>
    ((hassign ps _).1 depth hdepth).trans (gives_of_toOption hcode), rfl⟩

end Flatword
