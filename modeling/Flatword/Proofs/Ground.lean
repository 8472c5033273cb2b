import Mathlib.Data.List.Nodup
import Flatword.Proofs.Moves
import Flatword.Proofs.Table

/-!
# The ground of a scope

Which registers of a pool hold a value, and what lowering leaves as it is: the layout of the table
without its marks, the shapes, the functions and the registers of the pool.
-/

namespace Flatword

/-! ## Registers of a pool -/

namespace Pool

variable {a : Nat}

/-- The register at an address holds a value. -/
def Busy (p : Pool) (a : Nat) : Prop :=
  ∃ r ∈ p.registers, r.inUse = true ∧ r.slot.address = some a

/-- The register at an address can be taken. -/
def Free (p : Pool) (a : Nat) : Prop :=
  ∃ r ∈ p.registers, r.inUse = false ∧ r.slot.address = some a

def Distinct (p : Pool) : Prop :=
  (p.registers.map (·.slot.address)).Nodup

/-- The slots of the registers. -/
def slots (p : Pool) : List Slot :=
  p.registers.map (·.slot)

theorem takeFirst?_eq_some {rs rs' : List Register} {slot : Slot}
    (h : takeFirst? rs = some (slot, rs')) :
    ∃ front r rest, rs = front ++ r :: rest ∧ r.inUse = false ∧ r.slot = slot ∧
      rs' = front ++ { r with inUse := true } :: rest := by
  induction rs generalizing rs' with
  | nil => simp [takeFirst?] at h
  | cons r rs ih =>
      unfold takeFirst? at h
      split at h
      · obtain ⟨⟨slot', rs''⟩, htake, heq⟩ := Option.map_eq_some_iff.mp h
        obtain ⟨rfl, rfl⟩ := Prod.mk.inj heq
        obtain ⟨front, r', rest, rfl, hr', rfl, rfl⟩ := ih htake
        exact ⟨r :: front, r', rest, rfl, hr', rfl, rfl⟩
      · next hr =>
        obtain ⟨rfl, rfl⟩ := Prod.mk.inj (Option.some.inj h)
        exact ⟨[], r, rs, rfl, by simpa using hr, rfl, rfl⟩

variable {p q : Pool} {slot : Slot}

theorem allocate?_eq_some (h : p.allocate? = some (slot, q)) :
    ∃ front r rest, p.registers = front ++ r :: rest ∧ r.inUse = false ∧ r.slot = slot ∧
      q.registers = front ++ { r with inUse := true } :: rest := by
  obtain ⟨⟨slot', rs⟩, htake, heq⟩ := Option.map_eq_some_iff.mp h
  obtain ⟨rfl, rfl⟩ := Prod.mk.inj heq
  exact takeFirst?_eq_some htake

theorem slots_allocate? (h : p.allocate? = some (slot, q)) : q.slots = p.slots := by
  obtain ⟨front, r, rest, hp, -, -, hq⟩ := allocate?_eq_some h
  simp [slots, hp, hq]

theorem mem_slots_of_allocate? (h : p.allocate? = some (slot, q)) : slot ∈ p.slots := by
  obtain ⟨front, r, rest, hp, -, rfl, -⟩ := allocate?_eq_some h
  simp [slots, hp]

theorem busy_allocate? (h : p.allocate? = some (slot, q)) :
    q.Busy a ↔ p.Busy a ∨ slot.address = some a := by
  obtain ⟨front, r, rest, hp, hr, rfl, hq⟩ := allocate?_eq_some h
  simp only [Busy, hp, hq, List.mem_append, List.mem_cons, or_and_right, exists_or,
    exists_eq_left, hr]
  grind

theorem free_of_allocate? (h : p.allocate? = some (slot, q)) (ha : slot.address = some a) :
    p.Free a := by
  obtain ⟨front, r, rest, hp, hr, rfl, -⟩ := allocate?_eq_some h
  exact ⟨r, by simp [hp], hr, ha⟩

theorem free_allocate? (hd : p.Distinct) (h : p.allocate? = some (slot, q)) :
    q.Free a ↔ p.Free a ∧ slot.address ≠ some a := by
  obtain ⟨front, r, rest, hp, hr, rfl, hq⟩ := allocate?_eq_some h
  simp only [Distinct, hp, List.map_append, List.map_cons, List.nodup_append, List.nodup_cons,
    List.mem_map, List.mem_cons] at hd
  simp only [Free, hp, hq, List.mem_append, List.mem_cons]
  grind

theorem freeFirst_eq_map {rs : List Register} (hd : (rs.map (·.slot.address)).Nodup) :
    freeFirst a rs =
      rs.map fun r => if r.slot.address = some a then { r with inUse := false } else r := by
  induction rs with
  | nil => rfl
  | cons r rs ih =>
      obtain ⟨hr, hrs⟩ := List.nodup_cons.mp hd
      unfold freeFirst
      by_cases ha : r.slot.address = some a
      · have hrest : ∀ r' ∈ rs, r'.slot.address ≠ some a := fun r' hr' heq =>
          hr (List.mem_map.mpr ⟨r', hr', heq.trans ha.symm⟩)
        simp only [ha, if_true, List.map_cons, List.cons.injEq, true_and]
        rw [List.map_congr_left fun r' hr' => if_neg (hrest r' hr'), List.map_id']
      · simp [ha, ih hrs]

theorem slots_freeFirst (a : Nat) (rs : List Register) :
    (freeFirst a rs).map (·.slot) = rs.map (·.slot) := by
  fun_induction freeFirst a rs <;> simp_all

@[simp]
theorem slots_release (p : Pool) (address : Option Nat) : (p.release address).slots = p.slots := by
  cases address with
  | none => rfl
  | some a => exact slots_freeFirst a p.registers

theorem Distinct.of_slots (h : q.slots = p.slots) (hp : p.Distinct) : q.Distinct := by
  have haddress (p : Pool) : p.registers.map (·.slot.address) = p.slots.map (·.address) := by
    simp [slots]
  unfold Distinct at hp ⊢
  rwa [haddress, h, ← haddress]

theorem release_eq_map (hd : p.Distinct) (a : Nat) :
    (p.release (some a)).registers = p.registers.map fun r =>
      if r.slot.address = some a then { r with inUse := false } else r :=
  freeFirst_eq_map hd

theorem busy_release (hd : p.Distinct) {a b : Nat} :
    (p.release (some a)).Busy b ↔ p.Busy b ∧ b ≠ a := by
  simp only [Busy, release_eq_map hd, List.mem_map]
  grind

theorem free_release (hd : p.Distinct) {a b : Nat} :
    (p.release (some a)).Free b ↔ p.Free b ∨ b = a ∧ (p.contains (some a) = true) := by
  simp only [Free, contains, release_eq_map hd, List.mem_map, Option.isSome_some, Bool.true_and,
    List.any_eq_true, decide_eq_true_eq]
  grind

theorem contains_iff : p.contains (some a) = true ↔ ∃ slot ∈ p.slots, slot.address = some a := by
  simp [contains, slots]

theorem not_busy_of_inUse_eq_nil (h : p.inUse = []) : ¬ p.Busy a := by
  rintro ⟨r, hr, hin, -⟩
  have : r.slot ∈ p.inUse := by
    simp only [inUse, List.mem_map, List.mem_filter]
    exact ⟨r, ⟨hr, hin⟩, rfl⟩
  simp [h] at this

theorem inUse_eq_nil (ha : ∀ slot ∈ p.slots, slot.address ≠ none) (h : ∀ a, ¬ p.Busy a) :
    p.inUse = [] := by
  simp only [inUse, List.map_eq_nil_iff, List.filter_eq_nil_iff]
  intro r hr hin
  obtain ⟨a, hra⟩ := Option.ne_none_iff_exists'.mp (ha r.slot (List.mem_map_of_mem hr))
  exact h a ⟨r, hr, hin, hra⟩

end Pool

/-! ## What stays -/

/-- A slot without the marks that it has been set and declared. -/
def Slot.unmarked (s : Slot) : Slot :=
  { s with isSet := false, isDeclared := false }

/-- What lowering finds and leaves as it is. -/
structure Ground where
  /-- The slots of the table, without their marks. -/
  slots : List Slot
  /-- The slots of the registers in the pool. -/
  registers : List Slot
  catalog : Catalog
  functions : List Signature
  options : Options

namespace Scope

variable {s t : Scope} {slot : Slot}

def ground (s : Scope) : Ground where
  slots := s.session.table.slots.map Slot.unmarked
  registers := s.pool.slots
  catalog := s.session.catalog
  functions := s.session.functions
  options := s.session.options

theorem Move.ground (h : s.Move t) : t.ground = s.ground := by
  cases h with
  | take h => simp [Scope.ground, Pool.slots_allocate? h]
  | release address => simp [Scope.ground]
  | mark asmName =>
    simp only [Scope.ground, Table.markSet]
    rw [Table.map_updateAsm Slot.unmarked ({ · with isSet := true }) _ _ fun _ _ _ => rfl]
  | _ => rfl

theorem Leads.ground (h : s.Leads t) : t.ground = s.ground :=
  h.invariant Move.ground

/-- Nothing has changed but marks of slots and warnings. -/
structure Notes (s t : Scope) : Prop where
  ground : t.ground = s.ground
  pool : t.pool = s.pool
  reuse : t.reuse = s.reuse
  post : t.post = s.post
  jumps : t.session.jumps = s.session.jumps

theorem Notes.refl (s : Scope) : s.Notes s :=
  ⟨rfl, rfl, rfl, rfl, rfl⟩

theorem Notes.trans {s t u : Scope} (h : s.Notes t) (h' : t.Notes u) : s.Notes u where
  ground := h'.ground.trans h.ground
  pool := h'.pool.trans h.pool
  reuse := h'.reuse.trans h.reuse
  post := h'.post.trans h.post
  jumps := h'.jumps.trans h.jumps

/-- A slot of the table, as far as marks go. -/
def Knows (s : Scope) (slot : Slot) : Prop :=
  slot.unmarked ∈ s.ground.slots

theorem Knows.congr (h : s.Knows slot) (hg : t.ground = s.ground) : t.Knows slot := by
  unfold Knows at h ⊢
  rwa [hg]

theorem knows_of_mem (h : slot ∈ s.session.table.slots) : s.Knows slot :=
  List.mem_map_of_mem h

end Scope

/-! ## Lookups -/

namespace Lower

variable {address : Nat} {name : String} {f : Frame} {s t : Scope} {slot x : Slot}

theorem noteUse_notes (h : Gives (noteUse slot) f s x t) : x = slot ∧ s.Notes t := by
  have hground := (leads_noted s f slot).ground
  rw [Gives, outcome_noteUse] at h
  obtain ⟨rfl, rfl⟩ : slot = x ∧ _ = t := by simpa using h
  refine ⟨rfl, hground, rfl, rfl, rfl, ?_⟩
  dsimp only [Session.noted]
  split <;> rfl

theorem lookup_notes (h : Gives (lookup name) f s x t) : s.Knows x ∧ s.Notes t := by
  simp only [lookup, gives_bind, gives_get, gives_read] at h
  obtain ⟨s₁, s₂, ⟨rfl, rfl⟩, frame, s₃, ⟨rfl, rfl⟩, h⟩ := h
  split at h
  · next slot hfound =>
    obtain ⟨rfl, hnotes⟩ := noteUse_notes h
    exact ⟨Scope.knows_of_mem (mem_of_findNamed? hfound), hnotes⟩
  · simp at h

theorem lookupAsm?_notes {asmName : String} {o : Option Slot}
    (h : Gives (lookupAsm? asmName) f s o t) : (∀ x ∈ o, s.Knows x) ∧ s.Notes t := by
  rw [lookupAsm?, gives_get_bind] at h
  split at h
  · next slot hfound =>
    simp only [gives_bind, gives_pure] at h
    obtain ⟨y, s₁, hnote, rfl, rfl⟩ := h
    obtain ⟨rfl, hnotes⟩ := noteUse_notes hnote
    exact ⟨by simpa using Scope.knows_of_mem (List.mem_of_find?_eq_some hfound), hnotes⟩
  · obtain ⟨rfl, rfl⟩ := gives_pure.mp h
    exact ⟨by simp, .refl s⟩

theorem lookupAt_notes (h : Gives (lookupAt address) f s x t) : s.Knows x ∧ s.Notes t := by
  rw [lookupAt, gives_get_bind] at h
  split at h
  · next slot hfound =>
    obtain ⟨rfl, hnotes⟩ := noteUse_notes h
    exact ⟨Scope.knows_of_mem (List.mem_of_find?_eq_some hfound), hnotes⟩
  · simp at h

theorem lookupAt_found (h : Gives (lookupAt address) f s x t) :
    x.address = some address ∧ x.kind ≠ .struct := by
  rw [lookupAt, gives_get_bind] at h
  split at h
  · next slot hfound =>
    obtain ⟨rfl, -⟩ := noteUse_notes h
    simpa using List.find?_some hfound
  · simp at h

theorem slotAt_notes {words : Int} (h : Gives (slotAt slot words) f s x t) :
    s.Knows x ∧ s.Notes t := by
  simp only [slotAt, gives_bind, gives_orFail] at h
  obtain ⟨base, s₁, ⟨-, rfl⟩, h⟩ := h
  split at h
  · exact lookupAt_notes h
  · simp at h

theorem indexName_notes (h : Gives (indexName address) f s name t) : s.Notes t := by
  simp only [indexName, gives_bind, gives_pure] at h
  obtain ⟨x, s₁, hat, -, rfl⟩ := h
  exact (lookupAt_notes hat).2

theorem resolveConstant_notes (h : Gives (resolveConstant slot) f s x t) :
    (x = slot ∨ s.Knows x) ∧ s.Notes t := by
  unfold resolveConstant at h
  split at h
  · obtain ⟨hx, hnotes⟩ := slotAt_notes h
    exact ⟨.inr hx, hnotes⟩
  · simp at h
  · obtain ⟨rfl, rfl⟩ := gives_pure.mp h
    exact ⟨.inl rfl, .refl s⟩

theorem knownCell_notes {leftSide : Bool} {header : Slot} {item : ArrayItem} {strides : List Word}
    {distance : Word} (h : Gives (knownCell leftSide header item strides distance) f s x t) :
    s.Knows x ∧ s.Notes t := by
  unfold knownCell at h
  split at h
  · simp only [gives_bind, gives_onSide, gives_orFail] at h
    obtain ⟨cell, s₁, hcell, rfl, rfl⟩ := h
    obtain ⟨hknows, hnotes⟩ := lookupAsm?_notes hcell
    exact ⟨hknows x rfl, hnotes⟩
  · simp only [gives_bind, gives_onSide, gives_orFail] at h
    obtain ⟨base, _, ⟨-, rfl⟩, hcell⟩ := h
    exact lookupAt_notes hcell

inductive FlattenCase (assign : Slot → Slot → Lower Code) (slot : Slot) (f : Frame) (s : Scope)
    (flat : Flat) (t : Scope) : Prop
  | named (named : Slot) (hc : slot.isConstant = true)
      (hn : namedConstant? s.session.table slot = some named) (hf : flat = { slot := named })
      (ht : t = s)
  | cell (words : Int64) (x : Slot) (hk : slot.kind = .constant ∨ slot.kind = .array)
      (ho : slot.offset = some (.known words)) (hx : Gives (slotAt slot words.toInt) f s x t)
      (hf : flat = { slot := x })
  | word (hk : slot.isPlain = true ∨ slot.kind = .array ∧ slot.offset = none)
      (hf : flat = { slot }) (ht : t = s)
  | literal (hc : slot.isConstant = true)
      (hn : namedConstant? s.session.table slot = none)
      (h : Gives (intoScratch assign slot) f s flat t)
  | load (hk : slot.kind ≠ .void ∧ slot.kind ≠ .struct) (ho : slot.offset ≠ none)
      (h : Gives (intoScratch assign slot) f s flat t)

theorem flattenWith_cases {assign : Slot → Slot → Lower Code} {flat : Flat}
    (h : Gives (flattenWith assign slot) f s flat t) :
    FlattenCase assign slot f s flat t := by
  rcases hk : slot.kind <;> rcases ho : slot.offset with _ | words | index <;>
    simp only [flattenWith, hk, ho, gives_fail] at h
  case constant.none =>
    rw [gives_get_bind] at h
    have hc : slot.isConstant = true := by simp [Slot.isConstant, hk, ho]
    split at h
    · next named hn =>
      obtain ⟨rfl, rfl⟩ := gives_pure.mp h
      exact .named named hc hn rfl rfl
    · next hn => exact .literal hc hn h
  case constant.some.known | array.some.known =>
    simp only [gives_bind, gives_pure] at h
    obtain ⟨x, s₁, hx, rfl, rfl⟩ := h
    exact .cell words x (by simp [hk]) ho hx rfl
  case register.none | long.none | fixed.none | structRef.none | array.none =>
    obtain ⟨rfl, rfl⟩ := gives_pure.mp h
    exact .word (by simp [Slot.isPlain, hk, ho, Kind.isRegular]) rfl rfl
  all_goals exact .load (by simp [hk]) (by simp [ho]) h

theorem lowerTarget_gives {namesPlace : Bool} {target : Lower Lowered} {v : Lowered}
    (h : Gives (lowerTarget namesPlace target) f s v t) :
    namesPlace = true ∧ Gives target { f with leftSide := true } s v t ∧
      ¬ (v.slot.kind = .constant ∧ v.slot.offset = none) ∧ v.slot.kind ≠ .struct ∧
      v.slot.kind ≠ .void := by
  unfold lowerTarget at h
  split at h
  · simp at h
  next hplace =>
  simp only [gives_bind, gives_onSide] at h
  obtain ⟨place, s₁, hvalue, h⟩ := h
  split at h
  all_goals first
    | exact absurd h gives_fail
    | obtain ⟨rfl, rfl⟩ := gives_pure.mp h
  next hvoid hstruct hconstant =>
  exact ⟨by simpa using hplace, hvalue, fun h => hconstant h.1 h.2, hstruct, hvoid⟩

end Lower

end Flatword
